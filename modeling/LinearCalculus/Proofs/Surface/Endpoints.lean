import LinearCalculus.Proofs.Surface.Rearrangement
import LinearCalculus.Proofs.Surface.Recall
import LinearCalculus.Proofs.Surface.Typing

namespace LinearCalculus.Surface

open LinearCalculus.Formula (chain alphaEq_symm)

namespace Arrow

theorem indexFault?_eq_none (step : Step) (index length : Nat) :
    indexFault? step index length = none ↔ index < length := by
  unfold indexFault?
  split <;> simp_all

theorem liftedFault?_eq_none (expected : Formula) (found : LinearCalculus.Formula) :
    liftedFault? expected found = none ↔ expected.expand.alphaEq found := by
  unfold liftedFault?
  split <;> simp_all

theorem onElement_fault?_eq_none (k : Connective) (values : List Formula) (i : Nat) (f : Arrow) :
    (onElement k values i f).fault? = none ↔ values[i]? = some f.source := by
  cases found : values[i]? <;> simp [fault?, found]

theorem ungroup_fault?_eq_none (k : Connective) (values : List Formula) (i : Nat) :
    (ungroup k values i).fault? = none ↔ ∃ inner, values[i]? = some (.conj k inner) := by
  cases found : values[i]? with
  | none => simp [fault?, found]
  | some v =>
      have nested : (v.conj? k).isSome ↔ ∃ inner, v = .conj k inner := by
        cases v with
        | conj k' inner => by_cases same : k' = k <;> simp [Formula.conj?, same]
        | _ => simp [Formula.conj?]
      simp [fault?, found, nested]

theorem composite_wellFormed {f g : Arrow} :
    (composite f g).WellFormed ↔ f.WellFormed ∧ g.WellFormed ∧ f.target = g.source := by
  simp [WellFormed, fault?]

theorem shift_wellFormed {k : Connective} {values : List Formula} {start stop : Nat} :
    (shift k values start stop).WellFormed ↔ start < values.length ∧ stop < values.length := by
  simp [WellFormed, fault?, indexFault?_eq_none]

theorem group_wellFormed {k : Connective} {values : List Formula} {start stop : Nat} :
    (group k values start stop).WellFormed ↔ start ≤ stop ∧ stop ≤ values.length := by
  have bounds : (group k values start stop).WellFormed ↔
      stop < values.length + 1 ∧ start < stop + 1 := by
    simp [WellFormed, fault?, indexFault?_eq_none]
  rw [bounds]
  omega

theorem exists_split {α : Type} {values : List α} {i : Nat} {v : α} (found : values[i]? = some v) :
    ∃ before after, values = before ++ v :: after ∧ before.length = i := by
  obtain ⟨within, rfl⟩ := List.getElem?_eq_some_iff.mp found
  refine ⟨values.take i, values.drop (i + 1), ?_, List.length_take_of_le (Nat.le_of_lt within)⟩
  rw [← List.drop_eq_getElem_cons within, List.take_append_drop]

theorem rearranged_leads {x : Except ShapeError LinearCalculus.Arrow}
    {a b : LinearCalculus.Formula} (leads : ∃ f, x = .ok f ∧ f.Leads a b)
    (typed : ∀ f, x = .ok f → f.WellTyped) : ∃ g, rearranged x = .ok g ∧ g.Leads a b := by
  obtain ⟨f, rfl, ends⟩ := leads
  have same := (f.congruent_compress (typed f rfl)).parallel
  exact ⟨f.compress, rfl, ends.of_parallel same⟩

theorem foldr_onBody_leads (q : Quantifier) (vars : List Var) {f : LinearCalculus.Arrow}
    {a b : LinearCalculus.Formula} (leads : f.Leads a b) :
    (vars.foldr (LinearCalculus.Arrow.onBody q) f).Leads
      (vars.foldr (.quant q) a) (vars.foldr (.quant q) b) := by
  induction vars with
  | nil => exact leads
  | cons v vars ih => exact Context.leads_mapArrow (c := .layer (.quant q v)) rfl ih

theorem expandUngroup_leads (k : Connective) (before inner after : List LinearCalculus.Formula) :
    ∃ g, expandUngroup k (before ++ inner ++ after) before.length inner.length = .ok g ∧
      g.Leads (chain k (before ++ chain k inner :: after))
        (chain k (before ++ inner ++ after)) := by
  obtain ⟨f, grouped, leads⟩ := Chain.group_leads k (before ++ inner ++ after) before.length
    (before.length + inner.length) (Nat.le_add_right _ _)
  have front : (before ++ inner ++ after).take before.length = before := by simp
  have middle : segment (before ++ inner ++ after) before.length
      (before.length + inner.length) = inner := by simp [segment]
  have back : (before ++ inner ++ after).drop (before.length + inner.length) = after := by simp
  rw [front, middle, back] at leads
  obtain ⟨r, reversed⟩ := Chain.group_invertible k _ _ _ f grouped
  have typed := f.reverse_wellTyped r (Chain.group_wellTyped k _ _ _ f grouped) reversed
  obtain ⟨source, target⟩ := (f.inverse_of_reverse r reversed).ends
  have back' : r.Leads (chain k (before ++ chain k inner :: after))
      (chain k (before ++ inner ++ after)) :=
    ⟨source ▸ leads.target, target ▸ leads.source⟩
  refine ⟨r.compress, ?_, back'.of_parallel (r.congruent_compress typed).parallel⟩
  exact bind_eq_ok.mpr ⟨f, mapError_eq_ok.mpr grouped,
    bind_eq_ok.mpr ⟨r, mapError_eq_ok.mpr reversed, rfl⟩⟩

theorem expand_leads (a : Arrow) (formed : a.WellFormed) :
    ∃ t, a.expand = .ok t ∧ t.Leads a.source.expand a.target.expand := by
  induction a with
  | identity a | hide name a | reveal name a => exact ⟨_, rfl, .of_eq rfl rfl⟩
  | unfold a b | fold a b => exact ⟨_, rfl, .of_eq rfl rfl⟩
  | composite f g first second =>
      obtain ⟨left, right, meet⟩ := composite_wellFormed.mp formed
      obtain ⟨f', expanded, leads⟩ := first left
      obtain ⟨g', expanded', leads'⟩ := second right
      rw [meet] at leads
      obtain ⟨composed, whole⟩ := leads.compose leads'
      exact ⟨_, bind_eq_ok.mpr ⟨f', expanded, bind_eq_ok.mpr ⟨g', expanded',
        mapError_eq_ok.mpr composed⟩⟩, whole⟩
  | onElement k values i f ih =>
      obtain ⟨inside, clear⟩ := formed
      obtain ⟨f', expanded, leads⟩ := ih inside
      have found := (onElement_fault?_eq_none k values i f).mp clear
      obtain ⟨within, here⟩ := List.getElem?_eq_some_iff.mp found
      refine ⟨_, bind_eq_ok.mpr ⟨f', expanded, rfl⟩, ?_⟩
      have whole := Chain.leads_element k (values.map Formula.expand) i (by simpa using within)
        leads
      rw [← List.map_set, ← List.map_set, ← here, List.set_getElem_self] at whole
      rw [source, target, Formula.expand_conj, Formula.expand_conj]
      exact whole
  | onNot f ih =>
      obtain ⟨f', expanded, leads⟩ := ih formed
      exact ⟨_, bind_eq_ok.mpr ⟨f', expanded, rfl⟩,
        Context.leads_mapArrow_back (c := .layer .not) rfl leads⟩
  | onAlways f ih =>
      obtain ⟨f', expanded, leads⟩ := ih formed
      exact ⟨_, bind_eq_ok.mpr ⟨f', expanded, rfl⟩,
        Context.leads_mapArrow (c := .layer .always) rfl leads⟩
  | onBody q vars f ih =>
      obtain ⟨f', expanded, leads⟩ := ih formed
      exact ⟨_, bind_eq_ok.mpr ⟨f', expanded, rfl⟩, foldr_onBody_leads q vars leads⟩
  | shift k values start stop =>
      have within := shift_wellFormed.mp formed
      have shifted := Chain.shift_leads k (values.map Formula.expand) start stop
        (by simpa using within.1) (by simpa using within.2)
      rw [← map_moved, ← Formula.expand_conj, ← Formula.expand_conj] at shifted
      exact rearranged_leads shifted (Chain.shift_wellTyped k _ start stop)
  | group k values start stop =>
      have ordered := (group_wellFormed.mp formed).1
      have collected := Chain.group_leads k (values.map Formula.expand) start stop ordered
      have list : (grouped k values start stop).map Formula.expand =
          (values.map Formula.expand).take start ++
            chain k (segment (values.map Formula.expand) start stop) ::
              (values.map Formula.expand).drop stop := by
        simp [grouped, segment, Formula.expand_conj]
      rw [← list, ← Formula.expand_conj, ← Formula.expand_conj] at collected
      exact rearranged_leads collected (Chain.group_wellTyped k _ start stop)
  | ungroup k values i =>
      obtain ⟨inner, found⟩ := (ungroup_fault?_eq_none k values i).mp formed
      obtain ⟨before, after, rfl, rfl⟩ := exists_split found
      have nested : nested? k (before ++ .conj k inner :: after) before.length = some inner := by
        simp [nested?, Formula.conj?]
      have list : spliced (before ++ .conj k inner :: after) before.length inner =
          before ++ inner ++ after := by simp [spliced]
      obtain ⟨g, result, leads⟩ := expandUngroup_leads k (before.map Formula.expand)
        (inner.map Formula.expand) (after.map Formula.expand)
      refine ⟨g, ?_, ?_⟩
      · rw [expand, nested]
        simpa [list] using result
      · rw [source, target, nested, Option.getD_some, list, Formula.expand_conj,
          Formula.expand_conj]
        simpa [Formula.expand_conj] using leads
  | forget values i =>
      have within : i < values.length := (indexFault?_eq_none _ _ _).mp formed
      have dropped := Chain.forget_leads (values.map Formula.expand) i (by simpa using within)
      rw [List.eraseIdx_map, ← Formula.expand_conj, ← Formula.expand_conj] at dropped
      exact rearranged_leads dropped (Chain.forget_wellTyped _ i)
  | widen values i x =>
      have within : i < values.length + 1 := (indexFault?_eq_none _ _ _).mp formed
      have inserted := Chain.widen_leads (values.map Formula.expand) i x.expand
        (by rw [List.length_map]; omega)
      rw [← List.map_insertIdx, ← Formula.expand_conj, ← Formula.expand_conj] at inserted
      exact rearranged_leads inserted (Chain.widen_wellTyped _ i _)
  | lifted f a b =>
      obtain ⟨_, clear⟩ := formed
      have ends : a.expand.alphaEq f.source ∧ b.expand.alphaEq f.target := by
        simpa [fault?, liftedFault?_eq_none] using clear
      exact ⟨f, rfl, alphaEq_symm ends.1, alphaEq_symm ends.2⟩

end Arrow

/-- Whatever was expanded before, a well-formed arrow has an expansion, and it leads between the
expansions of the endpoints. -/
theorem Memo.arrow_total (a : Arrow) (formed : a.WellFormed) {m m' : Memo} (reached : Reached m)
    (reached' : Reached m') :
    ∃ t, (Memo.arrow a m).1 = .ok t ∧ t.source.alphaEq (Memo.formula a.source m').1 ∧
      t.target.alphaEq (Memo.formula a.target m').1 := by
  obtain ⟨t, expanded, ends⟩ := a.expand_leads formed
  have arrow := (computes_arrow a m reached.sound).1
  have source := (computes_formula a.source m' reached'.sound).1
  have target := (computes_formula a.target m' reached'.sound).1
  rw [arrow, source, target]
  exact ⟨t, expanded, ends.source, ends.target⟩

/-- The last of three elements moves to the front, the others are collected, and the bound
variable of the moved one gets another name. -/
theorem renamed_element_expands :
    let p : Formula := .holds ⟨3⟩ ⟨4⟩
    let q : Formula := .hidden "Q" (.identical ⟨3⟩ ⟨4⟩)
    let r (v : Var) : Formula := .quant .all [v] (.holds v ⟨1⟩)
    let renamed := Arrow.lifted (.identity (.quant .all ⟨0⟩ (.holds ⟨0⟩ ⟨1⟩))) (r ⟨0⟩) (r ⟨2⟩)
    let a := Arrow.composite (.shift .and [p, q, r ⟨0⟩] 2 0)
      (.composite (.group .and [r ⟨0⟩, p, q] 1 3)
        (.onElement .and [r ⟨0⟩, .conj .and [p, q]] 0 renamed))
    let m := (Memo.formula (r ⟨2⟩) []).2
    a.target = .conj .and [r ⟨2⟩, .conj .and [p, q]] ∧
      ∃ t, (Memo.arrow a []).1 = .ok t ∧ t.source.alphaEq (Memo.formula a.source m).1 ∧
        t.target.alphaEq (Memo.formula a.target m).1 := by
  intro p q r renamed a m
  have formed : a.WellFormed := by
    refine ⟨rfl, ⟨rfl, ⟨⟨trivial, ?_⟩, ?_⟩, ?_⟩, ?_⟩ <;> decide
  have reached : Memo.Reached m := .formula (r ⟨2⟩) .empty
  exact ⟨rfl, Memo.arrow_total a formed .empty reached⟩

end LinearCalculus.Surface
