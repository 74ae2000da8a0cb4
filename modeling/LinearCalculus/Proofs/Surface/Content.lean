import LinearCalculus.Proofs.Arrow.Content
import LinearCalculus.Proofs.Surface.Undoing

namespace LinearCalculus

open Formula (chain)
open Arrow

@[simp] theorem Context.logicalNodes_mapArrow (c : Context) (f : Arrow) :
    (c.mapArrow f).logicalNodes = f.logicalNodes := by
  induction c generalizing f with
  | hole => rfl
  | layer l => exact logicalNodes_layer l f
  | comp inner outer first second => rw [mapArrow, second, first]

namespace Chain

theorem swap_structural (k : Connective) (ws : List Formula) (p : Nat) (f : Arrow)
    (result : swap k ws p = .ok f) : f.logicalNodes = [] := by
  rcases swap_cases k ws p with ⟨before, a, b, after, rfl, rfl⟩ | ⟨_, plain⟩
  · rw [swap_split] at result
    cases result
    exact Context.logicalNodes_mapArrow _ _
  · cases plain.symm.trans result
    rfl

theorem shift_structural (k : Connective) (ws : List Formula) (start stop : Nat) (f : Arrow)
    (result : shift k ws start stop = .ok f) : f.logicalNodes = [] := by
  refine swapAll_keeps (P := fun f => f.logicalNodes = []) k (swap_structural k) ?_
    (swaps start stop) ws _ f rfl result
  intro f g h composed left right
  rcases compose_eq_ok_iff.mp composed with ⟨_, rfl⟩
  rw [logicalNodes_composite, left, right]
  rfl

theorem nest_structural (k : Connective) (rest : Formula) (gs : List Formula) (f : Arrow)
    (result : nest k rest gs = .ok f) : f.logicalNodes = [] := by
  induction gs generalizing f with
  | nil =>
      rcases compose_eq_ok_iff.mp result with ⟨_, rfl⟩
      rfl
  | cons g gs ih =>
      rcases bind_eq_ok.mp result with ⟨inner, nested, composed⟩
      rcases compose_eq_ok_iff.mp composed with ⟨_, rfl⟩
      have inside : (onRight k g inner).logicalNodes = inner.logicalNodes :=
        logicalNodes_layer (.conj k .right g) inner
      rw [logicalNodes_composite, inside, ih inner nested]
      rfl

theorem group_structural (k : Connective) (ws : List Formula) (start stop : Nat) (f : Arrow)
    (result : group k ws start stop = .ok f) : f.logicalNodes = [] := by
  rcases bind_eq_ok.mp result with ⟨nested, inside, result⟩
  cases result
  rw [Context.logicalNodes_mapArrow, nest_structural k _ _ nested inside]

def dropRule (ws : List Formula) (i : Nat) : Primitive :=
  .forget (.unit true) (ws[i]?.getD (.unit true))

def insertRule (ws : List Formula) (i : Nat) (x : Formula) : Primitive :=
  .widen (chain .or (ws.drop i)) x

theorem forget_logicalNodes (ws : List Formula) (i : Nat) (f : Arrow)
    (result : forget ws i = .ok f) : f.logicalNodes = [prim (dropRule ws i)] := by
  rcases bind_eq_ok.mp result with ⟨shifted, moved, result⟩
  rcases bind_eq_ok.mp result with ⟨drop, dropped, composed⟩
  rcases compose_eq_ok_iff.mp dropped with ⟨_, rfl⟩
  rcases compose_eq_ok_iff.mp composed with ⟨_, rfl⟩
  rw [logicalNodes_composite, shift_structural .and ws i _ shifted moved,
    Context.logicalNodes_mapArrow]
  rfl

theorem widen_logicalNodes (ws : List Formula) (i : Nat) (x : Formula) (f : Arrow)
    (result : widen ws i x = .ok f) : f.logicalNodes = [prim (insertRule ws i x)] := by
  rcases bind_eq_ok.mp result with ⟨insert, inserted, result⟩
  rcases compose_eq_ok_iff.mp inserted with ⟨_, rfl⟩
  cases result
  rw [Context.logicalNodes_mapArrow]
  rfl

end Chain

namespace Surface

namespace Arrow

def nodes : Arrow → List Arrow
  | composite f g => composite f g :: (f.nodes ++ g.nodes)
  | onElement k values i f => onElement k values i f :: f.nodes
  | onNot f => onNot f :: f.nodes
  | onAlways f => onAlways f :: f.nodes
  | onBody q vars f => onBody q vars f :: f.nodes
  | f => [f]

/-- The logical nodes that a step stands for: one where an element is dropped or inserted, those
of an arrow of the calculus where one is taken over, and none elsewhere. -/
def contribution : Arrow → List LinearCalculus.Arrow
  | forget values i => [prim (Chain.dropRule (values.map Formula.expand) i)]
  | widen values i x => [prim (Chain.insertRule (values.map Formula.expand) i x.expand)]
  | lifted f _ _ => f.logicalNodes
  | _ => []

theorem rearranged_structural {x : Except ShapeError LinearCalculus.Arrow}
    {g : LinearCalculus.Arrow} (structural : ∀ f, x = .ok f → f.logicalNodes = [])
    (result : rearranged x = .ok g) : g.logicalNodes = [] := by
  rcases rearranged_eq_ok result with ⟨f, known, rfl⟩
  exact logicalNodes_compress_nil (structural f known)

theorem rearranged_singleton {x : Except ShapeError LinearCalculus.Arrow}
    {g : LinearCalculus.Arrow} {p : Primitive} (lossy : p.isInvertible = false)
    (typed : ∀ f, x = .ok f → f.WellTyped) (single : ∀ f, x = .ok f → f.logicalNodes = [prim p])
    (result : rearranged x = .ok g) : g.logicalNodes = [prim p] := by
  rcases rearranged_eq_ok result with ⟨f, known, rfl⟩
  exact logicalNodes_compress_singleton (typed f known) lossy (single f known)

theorem expandUngroup_structural (k : Connective) (ws : List LinearCalculus.Formula) (i count : Nat)
    (g : LinearCalculus.Arrow) (result : expandUngroup k ws i count = .ok g) :
    g.logicalNodes = [] := by
  rcases bind_eq_ok.mp result with ⟨f, grouped, result⟩
  rcases bind_eq_ok.mp result with ⟨r, reversed, result⟩
  cases result
  have structural := Chain.group_structural k ws i _ f (mapError_eq_ok.mp grouped)
  have inverse := inverse_of_reverse f r (mapError_eq_ok.mp reversed)
  exact logicalNodes_compress_nil (inverse.logicalNodes_nil structural)

theorem foldr_onBody_logicalNodes (q : Quantifier) (vars : List Var) (f : LinearCalculus.Arrow) :
    (vars.foldr (LinearCalculus.Arrow.onBody q) f).logicalNodes = f.logicalNodes := by
  induction vars with
  | nil => rfl
  | cons v vars ih => exact (logicalNodes_layer (.quant q v) _).trans ih

theorem expand_logicalNodes (a : Arrow) (t : LinearCalculus.Arrow) (expanded : a.expand = .ok t) :
    t.logicalNodes = a.nodes.flatMap contribution := by
  induction a generalizing t with
  | identity a | hide name a | reveal name a | unfold a b | fold a b =>
      cases expanded
      rfl
  | composite f g first second =>
      rcases bind_eq_ok.mp expanded with ⟨f', left, expanded⟩
      rcases bind_eq_ok.mp expanded with ⟨g', right, composed⟩
      rcases compose_eq_ok_iff.mp (mapError_eq_ok.mp composed) with ⟨_, rfl⟩
      rw [logicalNodes_composite, first f' left, second g' right, ← List.flatMap_append]
      rfl
  | onElement k values i f ih =>
      rcases bind_eq_ok.mp expanded with ⟨f', inside, result⟩
      cases result
      exact (Context.logicalNodes_mapArrow _ f').trans (ih f' inside)
  | onNot f ih =>
      rcases bind_eq_ok.mp expanded with ⟨f', inside, result⟩
      cases result
      exact (logicalNodes_layer .not f').trans (ih f' inside)
  | onAlways f ih =>
      rcases bind_eq_ok.mp expanded with ⟨f', inside, result⟩
      cases result
      exact (logicalNodes_layer .always f').trans (ih f' inside)
  | onBody q vars f ih =>
      rcases bind_eq_ok.mp expanded with ⟨f', inside, result⟩
      cases result
      exact (foldr_onBody_logicalNodes q vars f').trans (ih f' inside)
  | shift k values start stop =>
      exact rearranged_structural (Chain.shift_structural k _ start stop) expanded
  | group k values start stop =>
      exact rearranged_structural (Chain.group_structural k _ start stop) expanded
  | ungroup k values i =>
      unfold expand at expanded
      split at expanded
      · exact expandUngroup_structural k _ i _ t expanded
      · cases expanded
  | forget values i =>
      exact rearranged_singleton rfl (Chain.forget_wellTyped _ i) (Chain.forget_logicalNodes _ i)
        expanded
  | widen values i x =>
      exact rearranged_singleton rfl (Chain.widen_wellTyped _ i _) (Chain.widen_logicalNodes _ i _)
        expanded
  | lifted f a b =>
      cases expanded
      exact (List.append_nil _).symm

theorem mem_liftedArrows {a : Arrow} {f : LinearCalculus.Arrow} :
    f ∈ a.liftedArrows ↔ ∃ s t, lifted f s t ∈ a.nodes := by
  induction a with
  | composite g h first second =>
      simp only [liftedArrows, nodes, List.mem_append, List.mem_cons, first, second, reduceCtorEq,
        false_or, exists_or]
  | onElement k values i g ih | onNot g ih | onAlways g ih | onBody q vars g ih =>
      simp only [liftedArrows, nodes, List.mem_cons, ih, reduceCtorEq, false_or]
  | _ => simp [liftedArrows, nodes]

theorem contribution_invertible (b : Arrow) :
    (∀ g ∈ b.contribution, g.isInvertible) ↔
      b.step ≠ .forget ∧ b.step ≠ .widen ∧ ∀ f s t, b = lifted f s t → f.isInvertible := by
  cases b with
  | lifted f s t =>
      rw [contribution, ← isInvertible_iff_logicalNodes]
      simp [step]
  | forget values i | widen values i x =>
      simp [contribution, Chain.dropRule, Chain.insertRule, isInvertible, Primitive.isInvertible,
        step]
  | _ => simp [contribution, step]

theorem expand_isInvertible (a : Arrow) (t : LinearCalculus.Arrow) (expanded : a.expand = .ok t) :
    t.isInvertible ↔ (∀ b ∈ a.nodes, b.step ≠ .forget ∧ b.step ≠ .widen) ∧
      ∀ f ∈ a.liftedArrows, f.isInvertible := by
  have all : t.isInvertible ↔ ∀ b ∈ a.nodes, ∀ g ∈ b.contribution, g.isInvertible := by
    rw [isInvertible_iff_logicalNodes, expand_logicalNodes a t expanded]
    constructor
    · intro every b here g there
      exact every g (List.mem_flatMap.mpr ⟨b, here, there⟩)
    · intro every g member
      rcases List.mem_flatMap.mp member with ⟨b, here, there⟩
      exact every b here g there
  simp only [all, contribution_invertible, mem_liftedArrows]
  constructor
  · intro steps
    refine ⟨fun b member => ⟨(steps b member).1, (steps b member).2.1⟩, ?_⟩
    rintro f ⟨s, t, member⟩
    exact (steps _ member).2.2 f s t rfl
  · rintro ⟨none, inside⟩ b member
    refine ⟨(none b member).1, (none b member).2, ?_⟩
    rintro f s t rfl
    exact inside f ⟨s, t, member⟩

end Arrow

/-- Expansion adds no logical content: the rules of an expansion that are neither structural nor
functorial nor composites are one for each step that drops or inserts an element, and those of the
arrows of the calculus taken over. So it has an inverse if no step drops or inserts and these
arrows have one. -/
theorem expansion_adds_no_content (a : Arrow) (formed : a.WellFormed) {m : Memo}
    (reached : Memo.Reached m) :
    ∃ t, (Memo.arrow a m).1 = .ok t ∧ t.logicalNodes = a.nodes.flatMap Arrow.contribution ∧
      (t.isInvertible ↔ (∀ b ∈ a.nodes, b.step ≠ .forget ∧ b.step ≠ .widen) ∧
        ∀ f ∈ a.liftedArrows, f.isInvertible) := by
  rcases a.expand_leads formed with ⟨t, expanded, _⟩
  have result := (Memo.computes_arrow a m reached.sound).1
  exact ⟨t, result.trans expanded, a.expand_logicalNodes t expanded,
    a.expand_isInvertible t expanded⟩

/-- The first element is moved to the end and dropped, and what was the second gets a double
negation, whose rule has an inverse. -/
theorem expansion_adds_no_content_behind_drop :
    let p : Formula := .holds ⟨0⟩ ⟨1⟩
    let q : Formula := .hidden "Q" (.identical ⟨0⟩ ⟨1⟩)
    let denied := Arrow.lifted (prim (.introDoubleDual p.expand)) p (.not (.not p))
    let a := Arrow.composite (.forget [q, p] 0) (.onElement .and [p] 0 denied)
    let m := (Memo.formula p []).2
    (∃ t, (Memo.arrow a m).1 = .ok t ∧ t.isInvertible = false ∧
        t.logicalNodes =
          [prim (.forget (.unit true) (.identical ⟨0⟩ ⟨1⟩)), prim (.introDoubleDual p.expand)]) ∧
      ∃ t, (Memo.arrow denied m).1 = .ok t ∧ t.isInvertible := by
  intro p q denied a m
  have inside : denied.WellFormed := ⟨rfl, by decide⟩
  have formed : a.WellFormed := ⟨rfl, ⟨inside, by decide⟩, by decide⟩
  have reached : Memo.Reached m := .formula p .empty
  obtain ⟨t, result, content, invertible⟩ := expansion_adds_no_content a formed reached
  obtain ⟨t', result', _, invertible'⟩ := expansion_adds_no_content denied inside reached
  refine ⟨⟨t, result, ?_, content⟩, t', result', invertible'.mpr (by decide)⟩
  rw [Bool.eq_false_iff, Ne, invertible]
  decide

end Surface

end LinearCalculus
