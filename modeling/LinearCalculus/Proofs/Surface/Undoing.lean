import LinearCalculus.Proofs.Context.Cancellation
import LinearCalculus.Proofs.Surface.Endpoints

/-! Rearrangements that undo each other.

An exchange of neighbours is undone by the same exchange. A move is a run of exchanges, and the
move back is the run from its other end, so by the laws of arrows one is the inverse of the
other; a group is split again by its inverse. The laws do not see that both halves have been
compressed before they meet. -/

namespace LinearCalculus

open Formula (chain alphaEq_refl)
open Arrow

namespace Chain

theorem swapFirst_eq (k : Connective) (a b rest : Formula) :
    swapFirst k a b rest = .ok (exchanged k a b rest) := by
  have first : (prim (.associateB k a b rest)).compose
      (onLeft k (prim (.commute k a b)) rest) = .ok _ :=
    compose_eq_ok_iff.mpr ⟨alphaEq_refl _, rfl⟩
  have second : Arrow.compose _ (prim (.associateA k b a rest)) = .ok (exchanged k a b rest) :=
    compose_eq_ok_iff.mpr ⟨alphaEq_refl _, rfl⟩
  exact bind_eq_ok.mpr ⟨_, first, bind_eq_ok.mpr ⟨_, second, rfl⟩⟩

theorem swap_split (k : Connective) (before after : List Formula) (a b : Formula) :
    swap k (before ++ a :: b :: after) before.length =
      .ok ((position k before).mapArrow (exchanged k a b (chain k after))) := by
  simp only [swap, List.drop_left, List.take_left, swapFirst_eq]
  rfl

theorem swap_cases (k : Connective) (ws : List Formula) (p : Nat) :
    (∃ before a b after, ws = before ++ a :: b :: after ∧ before.length = p) ∨
      swapped ws p = ws ∧ swap k ws p = .ok (identity (chain k ws)) := by
  rcases known : ws.drop p with _ | ⟨a, _ | ⟨b, after⟩⟩
  · simp [swapped, swap, known]
  · simp [swapped, swap, known]
  · left
    refine ⟨ws.take p, a, b, after, ?_, ?_⟩
    · rw [← known, List.take_append_drop]
    · have count := congrArg List.length known
      simp only [List.length_drop, List.length_cons] at count
      rw [List.length_take]
      omega

theorem swap_undone (k : Connective) (ws : List Formula) (p : Nat) :
    ∃ f g, swap k ws p = .ok f ∧ swap k (swapped ws p) p = .ok g ∧ UndoneBy f g := by
  rcases swap_cases k ws p with ⟨before, a, b, after, rfl, rfl⟩ | ⟨same, plain⟩
  · rw [swapped_split, swap_split, swap_split]
    refine ⟨_, _, rfl, rfl, UndoneBy.context _ (UndoneBy.exchanged k ?_)⟩
    exact swapFirst_wellTyped k a b (chain k after) _ (swapFirst_eq k a b _)
  · rw [same, plain]
    exact ⟨_, _, rfl, rfl, .of_inverse (.refl _) trivial⟩

theorem swapped_swapped (ws : List Formula) (p : Nat) : swapped (swapped ws p) p = ws := by
  rcases swap_cases .and ws p with ⟨before, a, b, after, rfl, rfl⟩ | ⟨same, _⟩
  · rw [swapped_split, swapped_split]
  · rw [same, same]

theorem foldl_swapped_reverse (ps : List Nat) (ws : List Formula) :
    ps.reverse.foldl swapped (ps.foldl swapped ws) = ws := by
  induction ps generalizing ws with
  | nil => rfl
  | cons p ps ih =>
      rw [List.foldl_cons, List.reverse_cons, List.foldl_append, ih]
      exact swapped_swapped ws p

theorem swapAll_append (k : Connective) (ps qs : List Nat) (ws : List Formula) {f g : Arrow}
    (front : swapAll k ps ws f = .ok g) :
    swapAll k (ps ++ qs) ws f = swapAll k qs (ps.foldl swapped ws) g := by
  induction ps generalizing ws f with
  | nil =>
      cases front
      rfl
  | cons p ps ih =>
      rcases bind_eq_ok.mp front with ⟨next, exchanged, front⟩
      rcases bind_eq_ok.mp front with ⟨longer, composed, front⟩
      rw [List.cons_append, swapAll, exchanged]
      exact (congrArg (· >>= _) composed).trans (ih (swapped ws p) front)

theorem swapAll_congruent (k : Connective) (ps : List Nat) (ws : List Formula) {b e f g h : Arrow}
    (same : Congruent f (composite b e)) (whole : swapAll k ps ws f = .ok g)
    (part : swapAll k ps ws e = .ok h) : Congruent g (composite b h) := by
  induction ps generalizing ws e f with
  | nil =>
      cases whole
      cases part
      exact same
  | cons p ps ih =>
      rcases bind_eq_ok.mp whole with ⟨next, exchanged, whole⟩
      rcases bind_eq_ok.mp whole with ⟨_, composed, whole⟩
      rcases compose_eq_ok_iff.mp composed with ⟨fits, rfl⟩
      rcases bind_eq_ok.mp part with ⟨next', exchanged', part⟩
      rcases bind_eq_ok.mp part with ⟨_, composed', part⟩
      rcases compose_eq_ok_iff.mp composed' with ⟨_, rfl⟩
      cases exchanged.symm.trans exchanged'
      have extended : Congruent (composite f next) (composite (composite b e) next) :=
        same.comp (.refl (swap_wellTyped k ws p next exchanged)) fits
      exact ih (swapped ws p) (extended.trans (.assoc extended.wellTyped)) whole part

/-- A run of exchanges is undone by the run from its other end: the last exchange is undone
first. -/
theorem swapAll_undone (k : Connective) (ps : List Nat) (ws : List Formula) (f : Arrow)
    (done : swapAll k ps ws (identity (chain k ws)) = .ok f) :
    ∃ g, swapAll k ps.reverse (ps.foldl swapped ws) (identity (chain k (ps.foldl swapped ws))) =
      .ok g ∧ UndoneBy f g := by
  induction ps generalizing ws f with
  | nil =>
      cases done
      exact ⟨_, rfl, .of_inverse (.refl _) trivial⟩
  | cons p ps ih =>
      rcases swap_undone k ws p with ⟨next, back, exchanged, exchanged', undone⟩
      rcases swap_leads k ws p with ⟨_, known, leads⟩
      cases exchanged.symm.trans known
      rcases swapAll_leads k ps (swapped ws p) (identity (chain k (swapped ws p))) _
        (.of_eq rfl rfl) with ⟨rest, run, _⟩
      rcases ih (swapped ws p) rest run with ⟨restBack, run', undone'⟩
      have typed := swap_wellTyped k ws p next exchanged
      have split : Congruent f (composite next rest) := by
        rcases bind_eq_ok.mp done with ⟨_, again, done⟩
        cases exchanged.symm.trans again
        rcases bind_eq_ok.mp done with ⟨_, composed, done⟩
        rcases compose_eq_ok_iff.mp composed with ⟨fits, rfl⟩
        refine swapAll_congruent k ps (swapped ws p) ?_ done run
        calc
          Congruent (composite (identity (chain k ws)) next) next :=
            .identity_first (composite_wellTyped.mpr ⟨trivial, typed, fits⟩)
          Congruent _ (composite next (identity (chain k (swapped ws p)))) :=
            .symm (.identity_last (composite_wellTyped.mpr ⟨typed, trivial, leads.target⟩))
      have both : UndoneBy (composite next rest) (composite restBack back) :=
        undone.comp undone' split.wellTyped
      have fits := (composite_wellTyped.mp both.wellTyped).2.2
      refine ⟨composite restBack back, ?_, both.congruent_both split.symm (.refl both.wellTyped)⟩
      rw [List.reverse_cons, List.foldl_cons, swapAll_append k ps.reverse [p] _ run',
        foldl_swapped_reverse]
      exact bind_eq_ok.mpr ⟨back, exchanged', bind_eq_ok.mpr
        ⟨_, compose_eq_ok_iff.mpr ⟨fits, rfl⟩, rfl⟩⟩

theorem swaps_reverse (start stop : Nat) : (swaps start stop).reverse = swaps stop start := by
  rcases Nat.lt_trichotomy start stop with less | rfl | less
  · rw [swaps, swaps, if_pos (Nat.le_of_lt less), if_neg (Nat.not_le_of_lt less)]
  · simp [swaps]
  · rw [swaps, swaps, if_neg (Nat.not_le_of_lt less), if_pos (Nat.le_of_lt less),
      List.reverse_reverse]

theorem shift_undone (k : Connective) (ws : List Formula) (start stop : Nat)
    (first : start < ws.length) (second : stop < ws.length) :
    ∃ f g, shift k ws start stop = .ok f ∧
      shift k (Surface.moved ws start stop) stop start = .ok g ∧ UndoneBy f g := by
  rcases shift_leads k ws start stop first second with ⟨f, shifted, _⟩
  rcases swapAll_undone k (swaps start stop) ws f shifted with ⟨g, back, undone⟩
  rw [swaps_reverse, swaps_moved ws start stop first second] at back
  exact ⟨f, g, shifted, back, undone⟩

theorem group_undone (k : Connective) (ws : List Formula) (start stop : Nat)
    (ordered : start ≤ stop) :
    ∃ f r, group k ws start stop = .ok f ∧ f.reverse = .ok r ∧ UndoneBy f r := by
  rcases group_leads k ws start stop ordered with ⟨f, grouped, _⟩
  rcases group_invertible k ws start stop f grouped with ⟨r, reversed⟩
  exact ⟨f, r, grouped, reversed, .of_inverse (inverse_of_reverse f r reversed)
    (group_wellTyped k ws start stop f grouped)⟩

end Chain

namespace Surface

section Groups

variable (k : Connective) (values : List Formula) {start stop : Nat}

theorem getElem?_grouped (within : start ≤ values.length) :
    (grouped k values start stop)[start]? = some (.conj k (segment values start stop)) := by
  have count : (values.take start).length = start := List.length_take_of_le within
  rw [grouped, List.getElem?_append_right (Nat.le_of_eq count), count, Nat.sub_self]
  rfl

theorem nested?_grouped (within : start ≤ values.length) :
    nested? k (grouped k values start stop) start = some (segment values start stop) := by
  rw [nested?, getElem?_grouped k values within]
  exact if_pos rfl

theorem spliced_grouped (ordered : start ≤ stop) (within : start ≤ values.length) :
    spliced (grouped k values start stop) start (segment values start stop) = values := by
  have count : (values.take start).length = start := List.length_take_of_le within
  have before : (grouped k values start stop).take start = values.take start :=
    List.take_left' count
  have after : (grouped k values start stop).drop (start + 1) = values.drop stop := by
    rw [grouped, ← List.drop_drop, List.drop_left' count]
    rfl
  rw [spliced, before, after, List.append_assoc, segments_append values start stop ordered]

end Groups

/-- The second arrow can follow the first one, and whatever has been expanded before, both
together expand to the composite of what each expands to. By the laws of arrows it is the identity
of where they start, and it compresses to it. -/
def Cancels (m : Memo) (f g : Arrow) : Prop :=
  (Arrow.composite f g).WellFormed ∧
    ∃ f' g' t a, (Memo.arrow f m).1 = .ok f' ∧ (Memo.arrow g m).1 = .ok g' ∧
      f'.compose g' = .ok t ∧ (Memo.arrow (.composite f g) m).1 = .ok t ∧
      Congruent t (.identity a) ∧ t.compress = .identity a ∧ a.alphaEq f.source.expand

theorem cancels_of_undone {m : Memo} (reached : Memo.Reached m) {f g : Arrow}
    {f' g' : LinearCalculus.Arrow} (formed : (Arrow.composite f g).WellFormed)
    (first : f.expand = .ok f') (second : g.expand = .ok g') (undone : UndoneBy f' g') :
    Cancels m f g := by
  rcases f.expand_leads formed.1 with ⟨_, known, leads⟩
  cases first.symm.trans known
  have gone := (undone.cancel undone.symm.wellTyped).1
  rcases gone.compose_identity leads.source with ⟨t, a, composed, law, plain, ends⟩
  have expanded : (Arrow.composite f g).expand = .ok t :=
    bind_eq_ok.mpr ⟨f', first, bind_eq_ok.mpr ⟨g', second, mapError_eq_ok.mpr composed⟩⟩
  have result (h : Arrow) := (Memo.computes_arrow h m reached.sound).1
  exact ⟨formed, f', g', t, a, (result f).trans first, (result g).trans second, composed,
    (result _).trans expanded, law, plain, ends⟩

theorem Arrow.expand_ungroup_grouped (k : Connective) (values : List Formula) {start stop : Nat}
    (ordered : start ≤ stop) (within : stop ≤ values.length) :
    (ungroup k (grouped k values start stop) start).expand = do
      let f ← (Chain.group k (values.map Formula.expand) start stop).mapError .shape
      let r ← f.reverse.mapError .notInvertible
      return r.compress := by
  have inside := Nat.le_trans ordered within
  rw [expand, nested?_grouped k values inside]
  simp only [spliced_grouped k values ordered inside, length_segment values start stop within]
  rw [expandUngroup, Nat.add_sub_cancel' ordered]

theorem shift_cancels {m : Memo} (reached : Memo.Reached m) (k : Connective)
    (values : List Formula) (start stop : Nat) (first : start < values.length)
    (second : stop < values.length) :
    Cancels m (.shift k values start stop) (.shift k (moved values start stop) stop start) := by
  have count := length_moved values start stop second
  have formed : (Arrow.composite (.shift k values start stop)
      (.shift k (moved values start stop) stop start)).WellFormed := by
    refine Arrow.composite_wellFormed.mpr ⟨?_, ?_, rfl⟩
    · exact Arrow.shift_wellFormed.mpr ⟨first, second⟩
    · exact Arrow.shift_wellFormed.mpr ⟨count ▸ second, count ▸ first⟩
  rcases Chain.shift_undone k (values.map Formula.expand) start stop (by simpa using first)
    (by simpa using second) with ⟨f, g, there, back, undone⟩
  refine cancels_of_undone reached formed ?_ ?_ undone.compress
  · rw [Arrow.expand, there]
    rfl
  · rw [Arrow.expand, map_moved, back]
    rfl

theorem group_cancels {m : Memo} (reached : Memo.Reached m) (k : Connective)
    (values : List Formula) (start stop : Nat) (ordered : start ≤ stop)
    (within : stop ≤ values.length) :
    Cancels m (.group k values start stop) (.ungroup k (grouped k values start stop) start) ∧
      Cancels m (.ungroup k (grouped k values start stop) start) (.group k values start stop) := by
  have inside := Nat.le_trans ordered within
  have forth : (Arrow.group k values start stop).WellFormed :=
    Arrow.group_wellFormed.mpr ⟨ordered, within⟩
  have back : (Arrow.ungroup k (grouped k values start stop) start).WellFormed :=
    (Arrow.ungroup_fault?_eq_none k _ start).mpr ⟨_, getElem?_grouped k values inside⟩
  have list : (Arrow.ungroup k (grouped k values start stop) start).target = .conj k values := by
    rw [Arrow.target, nested?_grouped k values inside, Option.getD_some,
      spliced_grouped k values ordered inside]
  rcases Chain.group_undone k (values.map Formula.expand) start stop ordered with
    ⟨f, r, collected, reversed, undone⟩
  have first : (Arrow.group k values start stop).expand = .ok f.compress := by
    rw [Arrow.expand, collected]
    rfl
  have second : (Arrow.ungroup k (grouped k values start stop) start).expand =
      .ok r.compress := by
    rw [Arrow.expand_ungroup_grouped k values ordered within]
    exact bind_eq_ok.mpr ⟨f, mapError_eq_ok.mpr collected, bind_eq_ok.mpr
      ⟨r, mapError_eq_ok.mpr reversed, rfl⟩⟩
  constructor
  · have formed := Arrow.composite_wellFormed.mpr ⟨forth, back, rfl⟩
    exact cancels_of_undone reached formed first second undone.compress
  · have formed := Arrow.composite_wellFormed.mpr ⟨back, forth, list⟩
    exact cancels_of_undone reached formed second first undone.compress.symm

/-- Rearrangements undo each other: to move an element there and back, to group and to split
again, to split and to group again expand to arrows that compress to an identity. -/
theorem rearrangements_cancel {m : Memo} (reached : Memo.Reached m) (k : Connective)
    (values : List Formula) :
    (∀ start stop, start < values.length → stop < values.length →
      Cancels m (.shift k values start stop) (.shift k (moved values start stop) stop start)) ∧
    ∀ start stop, start ≤ stop → stop ≤ values.length →
      Cancels m (.group k values start stop) (.ungroup k (grouped k values start stop) start) ∧
      Cancels m (.ungroup k (grouped k values start stop) start) (.group k values start stop) := by
  constructor
  · intro start stop first second
    exact shift_cancels reached k values start stop first second
  · intro start stop ordered within
    exact group_cancels reached k values start stop ordered within

/-- The first of three elements moves behind the others and back; the group of no elements at the
end is split and formed again. The list is known from before. -/
theorem rearrangements_cancel_at_ends :
    let p : Formula := .holds ⟨0⟩ ⟨1⟩
    let q : Formula := .quant .all [⟨2⟩] (.holds ⟨2⟩ ⟨1⟩)
    let r : Formula := .conj .or []
    let m := (Memo.formula (.conj .or [p, q, r]) []).2
    Memo.Reached m ∧ moved [p, q, r] 0 2 = [q, r, p] ∧
      Cancels m (.shift .or [p, q, r] 0 2) (.shift .or [q, r, p] 2 0) ∧
      grouped .or [p, q, r] 3 3 = [p, q, r, .conj .or []] ∧
      Cancels m (.ungroup .or [p, q, r, .conj .or []] 3) (.group .or [p, q, r] 3 3) := by
  intro p q r m
  have reached : Memo.Reached m := .formula (.conj .or [p, q, r]) .empty
  have there : moved [p, q, r] 0 2 = [q, r, p] := rfl
  have collected : grouped .or [p, q, r] 3 3 = [p, q, r, .conj .or []] := rfl
  obtain ⟨moves, groups⟩ := rearrangements_cancel reached .or [p, q, r]
  exact ⟨reached, there, there ▸ moves 0 2 (by decide) (by decide), collected,
    collected ▸ (groups 3 3 (by decide) (by decide)).2⟩

end Surface

end LinearCalculus
