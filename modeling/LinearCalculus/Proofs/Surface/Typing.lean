import LinearCalculus.Proofs.Arrow.Compression
import LinearCalculus.Proofs.Context.Typing
import LinearCalculus.Surface.Memo

namespace LinearCalculus

open Arrow

namespace Chain

theorem swapFirst_wellTyped (k : Connective) (a b rest : Formula) (f : Arrow)
    (result : swapFirst k a b rest = .ok f) : f.WellTyped :=
  wellTyped_of_chain result (by simp [WellTyped, Primitive.fault?])

theorem swap_wellTyped (k : Connective) (ws : List Formula) (p : Nat) (f : Arrow)
    (result : swap k ws p = .ok f) : f.WellTyped := by
  unfold swap at result
  split at result
  · obtain ⟨exchanged, first, result⟩ := bind_eq_ok.mp result
    cases result
    exact (Context.mapArrow_wellTyped _ exchanged).mpr (swapFirst_wellTyped k _ _ _ exchanged first)
  · cases result
    trivial

theorem swapAll_keeps {P : Arrow → Prop} (k : Connective)
    (step : ∀ ws p next, swap k ws p = .ok next → P next)
    (joined : ∀ f g h, f.compose g = .ok h → P f → P g → P h) (ps : List Nat) (ws : List Formula)
    (f g : Arrow) (start : P f) (result : swapAll k ps ws f = .ok g) : P g := by
  induction ps generalizing ws f with
  | nil =>
      cases result
      exact start
  | cons p ps ih =>
      obtain ⟨next, exchanged, result⟩ := bind_eq_ok.mp result
      obtain ⟨longer, composed, result⟩ := bind_eq_ok.mp result
      have extended := joined f next longer composed start (step ws p next exchanged)
      exact ih (swapped ws p) longer extended result

theorem shift_wellTyped (k : Connective) (ws : List Formula) (start stop : Nat) (f : Arrow)
    (result : shift k ws start stop = .ok f) : f.WellTyped :=
  swapAll_keeps k (swap_wellTyped k) (fun _ _ _ composed => wellTyped_of_compose composed)
    (swaps start stop) ws (.identity (Formula.chain k ws)) f trivial result

theorem nest_wellTyped (k : Connective) (rest : Formula) (gs : List Formula) (f : Arrow)
    (result : nest k rest gs = .ok f) : f.WellTyped := by
  induction gs generalizing f with
  | nil => exact wellTyped_of_compose result rfl rfl
  | cons g gs ih =>
      obtain ⟨inner, nested, result⟩ := bind_eq_ok.mp result
      exact wellTyped_of_compose result (ih inner nested) rfl

theorem group_wellTyped (k : Connective) (ws : List Formula) (start stop : Nat) (f : Arrow)
    (result : group k ws start stop = .ok f) : f.WellTyped := by
  obtain ⟨nested, inside, result⟩ := bind_eq_ok.mp result
  cases result
  exact (Context.mapArrow_wellTyped _ nested).mpr (nest_wellTyped k _ _ nested inside)

theorem forget_wellTyped (ws : List Formula) (i : Nat) (f : Arrow) (result : forget ws i = .ok f) :
    f.WellTyped := by
  obtain ⟨shifted, moved, result⟩ := bind_eq_ok.mp result
  obtain ⟨drop, dropped, result⟩ := bind_eq_ok.mp result
  have dropTyped := wellTyped_of_compose dropped rfl rfl
  exact wellTyped_of_compose result (shift_wellTyped _ ws i _ shifted moved)
    ((Context.mapArrow_wellTyped _ drop).mpr dropTyped)

theorem widen_wellTyped (ws : List Formula) (i : Nat) (x : Formula) (f : Arrow)
    (result : widen ws i x = .ok f) : f.WellTyped := by
  obtain ⟨insert, inserted, result⟩ := bind_eq_ok.mp result
  cases result
  exact (Context.mapArrow_wellTyped _ insert).mpr (wellTyped_of_compose inserted rfl rfl)

end Chain

namespace Surface.Arrow

def liftedArrows : Surface.Arrow → List LinearCalculus.Arrow
  | composite f g => f.liftedArrows ++ g.liftedArrows
  | onElement _ _ _ f | onNot f | onAlways f | onBody _ _ f => f.liftedArrows
  | lifted f _ _ => [f]
  | _ => []

theorem rearranged_eq_ok {x : Except ShapeError LinearCalculus.Arrow} {g : LinearCalculus.Arrow}
    (result : rearranged x = .ok g) : ∃ f, x = .ok f ∧ g = f.compress := by
  cases x with
  | error e => cases result
  | ok f =>
      cases result
      exact ⟨f, rfl, rfl⟩

theorem rearranged_wellTyped (x : Except ShapeError LinearCalculus.Arrow) (g : LinearCalculus.Arrow)
    (typed : ∀ f, x = .ok f → f.WellTyped) (result : rearranged x = .ok g) : g.WellTyped := by
  obtain ⟨f, known, rfl⟩ := rearranged_eq_ok result
  exact f.compress_wellTyped (typed f known)

theorem expandUngroup_wellTyped (k : Connective) (ws : List LinearCalculus.Formula) (i count : Nat)
    (g : LinearCalculus.Arrow) (result : expandUngroup k ws i count = .ok g) : g.WellTyped := by
  obtain ⟨f, grouped, result⟩ := bind_eq_ok.mp result
  obtain ⟨r, reversed, result⟩ := bind_eq_ok.mp result
  cases result
  have groupTyped := Chain.group_wellTyped k ws i _ f (mapError_eq_ok.mp grouped)
  exact r.compress_wellTyped (f.reverse_wellTyped r groupTyped (mapError_eq_ok.mp reversed))

theorem foldr_onBody_wellTyped (q : Quantifier) (vars : List Var) (f : LinearCalculus.Arrow)
    (typed : f.WellTyped) : (vars.foldr (LinearCalculus.Arrow.onBody q) f).WellTyped := by
  induction vars with
  | nil => exact typed
  | cons v vars ih => exact ih

end Surface.Arrow

namespace Surface.Memo

open Surface.Arrow (liftedArrows)

theorem gives_arrow (f : Surface.Arrow) (inside : ∀ h ∈ f.liftedArrows, h.WellTyped) (m : Memo) :
    Gives (arrow f) m (fun g _ => g.WellTyped) := by
  induction f generalizing m with
  | identity a | hide name a | reveal name a | unfold a b | fold a b =>
      exact gives_after (fun _ _ => gives_pure trivial)
  | composite f h left right =>
      simp only [liftedArrows, List.mem_append] at inside
      refine gives_bind (left (fun k member => inside k (.inl member)) m) ?_
      intro f' m₁ first
      refine gives_bind (right (fun k member => inside k (.inr member)) m₁) ?_
      intro h' m₂ second
      apply gives_except
      intro g result
      exact wellTyped_of_compose (mapError_eq_ok.mp result) first second
  | onElement k values i f ih =>
      refine gives_after (fun ws m₁ => gives_bind (ih inside m₁) ?_)
      intro f' _ typed
      exact gives_pure ((Context.mapArrow_wellTyped _ f').mpr typed)
  | onNot f ih | onAlways f ih =>
      refine gives_bind (ih inside m) ?_
      intro f' _ typed
      exact gives_pure typed
  | onBody q vars f ih =>
      refine gives_bind (ih inside m) ?_
      intro f' _ typed
      exact gives_pure (Surface.Arrow.foldr_onBody_wellTyped q vars f' typed)
  | shift k values start stop =>
      refine gives_after (fun ws _ => gives_except ?_)
      exact fun g => Surface.Arrow.rearranged_wellTyped _ g (Chain.shift_wellTyped k ws start stop)
  | group k values start stop =>
      refine gives_after (fun ws _ => gives_except ?_)
      exact fun g => Surface.Arrow.rearranged_wellTyped _ g (Chain.group_wellTyped k ws start stop)
  | ungroup k values i =>
      unfold arrow
      split
      · refine gives_after (fun before _ => gives_after (fun within _ => gives_after (fun after _ => ?_)))
        exact gives_except (Surface.Arrow.expandUngroup_wellTyped k _ i _)
      · exact gives_throw _ _ _
  | forget values i =>
      refine gives_after (fun ws _ => gives_except ?_)
      exact fun g => Surface.Arrow.rearranged_wellTyped _ g (Chain.forget_wellTyped ws i)
  | widen values i x =>
      refine gives_after (fun ws _ => gives_after (fun y _ => gives_except ?_))
      exact fun g => Surface.Arrow.rearranged_wellTyped _ g (Chain.widen_wellTyped ws i y)
  | lifted f a b => exact gives_pure (inside f List.mem_cons_self)

end Surface.Memo

end LinearCalculus
