import LinearCalculus.Proofs.Arrow.Acceptance
import LinearCalculus.Proofs.Formula.Truth

namespace LinearCalculus

universe u

variable {D : Type u} (held : D → D → Prop)

namespace Primitive

open Formula

theorem introExists_sound (body : Formula) (witness bound : Var) (rho : Var → D)
    (unused : witness = bound ∨ body.isFree bound = false)
    (replaceable : body.Replaceable witness bound) (holds : body.TrueIn held rho) :
    (quant .ex bound (body.replace witness bound)).TrueIn held rho := by
  refine ⟨rho witness, ?_⟩
  rw [trueIn_replace held body witness bound _ replaceable, Function.update_self]
  by_cases same : witness = bound
  · simpa [same] using holds
  · rw [Function.update_comm (Ne.symm same), Function.update_eq_self]
    exact (trueIn_update held body bound _ rho (unused.resolve_left same)).mpr holds

theorem removeForall_sound (body : Formula) (bound witness : Var) (rho : Var → D)
    (replaceable : body.Replaceable bound witness)
    (holds : (quant .all bound body).TrueIn held rho) : (body.replace bound witness).TrueIn held rho :=
  (trueIn_replace held body bound witness rho replaceable).mpr (holds (rho witness))

theorem replace_equal_sound (body : Formula) (old new : Var) (rho : Var → D)
    (replaceable : body.Replaceable old new) (equal : rho old = rho new)
    (holds : body.TrueIn held rho) : (body.replace old new).TrueIn held rho := by
  rw [trueIn_replace held body old new rho replaceable, ← equal, Function.update_eq_self]
  exact holds

theorem sound (p : Primitive) (clear : p.fault? = none) (rho : Var → D)
    (holds : p.source.TrueIn held rho) : p.target.TrueIn held rho := by
  cases p with
  | commute k a b =>
      cases k with
      | and => exact ⟨holds.2, holds.1⟩
      | or => exact holds.symm
  | associateA k a b c =>
      cases k with
      | and => exact ⟨holds.1.1, holds.1.2, holds.2⟩
      | or => exact or_assoc.mp holds
  | associateB k a b c =>
      cases k with
      | and => exact ⟨⟨holds.1, holds.2.1⟩, holds.2.2⟩
      | or => exact or_assoc.mpr holds
  | introUnit k a =>
      cases k with
      | and => exact ⟨holds, rfl⟩
      | or => exact .inl holds
  | removeUnit k a =>
      cases k with
      | and => exact holds.1
      | or => exact holds.resolve_right Bool.false_ne_true
  | distribute a b c => exact or_and_right.mp holds
  | forget a b => exact holds.1
  | widen a b => exact .inl holds
  | apply a b => exact fun first => holds.1 ⟨first, holds.2⟩
  | introDoubleDual a => exact not_not_intro holds
  | removeDoubleDual a => exact not_not.mp holds
  | cojoin a => exact holds
  | derelict a => exact holds
  | copy a a' =>
      have same : a.alphaEq a' := by simpa [fault?] using clear
      exact ⟨(trueIn_alphaEq held same rho).mp holds, holds⟩
  | zip a b => exact holds
  | introExists body witness bound =>
      obtain ⟨unused, replaceable⟩ := (introExists_fault?_eq_none body witness bound).mp clear
      exact introExists_sound held body witness bound rho unused replaceable holds
  | removeExists x a =>
      obtain ⟨d, body⟩ := holds
      have unused := (freeFault?_eq_none _ x a).mp clear
      exact (trueIn_update held a x d rho unused).mp body
  | introForall x a =>
      intro d
      have unused := (freeFault?_eq_none _ x a).mp clear
      exact (trueIn_update held a x d rho unused).mpr holds
  | removeForall x body witness =>
      have replaceable := (hygieneFault?_eq_none _ x witness body).mp clear
      exact removeForall_sound held body x witness rho replaceable holds
  | andPastExists a x b =>
      obtain ⟨first, d, second⟩ := holds
      have unused := (freeFault?_eq_none _ x a).mp clear
      exact ⟨d, (trueIn_update held a x d rho unused).mpr first, second⟩
  | existsPastAnd a x b =>
      obtain ⟨d, first, second⟩ := holds
      have unused := (freeFault?_eq_none _ x a).mp clear
      exact ⟨(trueIn_update held a x d rho unused).mp first, d, second⟩
  | substitute l r body way =>
      obtain ⟨equal, holds⟩ := holds
      have replaceable := (hygieneFault?_eq_none _ _ _ body).mp clear
      cases way with
      | forward => exact replace_equal_sound held body l r rho replaceable equal holds
      | backward => exact replace_equal_sound held body r l rho replaceable equal.symm holds

end Primitive

namespace Arrow

theorem WellTyped.sound (f : Arrow) (typed : f.WellTyped) (rho : Var → D)
    (holds : f.source.TrueIn held rho) : f.target.TrueIn held rho := by
  induction f generalizing rho with
  | identity a => exact holds
  | composite f g first second =>
      obtain ⟨left, right, fits⟩ := typed
      have between := first left rho holds
      rw [Formula.trueIn_alphaEq held ((composite_fault?_eq_none f g).mp fits) rho] at between
      exact second right rho between
  | onLeft k f b ih =>
      cases k with
      | and => exact ⟨ih typed rho holds.1, holds.2⟩
      | or => exact holds.imp_left (ih typed rho)
  | onRight k a f ih =>
      cases k with
      | and => exact ⟨holds.1, ih typed rho holds.2⟩
      | or => exact holds.imp_right (ih typed rho)
  | onConj k f g first second =>
      cases k with
      | and => exact ⟨first typed.1 rho holds.1, second typed.2 rho holds.2⟩
      | or => exact holds.imp (first typed.1 rho) (second typed.2 rho)
  | onNot f ih => exact fun before => holds (ih typed rho before)
  | onAlways f ih => exact ih typed rho holds
  | onBody q v f ih =>
      cases q with
      | all => exact fun d => ih typed _ (holds d)
      | ex =>
          obtain ⟨d, body⟩ := holds
          exact ⟨d, ih typed _ body⟩
  | prim p => exact p.sound held typed rho holds

/-- Whatever domain, membership relation and assignment are chosen: an accepted arrow whose
source is true has a true target. An assignment exists only in a domain that is not empty. -/
theorem Accepted.preserves_truth {f : Arrow} (accepted : f.Accepted) :
    (∀ (D : Type u) (held : D → D → Prop) (rho : Var → D),
      f.source.TrueIn held rho → f.target.TrueIn held rho) ∧
    ¬ (f.source = .unit true ∧ f.target = .unit false) := by
  constructor
  · intro D held rho holds
    exact accepted.wellTyped.sound held f rho holds
  · rintro ⟨source, target⟩
    have holds : f.source.TrueIn (D := Unit) (fun _ _ => True) (fun _ => ()) := by
      rw [source]
      rfl
    have refuted := accepted.wellTyped.sound _ f _ holds
    rw [target] at refuted
    exact Bool.false_ne_true refuted

/-- From `∀x. x ∈ a` to `∃x. x ∈ a`, by way of `y ∈ a` and with another bound variable. -/
theorem forall_exists_preserves_truth :
    let f : Arrow := .composite
      (.prim (.removeForall ⟨0⟩ (.holds ⟨0⟩ ⟨1⟩) ⟨2⟩))
      (.prim (.introExists (.holds ⟨2⟩ ⟨1⟩) ⟨2⟩ ⟨3⟩))
    f.Accepted ∧ ∀ (held : Nat → Nat → Prop) (rho : Var → Nat),
      f.source.TrueIn held rho → f.target.TrueIn held rho := by
  intro f
  have accepted : f.Accepted := WellTyped.accepted (by decide)
  exact ⟨accepted, accepted.preserves_truth.1 Nat⟩

end Arrow

end LinearCalculus
