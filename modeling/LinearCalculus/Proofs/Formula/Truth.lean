import LinearCalculus.Proofs.Formula.Nameless
import LinearCalculus.Proofs.Formula.Replacement
import Mathlib.Logic.Function.Basic

/-! Truth of formulas in a domain with a relation for membership.

Connectives and quantifiers are read classically, and the exponential of a formula is
true if the formula is. Truth depends on the free variables only, it does not tell
formulas apart that are equal up to bound names, and to replace a variable without
capture amounts to changing its value. -/

namespace LinearCalculus

universe u

variable {D : Type u}

namespace Formula

def TrueIn (held : D → D → Prop) : Formula → (Var → D) → Prop
  | holds a b, rho => held (rho a) (rho b)
  | identical a b, rho => rho a = rho b
  | unit value, _ => value = true
  | not f, rho => ¬ f.TrueIn held rho
  | always f, rho => f.TrueIn held rho
  | conj .and l r, rho => l.TrueIn held rho ∧ r.TrueIn held rho
  | conj .or l r, rho => l.TrueIn held rho ∨ r.TrueIn held rho
  | quant .all v f, rho => ∀ d, f.TrueIn held (Function.update rho v d)
  | quant .ex v f, rho => ∃ d, f.TrueIn held (Function.update rho v d)

variable (held : D → D → Prop)

theorem trueIn_conj_congr (k : Connective) {l r l' r' : Formula} {rho sigma : Var → D}
    (left : l.TrueIn held rho ↔ l'.TrueIn held sigma)
    (right : r.TrueIn held rho ↔ r'.TrueIn held sigma) :
    (conj k l r).TrueIn held rho ↔ (conj k l' r').TrueIn held sigma := by
  cases k with
  | and => exact and_congr left right
  | or => exact or_congr left right

theorem trueIn_quant_congr (q : Quantifier) {v w : Var} {f g : Formula} {rho sigma : Var → D}
    (body : ∀ d, f.TrueIn held (Function.update rho v d) ↔
      g.TrueIn held (Function.update sigma w d)) :
    (quant q v f).TrueIn held rho ↔ (quant q w g).TrueIn held sigma := by
  cases q with
  | all => exact forall_congr' body
  | ex => exact exists_congr body

theorem trueIn_of_agree (f : Formula) (rho sigma : Var → D)
    (agree : ∀ v, f.isFree v → rho v = sigma v) : f.TrueIn held rho ↔ f.TrueIn held sigma := by
  induction f generalizing rho sigma with
  | holds a b => simp [TrueIn, agree a (by simp [isFree]), agree b (by simp [isFree])]
  | identical a b => simp [TrueIn, agree a (by simp [isFree]), agree b (by simp [isFree])]
  | unit value => rfl
  | not f ih => exact not_congr (ih rho sigma agree)
  | always f ih => exact ih rho sigma agree
  | conj k l r left right =>
      apply trueIn_conj_congr
      · exact left rho sigma (fun v free => agree v (by simp [isFree, free]))
      · exact right rho sigma (fun v free => agree v (by simp [isFree, free]))
  | quant q w f ih =>
      apply trueIn_quant_congr
      intro d
      apply ih
      intro v free
      by_cases bound : v = w
      · simp [bound]
      · have outer := agree v (by simp [isFree, free, Ne.symm bound])
        simp [bound, outer]

theorem trueIn_update (f : Formula) (v : Var) (d : D) (rho : Var → D)
    (absent : f.isFree v = false) :
    f.TrueIn held (Function.update rho v d) ↔ f.TrueIn held rho := by
  apply trueIn_of_agree
  intro w free
  have different : w ≠ v := by
    rintro rfl
    simp [absent] at free
  simp [different]

end Formula

/-- The assignments give one value to two occurrences that denote the same variable. -/
def Binders.Agree (env : Binders) (rho sigma : Var → D) : Prop :=
  ∀ a b, env.same a b → rho a = sigma b

theorem Binders.agree_bind (env : Binders) (rho sigma : Var → D) (agree : env.Agree rho sigma)
    (v w : Var) (d : D) :
    (env.bind v w).Agree (Function.update rho v d) (Function.update sigma w d) := by
  intro a b same
  rw [Binders.same_bind] at same
  by_cases left : a = v
  · have right : b = w := by simpa [left] using same
    simp [left, right]
  · by_cases right : b = w
    · simp [left, right] at same
    · have outer : env.same a b := by simpa [left, right] using same
      simp [left, right, agree a b outer]

namespace Formula

variable (held : D → D → Prop)

theorem trueIn_alphaEqIn (env : Binders) (f g : Formula) (rho sigma : Var → D)
    (same : f.alphaEqIn env g) (agree : env.Agree rho sigma) :
    f.TrueIn held rho ↔ g.TrueIn held sigma := by
  induction f generalizing env g rho sigma with
  | holds a b =>
      cases g <;> simp [alphaEqIn] at same
      simp [TrueIn, agree _ _ same.1, agree _ _ same.2]
  | identical a b =>
      cases g <;> simp [alphaEqIn] at same
      simp [TrueIn, agree _ _ same.1, agree _ _ same.2]
  | unit value =>
      cases g <;> simp [alphaEqIn] at same
      simp [TrueIn, same]
  | not f ih =>
      cases g <;> simp only [alphaEqIn, Bool.false_eq_true] at same
      exact not_congr (ih _ _ _ _ same agree)
  | always f ih =>
      cases g <;> simp only [alphaEqIn, Bool.false_eq_true] at same
      have body := ih _ _ rho sigma same agree
      exact body
  | conj k l r left right =>
      cases g <;> simp [alphaEqIn] at same
      obtain ⟨⟨rfl, first⟩, second⟩ := same
      exact trueIn_conj_congr held k (left _ _ _ _ first agree) (right _ _ _ _ second agree)
  | quant q v f ih =>
      cases g <;> simp [alphaEqIn] at same
      obtain ⟨rfl, body⟩ := same
      apply trueIn_quant_congr
      intro d
      exact ih _ _ _ _ body (Binders.agree_bind env rho sigma agree v _ d)

theorem trueIn_alphaEq {f g : Formula} (same : f.alphaEq g) (rho : Var → D) :
    f.TrueIn held rho ↔ g.TrueIn held rho := by
  apply trueIn_alphaEqIn held .empty f g rho rho same
  intro a b equal
  have identical : a = b := by simpa using equal
  rw [identical]

theorem value_replace (rho : Var → D) (old new v : Var) :
    rho (old.replace new v) = Function.update rho old (rho new) v := by
  by_cases here : v = old <;> simp [Var.replace, here]

theorem trueIn_of_clear (f : Formula) (old new : Var) (rho : Var → D)
    (clear : f.clash? old new false = none) :
    (f.replace old new).TrueIn held rho ↔ f.TrueIn held (Function.update rho old (rho new)) := by
  induction f generalizing rho with
  | holds a b => simp [replace, TrueIn, value_replace rho]
  | identical a b => simp [replace, TrueIn, value_replace rho]
  | unit value => rfl
  | not f ih => exact not_congr (ih rho clear)
  | always f ih => exact ih rho clear
  | conj k l r left right =>
      obtain ⟨first, second⟩ := clash?_conj_eq_none.mp clear
      exact trueIn_conj_congr held k (left rho first) (right rho second)
  | quant q v f ih =>
      obtain ⟨different, inner⟩ := clash?_quant_eq_none.mp clear
      apply trueIn_quant_congr
      intro d
      rw [← Function.update_comm different]
      by_cases capturing : v = new
      · obtain ⟨same, absent⟩ := clear_below old new f (by simpa [capturing] using inner)
        rw [same, trueIn_update held f old (rho new) _ absent]
      · have body := ih (Function.update rho v d)
          (by simpa [beq_eq_false_iff_ne.mpr capturing] using inner)
        rwa [Function.update_of_ne (Ne.symm capturing)] at body

theorem trueIn_replace (f : Formula) (old new : Var) (rho : Var → D)
    (replaceable : f.Replaceable old new) :
    (f.replace old new).TrueIn held rho ↔ f.TrueIn held (Function.update rho old (rho new)) := by
  rcases replaceable with rfl | clear
  · rw [replace_self, Function.update_eq_self]
  · exact trueIn_of_clear held f old new rho clear

end Formula

end LinearCalculus
