import LinearCalculus.Proofs.Arrow.Acceptance

/-! Hypotheses are not duplicated.

Every formula has a price up to a cap. A relation of two variables costs one,
a conjunction as much as its parts together, a disjunction as the cheaper part, and a
negation what its body leaves of the cap; an exponential is free if its body is, and
costs the cap otherwise. No arrow leads to a formula of a higher price. -/

namespace LinearCalculus

namespace Formula

def price (cap : Nat) : Formula → Nat
  | holds _ _ => min 1 cap
  | identical _ _ => 0
  | unit value => if value then 0 else cap
  | not f => cap - f.price cap
  | always f => if f.price cap = 0 then 0 else cap
  | conj .and l r => min (l.price cap + r.price cap) cap
  | conj .or l r => min (l.price cap) (r.price cap)
  | quant _ _ f => f.price cap

theorem price_le_cap (cap : Nat) (f : Formula) : f.price cap ≤ cap := by
  induction f with
  | holds a b => exact Nat.min_le_right 1 cap
  | identical a b => exact Nat.zero_le cap
  | unit value => cases value <;> simp [price]
  | not f ih => exact Nat.sub_le cap _
  | always f ih =>
      simp only [price]
      split
      · exact Nat.zero_le cap
      · exact Nat.le_refl cap
  | conj k l r left right =>
      cases k with
      | and => exact Nat.min_le_right _ cap
      | or => exact Nat.le_trans (Nat.min_le_left _ _) left
  | quant q v f ih => exact ih

theorem price_replace (cap : Nat) (old new : Var) (f : Formula) :
    (f.replace old new).price cap = f.price cap := by
  induction f with
  | holds a b => rfl
  | identical a b => rfl
  | unit value => rfl
  | not f ih => simp only [replace, price, ih]
  | always f ih => simp only [replace, price, ih]
  | conj k l r left right => cases k <;> simp only [replace, price, left, right]
  | quant q v f ih => simp only [replace, price, ih]

theorem price_alphaEqIn (cap : Nat) (env : Binders) (f g : Formula) (same : f.alphaEqIn env g) :
    f.price cap = g.price cap := by
  induction f generalizing env g with
  | holds a b => cases g <;> simp_all [alphaEqIn, price]
  | identical a b => cases g <;> simp_all [alphaEqIn, price]
  | unit value => cases g <;> simp_all [alphaEqIn, price]
  | not f ih =>
      cases g <;> simp only [alphaEqIn, Bool.false_eq_true] at same
      simp only [price, ih _ _ same]
  | always f ih =>
      cases g <;> simp only [alphaEqIn, Bool.false_eq_true] at same
      simp only [price, ih _ _ same]
  | conj k l r left right =>
      cases g <;> simp [alphaEqIn] at same
      obtain ⟨⟨rfl, first⟩, second⟩ := same
      cases k <;> simp only [price, left _ _ first, right _ _ second]
  | quant q v f ih =>
      cases g <;> simp [alphaEqIn] at same
      simp only [price, ih _ _ same.2]

theorem price_alphaEq (cap : Nat) {f g : Formula} (same : f.alphaEq g) :
    f.price cap = g.price cap :=
  price_alphaEqIn cap .empty f g same

end Formula

open Formula

theorem Primitive.price_target_le (cap : Nat) (p : Primitive) (clear : p.fault? = none) :
    p.target.price cap ≤ p.source.price cap := by
  cases p with
  | commute k a b | associateA k a b c | associateB k a b c =>
      cases k <;> simp only [source, target, price] <;> omega
  | introUnit k a | removeUnit k a =>
      have bound := price_le_cap cap a
      cases k <;> simp [source, target, price, Connective.unit] <;> omega
  | distribute a b c =>
      simp only [source, target, price]
      omega
  | forget a b =>
      have bound := price_le_cap cap a
      simp only [source, target, price]
      omega
  | widen a b => exact Nat.min_le_left _ _
  | apply a b =>
      simp only [source, target, price]
      omega
  | introDoubleDual a | removeDoubleDual a =>
      have bound := price_le_cap cap a
      simp only [source, target, price]
      omega
  | cojoin a =>
      by_cases free : a.price cap = 0
      · simp [source, target, price, free]
      · have bound := price_le_cap cap (always (always a))
        simpa [source, target, price, free] using bound
  | derelict a =>
      have bound := price_le_cap cap a
      simp only [source, target, price]
      split <;> omega
  | copy a a' =>
      have same : a.alphaEq a' := by simpa [fault?] using clear
      simp only [source, target, price, price_alphaEq cap same]
      split <;> omega
  | zip a b =>
      -- both exponentials are free, or one of them costs the cap already
      have bound := price_le_cap cap (always (and a b))
      by_cases left : a.price cap = 0
      · by_cases right : b.price cap = 0
        · simp [source, target, price, left, right]
        · simpa [source, target, price, left, right] using bound
      · simpa [source, target, price, left] using bound
  | introExists body witness bound => exact Nat.le_of_eq (price_replace cap witness bound body)
  | removeExists x a | introForall x a => exact Nat.le_refl _
  | removeForall x body witness => exact Nat.le_of_eq (price_replace cap x witness body)
  | andPastExists a x b | existsPastAnd a x b => exact Nat.le_refl _
  | substitute l r body way =>
      have bound := price_le_cap cap body
      simp only [source, target, price, price_replace]
      omega

namespace Arrow

theorem WellTyped.price_target_le (cap : Nat) (f : Arrow) (typed : f.WellTyped) :
    f.target.price cap ≤ f.source.price cap := by
  induction f with
  | identity a => exact Nat.le_refl _
  | composite f g first second =>
      obtain ⟨left, right, fits⟩ := typed
      have between := price_alphaEq cap ((composite_fault?_eq_none f g).mp fits)
      calc
        g.target.price cap ≤ g.source.price cap := second right
        _ = f.target.price cap := between.symm
        _ ≤ f.source.price cap := first left
  | onLeft k f b ih | onRight k a f ih =>
      have inside := ih typed
      cases k <;> simp only [source, target, price] <;> omega
  | onConj k f g first second =>
      have left := first typed.1
      have right := second typed.2
      cases k <;> simp only [source, target, price] <;> omega
  | onNot f ih =>
      have inside := ih typed
      simp only [source, target, price]
      omega
  | onAlways f ih =>
      have inside := ih typed
      have bound := price_le_cap cap f.target
      simp only [source, target, price]
      split <;> split <;> omega
  | onBody q v f ih => exact ih typed
  | prim p => exact p.price_target_le cap typed

end Arrow

def Formula.copies (a : Formula) (n : Nat) : Formula :=
  chain .and (List.replicate n a)

theorem Formula.price_copies (cap n : Nat) (p q : Var) :
    ((holds p q).copies n).price cap = min n cap := by
  induction n with
  | zero => simp [copies, chain, price, Connective.unit]
  | succ n ih =>
      have unfolded : (holds p q).copies (n + 1) = and (holds p q) ((holds p q).copies n) := rfl
      simp only [unfolded, price, ih]
      omega

namespace Arrow

/-- Forget all copies of a formula but the last few, one after the other. -/
def forgetCopies (a : Formula) (kept : Nat) : Nat → Arrow
  | 0 => identity (a.copies kept)
  | more + 1 => composite (prim (.commute .and a (a.copies (kept + more))))
      (composite (prim (.forget (a.copies (kept + more)) a)) (forgetCopies a kept more))

theorem forgetCopies_target (a : Formula) (kept more : Nat) :
    (forgetCopies a kept more).target = a.copies kept := by
  induction more with
  | zero => rfl
  | succ more ih => exact ih

theorem forgetCopies_source (a : Formula) (kept more : Nat) :
    (forgetCopies a kept more).source = a.copies (kept + more) := by
  cases more with
  | zero => rfl
  | succ more => rfl

theorem forgetCopies_wellTyped (a : Formula) (kept more : Nat) :
    (forgetCopies a kept more).WellTyped := by
  induction more with
  | zero => trivial
  | succ more ih =>
      refine ⟨rfl, ⟨rfl, ih, ?_⟩, ?_⟩
      · rw [composite_fault?_eq_none, forgetCopies_source]
        exact alphaEq_refl _
      · rw [composite_fault?_eq_none]
        exact alphaEq_refl _

/-- Copies of a relation can be forgotten, and never gained: an accepted arrow leads from
so many copies to so many others exactly if it does not end with more. -/
theorem copies_iff_le (p q : Var) (n m : Nat) :
    (∃ f : Arrow, f.Accepted ∧
      f.source.alphaEq (Formula.chain .and (List.replicate n (holds p q))) ∧
      f.target.alphaEq (Formula.chain .and (List.replicate m (holds p q)))) ↔ m ≤ n := by
  constructor
  · rintro ⟨f, accepted, source, target⟩
    have paid := accepted.wellTyped.price_target_le m
    have before : f.source.price m = min n m :=
      (price_alphaEq m source).trans (price_copies m n p q)
    have after : f.target.price m = min m m :=
      (price_alphaEq m target).trans (price_copies m m p q)
    omega
  · intro fewer
    obtain ⟨more, rfl⟩ := Nat.exists_eq_add_of_le fewer
    refine ⟨forgetCopies (holds p q) m more, (forgetCopies_wellTyped _ m more).accepted, ?_, ?_⟩
    · rw [forgetCopies_source]
      exact alphaEq_refl _
    · rw [forgetCopies_target]
      exact alphaEq_refl _

end Arrow

end LinearCalculus
