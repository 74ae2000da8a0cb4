import LinearCalculus.Formula.Free
import LinearCalculus.Proofs.Formula.Nameless

namespace LinearCalculus

namespace Var

theorem mem_insert {v w : Var} {vars : List Var} : w ∈ v.insert vars ↔ w = v ∨ w ∈ vars := by
  induction vars with
  | nil => simp [insert]
  | cons u rest ih =>
      unfold insert
      split
      · simp
      · split
        · rename_i same
          simp [same]
        · simp only [List.mem_cons, ih]
          exact or_left_comm

@[simp] theorem mem_sort {v : Var} {vars : List Var} : v ∈ Var.sort vars ↔ v ∈ vars := by
  induction vars with
  | nil => rfl
  | cons w rest ih => rw [sort, List.foldr_cons, mem_insert, List.mem_cons, ← ih, sort]

end Var

def Occurrence.name? : Occurrence → Option Var
  | bound _ => none
  | free v => some v

theorem Occurrence.name?_below (a : Occurrence) : a.below.name? = a.name? := by
  cases a <;> rfl

theorem Var.name?_occurrence (bound : List Var) (v : Var) :
    (v.occurrence bound).name? = if bound.contains v then none else some v := by
  induction bound with
  | nil => rfl
  | cons w rest ih =>
      by_cases nearest : v = w
      · simp [occurrence, nearest, Occurrence.name?]
      · simp [occurrence, nearest, Occurrence.name?_below, ih]

def Nameless.names : Nameless → List Var
  | holds a b | identical a b => [a, b].filterMap Occurrence.name?
  | unit _ => []
  | not f | always f | quant _ f => f.names
  | conj _ l r => l.names ++ r.names

namespace Formula

theorem names_namelessIn (bound : List Var) (f : Formula) :
    (f.namelessIn bound).names = f.freeOccurrences bound := by
  have pair (bound : List Var) (a b : Var) :
      [a.occurrence bound, b.occurrence bound].filterMap Occurrence.name? =
        [a, b].filter fun v => !bound.contains v := by
    simp only [List.filterMap_cons, List.filterMap_nil, Var.name?_occurrence, List.filter_cons,
      List.filter_nil]
    cases bound.contains a <;> cases bound.contains b <;> rfl
  induction f generalizing bound with
  | holds a b | identical a b => exact pair bound a b
  | unit value => rfl
  | not f ih | always f ih => exact ih bound
  | conj k l r left right => rw [namelessIn, Nameless.names, left, right, freeOccurrences]
  | quant q v f ih => exact ih (v :: bound)

/-- The walk that remembers the binders and the one that stops at a binder of the variable find
the same free variables. -/
theorem mem_freeOccurrences {bound : List Var} {f : Formula} {v : Var} :
    v ∈ f.freeOccurrences bound ↔ f.isFree v ∧ v ∉ bound := by
  induction f generalizing bound with
  | holds a b | identical a b => grind [freeOccurrences, isFree]
  | unit value => simp [freeOccurrences, isFree]
  | not f ih | always f ih => exact ih
  | conj k l r left right => simp [freeOccurrences, isFree, left, right, or_and_right]
  | quant q w f ih => grind [freeOccurrences, isFree]

theorem mem_freeVars {f : Formula} {v : Var} : v ∈ f.freeVars ↔ f.isFree v := by
  simp [freeVars, mem_freeOccurrences]

theorem freeOccurrences_eq_of_alphaEq {f g : Formula} (same : f.alphaEq g) :
    f.freeOccurrences [] = g.freeOccurrences [] := by
  rw [← names_namelessIn, ← names_namelessIn]
  exact congrArg Nameless.names ((alphaEq_iff_nameless f g).mp same)

theorem freeVars_eq_of_alphaEq {f g : Formula} (same : f.alphaEq g) : f.freeVars = g.freeVars :=
  congrArg Var.sort (freeOccurrences_eq_of_alphaEq same)

theorem isFree_eq_of_alphaEq {f g : Formula} (same : f.alphaEq g) (v : Var) :
    f.isFree v = g.isFree v := by
  rw [Bool.eq_iff_iff, ← mem_freeVars, ← mem_freeVars, freeVars_eq_of_alphaEq same]

/-- The two ways to ask for free variables agree: the walk finds a variable exactly if the test
does and no binder on the stack hides it, however often a binder stands there. Neither of them
tells formulas apart that are equal up to bound names. -/
theorem freeness_agrees :
    (∀ (f : Formula) (v : Var), v ∈ f.freeVars ↔ f.isFree v) ∧
      (∀ (bound : List Var) (f : Formula) (v : Var),
        v ∈ f.freeOccurrences bound ↔ f.isFree v ∧ v ∉ bound) ∧
      ∀ f g : Formula, f.alphaEq g →
        f.freeVars = g.freeVars ∧ ∀ v : Var, f.isFree v = g.isFree v := by
  refine ⟨fun f v => mem_freeVars, fun bound f v => mem_freeOccurrences, ?_⟩
  intro f g same
  exact ⟨freeVars_eq_of_alphaEq same, isFree_eq_of_alphaEq same⟩

/-- One name is bound twice, the one binder below the other, and free beside them. -/
theorem freeness_agrees_beside_shadowed :
    let inside (v w : Var) : Formula := .quant .ex v (.quant .all w (.holds w ⟨1⟩))
    let f : Formula := .and (inside ⟨0⟩ ⟨0⟩) (.identical ⟨0⟩ ⟨2⟩)
    let g : Formula := .and (inside ⟨3⟩ ⟨4⟩) (.identical ⟨0⟩ ⟨2⟩)
    f.alphaEq g ∧ f ≠ g ∧ f.freeVars = [⟨0⟩, ⟨1⟩, ⟨2⟩] ∧ f.freeVars = g.freeVars ∧
      (⟨0⟩ ∈ f.freeVars ↔ f.isFree ⟨0⟩) ∧ g.isFree ⟨0⟩ := by
  intro inside f g
  have same : f.alphaEq g := by decide
  rcases freeness_agrees with ⟨listed, _, stable⟩
  rcases stable f g same with ⟨equal, free⟩
  refine ⟨same, by decide, by decide, equal, listed f ⟨0⟩, ?_⟩
  rw [← free]
  decide

end Formula

end LinearCalculus
