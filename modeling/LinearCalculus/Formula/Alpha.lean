import LinearCalculus.Formula.Basic

namespace LinearCalculus

/-- Binders passed on the way down two formulas side by side. Each side has a table of the
variables that its own were bound together with; a newer entry hides those before it. -/
structure Binders where
  left : List (Var × Var)
  right : List (Var × Var)
  deriving DecidableEq, Repr

namespace Binders

def empty : Binders := ⟨[], []⟩

def bind (env : Binders) (l r : Var) : Binders := ⟨(l, r) :: env.left, (r, l) :: env.right⟩

/-- Two occurrences denote the same variable if the tables lead from each of them to the
other one, or if both are free and equal. -/
def same (env : Binders) (a b : Var) : Bool :=
  match env.left.lookup a, env.right.lookup b with
  | some b', some a' => b' == b && a' == a
  | none, none => a == b
  | _, _ => false

end Binders

namespace Formula

def alphaEqIn (env : Binders) : Formula → Formula → Bool
  | holds a b, holds c d => env.same a c && env.same b d
  | identical a b, identical c d => env.same a c && env.same b d
  | unit u, unit v => u == v
  | not f, not g => alphaEqIn env f g
  | always f, always g => alphaEqIn env f g
  | conj k f₁ f₂, conj k' g₁ g₂ => k == k' && alphaEqIn env f₁ g₁ && alphaEqIn env f₂ g₂
  | quant q v f, quant q' w g => q == q' && alphaEqIn (env.bind v w) f g
  | _, _ => false

def alphaEq (f g : Formula) : Bool := alphaEqIn .empty f g

def syntacticEq : Formula → Formula → Bool
  | holds a b, holds c d => a == c && b == d
  | identical a b, identical c d => a == c && b == d
  | unit u, unit v => u == v
  | not f, not g => syntacticEq f g
  | always f, always g => syntacticEq f g
  | conj k f₁ f₂, conj k' g₁ g₂ => k == k' && syntacticEq f₁ g₁ && syntacticEq f₂ g₂
  | quant q v f, quant q' w g => q == q' && v == w && syntacticEq f g
  | _, _ => false

theorem syntacticEq_iff (f g : Formula) : f.syntacticEq g ↔ f = g := by
  induction f generalizing g with
  | holds a b | identical a b | unit value => cases g <;> simp [syntacticEq]
  | not f ih | always f ih => cases g <;> simp [syntacticEq, ih]
  | conj k l r left right => cases g <;> simp [syntacticEq, left, right, and_assoc]
  | quant q v f ih => cases g <;> simp [syntacticEq, ih, and_assoc]

end Formula

end LinearCalculus
