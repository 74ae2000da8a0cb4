import LinearCalculus.Arrow.Rule

namespace LinearCalculus

/-- The way in which an equation is used: its left side is replaced by the right one, or back. -/
inductive Orientation where
  | forward
  | backward
  deriving DecidableEq, Repr

inductive Primitive where
  | commute (k : Connective) (a b : Formula)
  | associateA (k : Connective) (a b c : Formula)
  | associateB (k : Connective) (a b c : Formula)
  | introUnit (k : Connective) (a : Formula)
  | removeUnit (k : Connective) (a : Formula)
  | distribute (a b c : Formula)
  | forget (a b : Formula)
  | widen (a b : Formula)
  | apply (a b : Formula)
  | introDoubleDual (a : Formula)
  | removeDoubleDual (a : Formula)
  | cojoin (a : Formula)
  | derelict (a : Formula)
  /-- From `!A` to `!A' ⊗ !A`, where `A'` equals `A` up to bound names. -/
  | copy (a a' : Formula)
  | zip (a b : Formula)
  /-- From `A` to `∃y. A[x → y]`, where `x` is the witness and `y` the bound variable. -/
  | introExists (body : Formula) (witness bound : Var)
  | removeExists (x : Var) (a : Formula)
  | introForall (x : Var) (a : Formula)
  /-- From `∀x. A` to `A[x → w]`, where `w` is the witness. -/
  | removeForall (bound : Var) (body : Formula) (witness : Var)
  | andPastExists (a : Formula) (x : Var) (b : Formula)
  | existsPastAnd (a : Formula) (x : Var) (b : Formula)
  /-- From `(l = r) ⊗ A` to `A[l → r]`, or to `A[r → l]`. -/
  | substitute (left right : Var) (body : Formula) (way : Orientation)
  deriving DecidableEq, Repr

/-- The variable that is replaced, and the one that replaces it. -/
def Orientation.pair (left right : Var) : Orientation → Var × Var
  | forward => (left, right)
  | backward => (right, left)

namespace Primitive

open Formula (and or)

def rule : Primitive → Rule
  | commute .. => .commute
  | associateA .. => .associateA
  | associateB .. => .associateB
  | introUnit .. => .introUnit
  | removeUnit .. => .removeUnit
  | distribute .. => .distribute
  | forget .. => .forget
  | widen .. => .widen
  | apply .. => .apply
  | introDoubleDual .. => .introDoubleDual
  | removeDoubleDual .. => .removeDoubleDual
  | cojoin .. => .cojoin
  | derelict .. => .derelict
  | copy .. => .copy
  | zip .. => .zip
  | introExists .. => .introExists
  | removeExists .. => .removeExists
  | introForall .. => .introForall
  | removeForall .. => .removeForall
  | andPastExists .. => .andPastExists
  | existsPastAnd .. => .existsPastAnd
  | substitute .. => .substitute

def source : Primitive → Formula
  | commute k a b => .conj k a b
  | associateA k a b c => .conj k (.conj k a b) c
  | associateB k a b c => .conj k a (.conj k b c)
  | introUnit _ a => a
  | removeUnit k a => .conj k a (.unit k.unit)
  | distribute a b c => and (or a b) c
  | forget a b => and a b
  | widen a _ => a
  | apply a b => and (.not (and a b)) b
  | introDoubleDual a => a
  | removeDoubleDual a => .not (.not a)
  | cojoin a => .always a
  | derelict a => .always a
  | copy a _ => .always a
  | zip a b => and (.always a) (.always b)
  | introExists body _ _ => body
  | removeExists x a => .quant .ex x a
  | introForall _ a => a
  | removeForall x body _ => .quant .all x body
  | andPastExists a x b => and a (.quant .ex x b)
  | existsPastAnd a x b => .quant .ex x (and a b)
  | substitute l r body _ => and (.identical l r) body

def target : Primitive → Formula
  | commute k a b => .conj k b a
  | associateA k a b c => .conj k a (.conj k b c)
  | associateB k a b c => .conj k (.conj k a b) c
  | introUnit k a => .conj k a (.unit k.unit)
  | removeUnit _ a => a
  | distribute a b c => or (and a c) (and b c)
  | forget a _ => a
  | widen a b => or a b
  | apply a _ => .not a
  | introDoubleDual a => .not (.not a)
  | removeDoubleDual a => a
  | cojoin a => .always (.always a)
  | derelict a => a
  | copy a a' => and (.always a') (.always a)
  | zip a b => .always (and a b)
  | introExists body witness bound => .quant .ex bound (body.replace witness bound)
  | removeExists _ a => a
  | introForall x a => .quant .all x a
  | removeForall x body witness => body.replace x witness
  | andPastExists a x b => .quant .ex x (and a b)
  | existsPastAnd a x b => and a (.quant .ex x b)
  | substitute l r body way => body.replace (way.pair l r).1 (way.pair l r).2

def freeFault? (rule : Rule) (v : Var) (f : Formula) : Option ShapeError :=
  if f.isFree v then some (.free rule v f) else none

def hygieneFault? (rule : Rule) (old new : Var) (f : Formula) : Option ShapeError :=
  match f.substitute old new with
  | .error e => some (.hygiene rule e)
  | .ok _ => none

def fault? : Primitive → Option ShapeError
  | copy a a' => if a.alphaEq a' then none else some (.mismatch .copy a a')
  | introExists body witness bound =>
    if witness ≠ bound ∧ body.isFree bound then some (.free .introExists bound body)
    else hygieneFault? .introExists witness bound body
  | removeExists x a => freeFault? .removeExists x a
  | introForall x a => freeFault? .introForall x a
  | removeForall x body witness => hygieneFault? .removeForall x witness body
  | andPastExists a x _ => freeFault? .andPastExists x a
  | existsPastAnd a x _ => freeFault? .existsPastAnd x a
  | substitute l r body way => hygieneFault? .substitute (way.pair l r).1 (way.pair l r).2 body
  | _ => none

def eqv : Primitive → Primitive → Bool
  | commute k a b, commute k' a' b' => k == k' && a.alphaEq a' && b.alphaEq b'
  | associateA k a b c, associateA k' a' b' c' =>
    k == k' && a.alphaEq a' && b.alphaEq b' && c.alphaEq c'
  | associateB k a b c, associateB k' a' b' c' =>
    k == k' && a.alphaEq a' && b.alphaEq b' && c.alphaEq c'
  | introUnit k a, introUnit k' a' => k == k' && a.alphaEq a'
  | removeUnit k a, removeUnit k' a' => k == k' && a.alphaEq a'
  | distribute a b c, distribute a' b' c' => a.alphaEq a' && b.alphaEq b' && c.alphaEq c'
  | forget a b, forget a' b' => a.alphaEq a' && b.alphaEq b'
  | widen a b, widen a' b' => a.alphaEq a' && b.alphaEq b'
  | apply a b, apply a' b' => a.alphaEq a' && b.alphaEq b'
  | introDoubleDual a, introDoubleDual a' => a.alphaEq a'
  | removeDoubleDual a, removeDoubleDual a' => a.alphaEq a'
  | cojoin a, cojoin a' => a.alphaEq a'
  | derelict a, derelict a' => a.alphaEq a'
  | copy a b, copy a' b' => a.alphaEq a' && b.alphaEq b'
  | zip a b, zip a' b' => a.alphaEq a' && b.alphaEq b'
  | introExists a x y, introExists a' x' y' => a.alphaEq a' && x == x' && y == y'
  | removeExists x a, removeExists x' a' => x == x' && a.alphaEq a'
  | introForall x a, introForall x' a' => x == x' && a.alphaEq a'
  | removeForall x a y, removeForall x' a' y' => x == x' && a.alphaEq a' && y == y'
  | andPastExists a x b, andPastExists a' x' b' => a.alphaEq a' && x == x' && b.alphaEq b'
  | existsPastAnd a x b, existsPastAnd a' x' b' => a.alphaEq a' && x == x' && b.alphaEq b'
  | substitute l r a w, substitute l' r' a' w' => l == l' && r == r' && a.alphaEq a' && w == w'
  | _, _ => false

def reverse? : Primitive → Option Primitive
  | commute k a b => some (commute k b a)
  | associateA k a b c => some (associateB k a b c)
  | associateB k a b c => some (associateA k a b c)
  | introUnit k a => some (removeUnit k a)
  | removeUnit k a => some (introUnit k a)
  | introDoubleDual a => some (removeDoubleDual a)
  | removeDoubleDual a => some (introDoubleDual a)
  | andPastExists a x b => some (existsPastAnd a x b)
  | existsPastAnd a x b => some (andPastExists a x b)
  | _ => none

def isInvertible : Primitive → Bool
  | commute .. | associateA .. | associateB .. | introUnit .. | removeUnit .. | introDoubleDual ..
  | removeDoubleDual .. | andPastExists .. | existsPastAnd .. => true
  | _ => false

end Primitive

end LinearCalculus
