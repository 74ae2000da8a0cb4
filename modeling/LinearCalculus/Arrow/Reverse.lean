import LinearCalculus.Arrow.Basic

namespace LinearCalculus

structure NotInvertible where
  rule : Rule
  deriving DecidableEq, Repr

def NotInvertible.message (e : NotInvertible) : String := e.rule.name ++ " is not invertible"

namespace Arrow

/-- The inverse, built from the inverses of the parts; of a composite, the last
part is reversed first. -/
def reverse : Arrow → Except NotInvertible Arrow
  | identity a => .ok (identity a)
  | composite f g => do
    let g ← g.reverse
    let f ← f.reverse
    return composite g f
  | onLeft k f b => do return onLeft k (← f.reverse) b
  | onRight k a f => do return onRight k a (← f.reverse)
  | onConj k f g => do
    let f ← f.reverse
    let g ← g.reverse
    return onConj k f g
  | onNot f => do return onNot (← f.reverse)
  | onAlways f => do return onAlways (← f.reverse)
  | onBody q v f => do return onBody q v (← f.reverse)
  | prim p =>
    match p.reverse? with
    | some p' => .ok (prim p')
    | none => .error ⟨p.rule⟩

def isInvertible : Arrow → Bool
  | identity _ => true
  | composite f g | onConj _ f g => f.isInvertible && g.isInvertible
  | onLeft _ f _ | onRight _ _ f | onNot f | onAlways f | onBody _ _ f => f.isInvertible
  | prim p => p.isInvertible

end Arrow

end LinearCalculus
