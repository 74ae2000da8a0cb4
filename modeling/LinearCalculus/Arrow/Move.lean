import LinearCalculus.Arrow.Basic

namespace LinearCalculus

/-- A rule that can be read off the formula it is applied to, with what else it needs. -/
inductive Move where
  | commute
  | associateA
  | associateB
  | removeUnit
  | distribute
  | forget
  | apply
  | removeDoubleDual
  | cojoin
  | derelict
  | copy
  | zip
  | removeExists
  | removeForall (witness : Var)
  | andPastExists
  | existsPastAnd
  | substitute (way : Orientation)
  deriving DecidableEq, Repr

namespace Move

def rule : Move → Rule
  | commute => .commute
  | associateA => .associateA
  | associateB => .associateB
  | removeUnit => .removeUnit
  | distribute => .distribute
  | forget => .forget
  | apply => .apply
  | removeDoubleDual => .removeDoubleDual
  | cojoin => .cojoin
  | derelict => .derelict
  | copy => .copy
  | zip => .zip
  | removeExists => .removeExists
  | removeForall _ => .removeForall
  | andPastExists => .andPastExists
  | existsPastAnd => .existsPastAnd
  | substitute _ => .substitute

def part {α : Type} (m : Move) (shape : Shape) (found : Formula) : Option α → Except ShapeError α
  | some a => .ok a
  | none => .error (.expected m.rule shape found)

def conjOf (m : Move) (f : Formula) : Except ShapeError (Connective × Formula × Formula) :=
  match f with
  | .conj k a b => .ok (k, a, b)
  | _ => .error (.expected m.rule .conj f)

def andOf (m : Move) (f : Formula) : Except ShapeError (Formula × Formula) :=
  m.part .and f (f.conj? .and)

def notOf (m : Move) (f : Formula) : Except ShapeError Formula := m.part .not f f.not?

def alwaysOf (m : Move) (f : Formula) : Except ShapeError Formula := m.part .always f f.always?

def existsOf (m : Move) (f : Formula) : Except ShapeError (Var × Formula) :=
  m.part .ex f (f.quant? .ex)

def forallOf (m : Move) (f : Formula) : Except ShapeError (Var × Formula) :=
  m.part .all f (f.quant? .all)

/-- The primitive rule read off a formula. For `copy` the copy is the formula itself. -/
def read (m : Move) (f : Formula) : Except ShapeError Primitive :=
  match m with
  | commute => do
    let (k, a, b) ← m.conjOf f
    return .commute k a b
  | associateA => do
    let (k, ab, c) ← m.conjOf f
    let (a, b) ← m.part .conjOnLeft f (ab.conj? k)
    return .associateA k a b c
  | associateB => do
    let (k, a, bc) ← m.conjOf f
    let (b, c) ← m.part .conjOnRight f (bc.conj? k)
    return .associateB k a b c
  | removeUnit => do
    let (k, a, u) ← m.conjOf f
    if u = .unit k.unit then return .removeUnit k a
    else throw (.expected m.rule .withUnit f)
  | distribute => do
    let (ab, c) ← m.andOf f
    let (a, b) ← m.part .orInAnd f (ab.conj? .or)
    return .distribute a b c
  | forget => do
    let (a, b) ← m.andOf f
    return .forget a b
  | apply => do
    let (denied, b') ← m.andOf f
    let ab ← m.notOf denied
    let (a, b) ← m.part .denial f (ab.conj? .and)
    if b.alphaEq b' then return .apply a b
    else throw (.mismatch m.rule b b')
  | removeDoubleDual => do
    let a ← m.notOf f
    return .removeDoubleDual (← m.notOf a)
  | cojoin => do return .cojoin (← m.alwaysOf f)
  | derelict => do return .derelict (← m.alwaysOf f)
  | copy => do
    let a ← m.alwaysOf f
    return .copy a a
  | zip => do
    let (a, b) ← m.andOf f
    let a ← m.alwaysOf a
    let b ← m.alwaysOf b
    return .zip a b
  | removeExists => do
    let (x, a) ← m.existsOf f
    return .removeExists x a
  | removeForall witness => do
    let (x, a) ← m.forallOf f
    return .removeForall x a witness
  | andPastExists => do
    let (a, eb) ← m.andOf f
    let (x, b) ← m.existsOf eb
    return .andPastExists a x b
  | existsPastAnd => do
    let (x, ab) ← m.existsOf f
    let (a, b) ← m.andOf ab
    return .existsPastAnd a x b
  | substitute way => do
    let (eq, body) ← m.andOf f
    match eq with
    | .identical l r => return .substitute l r body way
    | _ => throw (.expected m.rule .equation f)

/-- Apply a rule to a formula. Only `copy` draws variables. -/
def applyTo (m : Move) (f : Formula) : ExceptT ShapeError Fresh Arrow := do
  match ← m.read f with
  | .copy a _ => Arrow.copy a
  | p => (Arrow.prim p).checked

end Move

end LinearCalculus
