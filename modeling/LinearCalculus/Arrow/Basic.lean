import LinearCalculus.Arrow.Primitive

namespace LinearCalculus

inductive Arrow where
  | identity (a : Formula)
  | composite (f g : Arrow)
  | onLeft (k : Connective) (f : Arrow) (right : Formula)
  | onRight (k : Connective) (left : Formula) (f : Arrow)
  | onConj (k : Connective) (f g : Arrow)
  | onNot (f : Arrow)
  | onAlways (f : Arrow)
  | onBody (q : Quantifier) (v : Var) (f : Arrow)
  | prim (p : Primitive)
  deriving DecidableEq, Repr

namespace Arrow

def rule : Arrow → Rule
  | identity _ => .identity
  | composite _ _ => .composite
  | onLeft _ _ _ => .onLeft
  | onRight _ _ _ => .onRight
  | onConj _ _ _ => .onConj
  | onNot _ => .onNot
  | onAlways _ => .onAlways
  | onBody _ _ _ => .onBody
  | prim p => p.rule

mutual

def source : Arrow → Formula
  | identity a => a
  | composite f _ => f.source
  | onLeft k f b => .conj k f.source b
  | onRight k a f => .conj k a f.source
  | onConj k f g => .conj k f.source g.source
  | onNot f => .not f.target
  | onAlways f => .always f.source
  | onBody q v f => .quant q v f.source
  | prim p => p.source

def target : Arrow → Formula
  | identity a => a
  | composite _ g => g.target
  | onLeft k f b => .conj k f.target b
  | onRight k a f => .conj k a f.target
  | onConj k f g => .conj k f.target g.target
  | onNot f => .not f.source
  | onAlways f => .always f.target
  | onBody q v f => .quant q v f.target
  | prim p => p.target

end

/-- What is wrong at the root of the tree. -/
def fault? : Arrow → Option ShapeError
  | composite f g =>
    if f.target.alphaEq g.source then none else some (.uncomposable f.target g.source)
  | prim p => p.fault?
  | _ => none

/-- Accept an arrow whose parts have been accepted before. -/
def checked (f : Arrow) : Except ShapeError Arrow :=
  match f.fault? with
  | some e => .error e
  | none => .ok f

def WellTyped : Arrow → Prop
  | identity _ => True
  | composite f g => f.WellTyped ∧ g.WellTyped ∧ (composite f g).fault? = none
  | onLeft _ f _ | onRight _ _ f | onNot f | onAlways f | onBody _ _ f => f.WellTyped
  | onConj _ f g => f.WellTyped ∧ g.WellTyped
  | prim p => p.fault? = none

def compose (f g : Arrow) : Except ShapeError Arrow := (composite f g).checked

def chain (first : Arrow) (rest : List Arrow) : Except ShapeError Arrow :=
  rest.foldlM compose first

inductive Endpoint where
  | source
  | target
  deriving DecidableEq, Repr

/-- Extend a proof behind its target; the other endpoint stays. -/
def composeForward (f next : Arrow) : Except ShapeError (Arrow × Endpoint) := do
  return (← f.compose next, .source)

def composeBackward (f previous : Arrow) : Except ShapeError (Arrow × Endpoint) := do
  return (← previous.compose f, .target)

def steps : Arrow → List Arrow
  | composite f g => f.steps ++ g.steps
  | f => [f]

/-- Number of arrows that are no composites, those inside functorial ones included. -/
def size : Arrow → Nat
  | composite f g | onConj _ f g => f.size + g.size
  | onLeft _ f _ | onRight _ _ f | onNot f | onAlways f | onBody _ _ f => 1 + f.size
  | identity _ | prim _ => 1

/-- An identity, perhaps inside functorial arrows. -/
def isIdentity : Arrow → Bool
  | identity _ => true
  | onConj _ f g => f.isIdentity && g.isIdentity
  | onLeft _ f _ | onRight _ _ f | onNot f | onAlways f | onBody _ _ f => f.isIdentity
  | composite _ _ | prim _ => false

def eqv : Arrow → Arrow → Bool
  | identity a, identity a' => a.alphaEq a'
  | composite f g, composite f' g' => f.eqv f' && g.eqv g'
  | onLeft k f b, onLeft k' f' b' => k == k' && f.eqv f' && b.alphaEq b'
  | onRight k a f, onRight k' a' f' => k == k' && a.alphaEq a' && f.eqv f'
  | onConj k f g, onConj k' f' g' => k == k' && f.eqv f' && g.eqv g'
  | onNot f, onNot f' => f.eqv f'
  | onAlways f, onAlways f' => f.eqv f'
  | onBody q v f, onBody q' v' f' => q == q' && v == v' && f.eqv f'
  | prim p, prim p' => p.eqv p'
  | _, _ => false

/-- Duplicate `!A`; the copy gets binders of its own. -/
def copy (a : Formula) : Fresh Arrow := do
  return prim (.copy a (← a.rename))

def text : Arrow → String
  | identity _ => "id"
  | composite f g => f.text ++ " ; " ++ g.text
  | onLeft _ f _ => "left(" ++ f.text ++ ")"
  | onRight _ _ f => "right(" ++ f.text ++ ")"
  | onConj _ f g => "both(" ++ f.text ++ ", " ++ g.text ++ ")"
  | onNot f => "not(" ++ f.text ++ ")"
  | onAlways f => "always(" ++ f.text ++ ")"
  | onBody _ _ f => "body(" ++ f.text ++ ")"
  | prim p => p.rule.name

def endpointsText (f : Arrow) : String := f.source.text ++ " → " ++ f.target.text

end Arrow

end LinearCalculus
