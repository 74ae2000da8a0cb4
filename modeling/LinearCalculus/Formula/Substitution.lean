import LinearCalculus.Formula.Text

namespace LinearCalculus

inductive HygieneError where
  | rebound (v : Var)
  /-- The replacing variable is bound above an occurrence of the replaced one. -/
  | captured (v : Var)
  deriving DecidableEq, Repr

def HygieneError.message : HygieneError → String
  | rebound v => "variable " ++ v.text ++ " is bound inside the formula"
  | captured v => "substitution would be captured by binder of " ++ v.text

def Var.replace (old new v : Var) : Var := if v = old then new else v

namespace Formula

def replace (old new : Var) : Formula → Formula
  | holds a b => holds (old.replace new a) (old.replace new b)
  | identical a b => identical (old.replace new a) (old.replace new b)
  | unit u => unit u
  | not f => not (f.replace old new)
  | always f => always (f.replace old new)
  | conj k l r => conj k (l.replace old new) (r.replace old new)
  | quant q v f => quant q v (f.replace old new)

/-- The first place, in reading order, that forbids to put `new` for `old`;
`below` tells whether a binder of `new` has been passed. -/
def clash? (old new : Var) (below : Bool) : Formula → Option HygieneError
  | holds a b | identical a b =>
    if below && (a == old || b == old) then some (.captured new) else none
  | unit _ => none
  | not f | always f => f.clash? old new below
  | conj _ l r => (l.clash? old new below).or (r.clash? old new below)
  | quant _ v f =>
    if v = old then some (.rebound old) else f.clash? old new (below || v == new)

def substitute (old new : Var) (f : Formula) : Except HygieneError Formula :=
  if old = new then .ok f
  else
    match f.clash? old new false with
    | some e => .error e
    | none => .ok (f.replace old new)

def renamed : List (Var × Var) → Var → Var
  | [], v => v
  | (old, new) :: rest, v => if v = old then new else renamed rest v

/-- Draw a new variable for every quantifier, in reading order. -/
def renameIn (env : List (Var × Var)) : Formula → Fresh Formula
  | holds a b => pure (holds (renamed env a) (renamed env b))
  | identical a b => pure (identical (renamed env a) (renamed env b))
  | unit u => pure (unit u)
  | not f => do return not (← f.renameIn env)
  | always f => do return always (← f.renameIn env)
  | conj k l r => do
    let l ← l.renameIn env
    let r ← r.renameIn env
    return conj k l r
  | quant q v f => do
    let w ← fresh
    return quant q w (← f.renameIn ((v, w) :: env))

def rename (f : Formula) : Fresh Formula := f.renameIn []

end Formula

end LinearCalculus
