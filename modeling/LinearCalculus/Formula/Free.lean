import LinearCalculus.Formula.Basic

namespace LinearCalculus.Formula

def freeOccurrences (bound : List Var) : Formula → List Var
  | holds a b | identical a b => [a, b].filter fun v => !bound.contains v
  | unit _ => []
  | not f | always f => f.freeOccurrences bound
  | conj _ l r => l.freeOccurrences bound ++ r.freeOccurrences bound
  | quant _ v f => f.freeOccurrences (v :: bound)

def freeVars (f : Formula) : List Var := Var.sort (f.freeOccurrences [])

def isFree (v : Var) : Formula → Bool
  | holds a b | identical a b => a == v || b == v
  | unit _ => false
  | not f | always f => f.isFree v
  | conj _ l r => l.isFree v || r.isFree v
  | quant _ w f => w != v && f.isFree v

def binders : Formula → List Var
  | holds _ _ | identical _ _ | unit _ => []
  | not f | always f => f.binders
  | conj _ l r => l.binders ++ r.binders
  | quant _ v f => v :: f.binders

def boundVars (f : Formula) : List Var := Var.sort f.binders

end LinearCalculus.Formula
