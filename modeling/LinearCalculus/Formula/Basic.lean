import LinearCalculus.Var

namespace LinearCalculus

inductive Connective where
  | and
  | or
  deriving DecidableEq, Repr

def Connective.unit : Connective → Bool
  | .and => true
  | .or => false

inductive Quantifier where
  | all
  | ex
  deriving DecidableEq, Repr

inductive Formula where
  | holds (left right : Var)
  | identical (left right : Var)
  | unit (value : Bool)
  | not (body : Formula)
  /-- The exponential: a formula that may be used any number of times. -/
  | always (body : Formula)
  | conj (kind : Connective) (left right : Formula)
  | quant (kind : Quantifier) (var : Var) (body : Formula)
  deriving DecidableEq, Repr

namespace Formula

abbrev and (a b : Formula) : Formula := .conj .and a b

abbrev or (a b : Formula) : Formula := .conj .or a b

/-- `A` yields `B`, written as the denial of `A` beside a denied `B`. -/
def implies (a b : Formula) : Formula := .not (and a (.not b))

/-- Right-nested connective of the values, closed by the unit. -/
def chain (k : Connective) (values : List Formula) : Formula :=
  values.foldr (.conj k) (.unit k.unit)

def size : Formula → Nat
  | holds _ _ | identical _ _ | unit _ => 1
  | not f | always f | quant _ _ f => 1 + f.size
  | conj _ l r => 1 + l.size + r.size

def conj? (k : Connective) : Formula → Option (Formula × Formula)
  | conj k' l r => if k' = k then some (l, r) else none
  | _ => none

def not? : Formula → Option Formula
  | not f => some f
  | _ => none

def always? : Formula → Option Formula
  | always f => some f
  | _ => none

def quant? (q : Quantifier) : Formula → Option (Var × Formula)
  | quant q' v f => if q' = q then some (v, f) else none
  | _ => none

end Formula

end LinearCalculus
