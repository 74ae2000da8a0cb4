import LinearCalculus.Arrow.Basic
import LinearCalculus.Surface.Formula

namespace LinearCalculus.Surface

inductive Step where
  | identity
  | composite
  | onElement
  | onNot
  | onAlways
  | onBody
  | shift
  | group
  | ungroup
  | forget
  | widen
  | hide
  | reveal
  | unfold
  | fold
  | lifted
  deriving DecidableEq, Repr

def Step.name : Step → String
  | identity => "identity"
  | composite => "composite"
  | onElement => "on_element"
  | onNot => "on_not"
  | onAlways => "on_always"
  | onBody => "on_body"
  | shift => "shift"
  | group => "group"
  | ungroup => "ungroup"
  | forget => "forget"
  | widen => "admit"
  | hide => "hide"
  | reveal => "reveal"
  | unfold => "unfold"
  | fold => "fold"
  | lifted => "lifted"

inductive Error where
  /-- The element to be spliced in is no connective of the same kind. -/
  | notNested (found : Formula)
  | index (step : Step) (index length : Nat)
  | mismatch (step : Step) (expected found : Formula)
  | uncomposable (target source : Formula)
  | lifted (expected found : LinearCalculus.Formula)
  deriving DecidableEq, Repr

def Error.message : Error → String
  | notNested found => Step.ungroup.name ++ ": expected nested connective, found " ++ found.text
  | index step i length =>
    step.name ++ ": index " ++ toString i ++ " out of bounds for " ++ toString length ++
      " values"
  | mismatch step expected found =>
    step.name ++ ": expected " ++ expected.text ++ ", found " ++ found.text
  | uncomposable target source =>
    "cannot compose surface arrow to " ++ target.text ++ " with arrow from " ++ source.text
  | lifted expected found =>
    "lifted arrow: expected " ++ expected.text ++ ", found " ++ found.text

inductive Arrow where
  | identity (a : Formula)
  | composite (f g : Arrow)
  | onElement (k : Connective) (values : List Formula) (index : Nat) (f : Arrow)
  | onNot (f : Arrow)
  | onAlways (f : Arrow)
  | onBody (q : Quantifier) (vars : List Var) (f : Arrow)
  | shift (k : Connective) (values : List Formula) (start stop : Nat)
  /-- Collect the elements from the first index up to the second one into one element. -/
  | group (k : Connective) (values : List Formula) (start stop : Nat)
  | ungroup (k : Connective) (values : List Formula) (index : Nat)
  | forget (values : List Formula) (index : Nat)
  | widen (values : List Formula) (index : Nat) (x : Formula)
  | hide (name : String) (a : Formula)
  | reveal (name : String) (a : Formula)
  | unfold (a b : Formula)
  | fold (a b : Formula)
  /-- An arrow of the calculus between the expansions of two formulas. -/
  | lifted (f : LinearCalculus.Arrow) (source target : Formula)
  deriving DecidableEq, Repr

def moved {α : Type} (values : List α) (start stop : Nat) : List α :=
  match values[start]? with
  | some v => (values.eraseIdx start).insertIdx stop v
  | none => values

def segment {α : Type} (values : List α) (start stop : Nat) : List α :=
  (values.drop start).take (stop - start)

def grouped (k : Connective) (values : List Formula) (start stop : Nat) : List Formula :=
  values.take start ++ .conj k (segment values start stop) :: values.drop stop

def nested? (k : Connective) (values : List Formula) (index : Nat) : Option (List Formula) :=
  values[index]?.bind (Formula.conj? k)

def spliced {α : Type} (values : List α) (index : Nat) (inner : List α) : List α :=
  values.take index ++ inner ++ values.drop (index + 1)

namespace Arrow

def step : Arrow → Step
  | identity _ => .identity
  | composite _ _ => .composite
  | onElement _ _ _ _ => .onElement
  | onNot _ => .onNot
  | onAlways _ => .onAlways
  | onBody _ _ _ => .onBody
  | shift _ _ _ _ => .shift
  | group _ _ _ _ => .group
  | ungroup _ _ _ => .ungroup
  | forget _ _ => .forget
  | widen _ _ _ => .widen
  | hide _ _ => .hide
  | reveal _ _ => .reveal
  | unfold _ _ => .unfold
  | fold _ _ => .fold
  | lifted _ _ _ => .lifted

mutual

def source : Arrow → Formula
  | identity a => a
  | composite f _ => f.source
  | onElement k values _ _ => .conj k values
  | onNot f => .not f.target
  | onAlways f => .always f.source
  | onBody q vars f => .quant q vars f.source
  | shift k values _ _ => .conj k values
  | group k values _ _ => .conj k values
  | ungroup k values _ => .conj k values
  | forget values _ => .conj .and values
  | widen values _ _ => .conj .or values
  | hide _ a => a
  | reveal name a => .hidden name a
  | unfold a b => .iff a b
  | fold a b => .bothWays a b
  | lifted _ a _ => a

def target : Arrow → Formula
  | identity a => a
  | composite _ g => g.target
  | onElement k values i f => .conj k (values.set i f.target)
  | onNot f => .not f.source
  | onAlways f => .always f.target
  | onBody q vars f => .quant q vars f.target
  | shift k values start stop => .conj k (moved values start stop)
  | group k values start stop => .conj k (grouped k values start stop)
  | ungroup k values i => .conj k (spliced values i ((nested? k values i).getD []))
  | forget values i => .conj .and (values.eraseIdx i)
  | widen values i x => .conj .or (values.insertIdx i x)
  | hide name a => .hidden name a
  | reveal _ a => a
  | unfold a b => .bothWays a b
  | fold a b => .iff a b
  | lifted _ _ b => b

end

def indexFault? (step : Step) (index length : Nat) : Option Error :=
  if index < length then none else some (.index step index length)

def liftedFault? (expected : Formula) (found : LinearCalculus.Formula) : Option Error :=
  if expected.expand.alphaEq found then none else some (.lifted expected.expand found)

def fault? : Arrow → Option Error
  | composite f g =>
    if f.target = g.source then none else some (.uncomposable f.target g.source)
  | onElement _ values i f =>
    match values[i]? with
    | none => some (.index .onElement i values.length)
    | some v => if v = f.source then none else some (.mismatch .onElement v f.source)
  | shift _ values start stop =>
    (indexFault? .shift start values.length).or (indexFault? .shift stop values.length)
  | group _ values start stop =>
    (indexFault? .group stop (values.length + 1)).or (indexFault? .group start (stop + 1))
  | ungroup k values i =>
    match values[i]? with
    | none => some (.index .ungroup i values.length)
    | some v => if (v.conj? k).isSome then none else some (.notNested v)
  | forget values i => indexFault? .forget i values.length
  | widen values i _ => indexFault? .widen i (values.length + 1)
  | lifted f a b => (liftedFault? a f.source).or (liftedFault? b f.target)
  | _ => none

def checked (f : Arrow) : Except Error Arrow :=
  match f.fault? with
  | some e => .error e
  | none => .ok f

def WellFormed : Arrow → Prop
  | composite f g => f.WellFormed ∧ g.WellFormed ∧ (composite f g).fault? = none
  | onElement k values i f => f.WellFormed ∧ (onElement k values i f).fault? = none
  | onNot f | onAlways f | onBody _ _ f => f.WellFormed
  | lifted f a b => f.WellTyped ∧ (lifted f a b).fault? = none
  | f => f.fault? = none

def eqv : Arrow → Arrow → Bool
  | composite f g, composite f' g' => f.eqv f' && g.eqv g'
  | onElement k values i f, onElement k' values' i' f' =>
    k == k' && values == values' && i == i' && f.eqv f'
  | onNot f, onNot f' => f.eqv f'
  | onAlways f, onAlways f' => f.eqv f'
  | onBody q vars f, onBody q' vars' f' => q == q' && vars == vars' && f.eqv f'
  | lifted f a b, lifted f' a' b' => f.eqv f' && a == a' && b == b'
  | f, f' => f == f'

end Arrow

end LinearCalculus.Surface
