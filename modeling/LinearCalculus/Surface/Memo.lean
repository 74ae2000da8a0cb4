import LinearCalculus.Surface.Expansion

/-! Expansion with a table of the formulas that have been expanded before.

Every formula on the way is recorded. An equivalence is expanded by way of the
conjunction of both implications, so that this larger formula is recorded too. -/

namespace LinearCalculus.Surface

namespace Formula

mutual

/-- A measure by which an equivalence outweighs the conjunction of both implications. -/
def weight : Formula → Nat
  | holds _ _ | identical _ _ => 1
  | not f | always f | quant _ _ f | hidden _ f => f.weight + 1
  | conj _ fs => weightList fs + 1
  | implies a b => a.weight + b.weight + 1
  | iff a b => 2 * (a.weight + b.weight) + 6

def weightList : List Formula → Nat
  | [] => 0
  | f :: fs => f.weight + weightList fs + 1

end

end Formula

abbrev Memo := List (Formula × LinearCalculus.Formula)

namespace Memo

def find? : Memo → Formula → Option LinearCalculus.Formula
  | [], _ => none
  | (f, t) :: rest, g => if f = g then some t else find? rest g

/-- The expansion of a formula from the table, or one that is computed and recorded. -/
def record (f : Formula) (compute : StateM Memo LinearCalculus.Formula) :
    StateM Memo LinearCalculus.Formula := do
  match (← get).find? f with
  | some t => return t
  | none =>
    let t ← compute
    modify ((f, t) :: ·)
    return t

mutual

def formula (f : Formula) : StateM Memo LinearCalculus.Formula :=
  record f <| match f with
    | .holds a b => pure (.holds a b)
    | .identical a b => pure (.identical a b)
    | .not g => do return .not (← formula g)
    | .conj k gs => do return .chain k (← formulas gs)
    | .always g => do return .always (← formula g)
    | .quant q vs g => do return vs.foldr (.quant q) (← formula g)
    | .implies a b => do
      let a ← formula a
      let b ← formula b
      return Formula.expandImplies a b
    | .iff a b => formula (.bothWays a b)
    | .hidden _ g => formula g
termination_by f.weight
decreasing_by
  all_goals simp only [Formula.bothWays, Formula.weight, Formula.weightList]; omega

def formulas : List Formula → StateM Memo (List LinearCalculus.Formula)
  | [] => return []
  | f :: fs => do
    let t ← formula f
    return t :: (← formulas fs)
termination_by fs => Formula.weightList fs
decreasing_by
  all_goals simp only [Formula.weightList]; omega

end

/-- Expand an arrow. Its formulas are expanded in the order in which they are needed, and a
fault leaves those recorded that come before it. -/
def arrow : Arrow → ExceptT ExpandError (StateM Memo) LinearCalculus.Arrow
  | .identity a | .hide _ a | .reveal _ a => do return .identity (← formula a)
  | .composite f g => do
    let f ← arrow f
    let g ← arrow g
    (f.compose g).mapError ExpandError.shape
  | .onElement k values i f => do
    let ws ← formulas values
    return (Chain.element k ws i).mapArrow (← arrow f)
  | .onNot f => do return .onNot (← arrow f)
  | .onAlways f => do return .onAlways (← arrow f)
  | .onBody q vars f => do return vars.foldr (.onBody q) (← arrow f)
  | .shift k values start stop => do Arrow.rearranged (Chain.shift k (← formulas values) start stop)
  | .group k values start stop => do Arrow.rearranged (Chain.group k (← formulas values) start stop)
  | .ungroup k values i =>
    match nested? k values i with
    | some inner => do
      let before ← formulas (values.take i)
      let inside ← formulas inner
      let after ← formulas (values.drop (i + 1))
      Arrow.expandUngroup k (before ++ inside ++ after) i inner.length
    | none => throw (.surface (.notNested (values[i]?.getD (.conj k []))))
  | .forget values i => do Arrow.rearranged (Chain.forget (← formulas values) i)
  | .widen values i x => do
    let ws ← formulas values
    Arrow.rearranged (Chain.widen ws i (← formula x))
  | .unfold a b | .fold a b => do return .identity (← formula (.bothWays a b))
  | .lifted f _ _ => return f

end Memo

end LinearCalculus.Surface
