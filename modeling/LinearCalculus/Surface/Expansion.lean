import LinearCalculus.Arrow.Compress
import LinearCalculus.Context.Basic
import LinearCalculus.Surface.Arrow

/-! Arrows of the calculus that surface arrows stand for.

A list of values becomes a chain closed by the unit. What a surface arrow does to a
list is done to the chain by primitive rules at the right place: elements move by
changing places with their neighbours, and a group is formed from its end. -/

namespace LinearCalculus

open Formula (chain)

namespace Chain

def position (k : Connective) (before : List Formula) : Context :=
  .ofLayers (before.map (.conj k .right))

def element (k : Connective) (ws : List Formula) (i : Nat) : Context :=
  (Context.layer (.conj k .left (chain k (ws.drop (i + 1))))).compose (position k (ws.take i))

def swapFirst (k : Connective) (a b : Formula) (rest : Formula) : Except ShapeError Arrow :=
  (Arrow.prim (.associateB k a b rest)).chain
    [.onLeft k (.prim (.commute k a b)) rest, .prim (.associateA k b a rest)]

def swap (k : Connective) (ws : List Formula) (p : Nat) : Except ShapeError Arrow :=
  match ws.drop p with
  | a :: b :: rest => do
    return (position k (ws.take p)).mapArrow (← swapFirst k a b (chain k rest))
  | _ => .ok (.identity (chain k ws))

def swapped (ws : List Formula) (p : Nat) : List Formula :=
  match ws.drop p with
  | a :: b :: rest => ws.take p ++ b :: a :: rest
  | _ => ws

/-- The places at which neighbours change when an element moves. -/
def swaps (start stop : Nat) : List Nat :=
  if start ≤ stop then List.range' start (stop - start)
  else (List.range' stop (start - stop)).reverse

def swapAll (k : Connective) : List Nat → List Formula → Arrow → Except ShapeError Arrow
  | [], _, f => .ok f
  | p :: ps, ws, f => do
    let next ← swap k ws p
    swapAll k ps (swapped ws p) (← f.compose next)

def shift (k : Connective) (ws : List Formula) (start stop : Nat) : Except ShapeError Arrow :=
  swapAll k (swaps start stop) ws (.identity (chain k ws))

/-- Split the leading elements off a chain into a chain of their own. -/
def nest (k : Connective) (rest : Formula) : List Formula → Except ShapeError Arrow
  | [] => (Arrow.prim (.introUnit k rest)).compose (.prim (.commute k rest (.unit k.unit)))
  | g :: gs => do
    let inner ← nest k rest gs
    (Arrow.onRight k g inner).compose (.prim (.associateB k g (chain k gs) rest))

def group (k : Connective) (ws : List Formula) (start stop : Nat) : Except ShapeError Arrow := do
  let nested ← nest k (chain k (ws.drop stop)) (Surface.segment ws start stop)
  return (position k (ws.take start)).mapArrow nested

def forget (ws : List Formula) (i : Nat) : Except ShapeError Arrow := do
  let v := ws[i]?.getD (.unit true)
  let shifted ← shift .and ws i (ws.length - 1)
  let drop ← (Arrow.prim (.commute .and v (.unit true))).compose (.prim (.forget (.unit true) v))
  shifted.compose ((position .and (ws.eraseIdx i)).mapArrow drop)

def widen (ws : List Formula) (i : Nat) (x : Formula) : Except ShapeError Arrow := do
  let rest := chain .or (ws.drop i)
  let insert ← (Arrow.prim (.widen rest x)).compose (.prim (.commute .or rest x))
  return (position .or (ws.take i)).mapArrow insert

end Chain

namespace Surface

inductive ExpandError where
  | surface (cause : Error)
  | shape (cause : ShapeError)
  | notInvertible (cause : NotInvertible)
  deriving DecidableEq, Repr

def ExpandError.message : ExpandError → String
  | surface cause => cause.message
  | shape cause => cause.message
  | notInvertible cause => cause.message

namespace Arrow

def rearranged (f : Except ShapeError LinearCalculus.Arrow) :
    Except ExpandError LinearCalculus.Arrow :=
  match f with
  | .ok f => .ok f.compress
  | .error e => .error (.shape e)

def expandUngroup (k : Connective) (ws : List LinearCalculus.Formula) (i count : Nat) :
    Except ExpandError LinearCalculus.Arrow := do
  let f ← (Chain.group k ws i (i + count)).mapError .shape
  let r ← f.reverse.mapError .notInvertible
  return r.compress

def expand : Arrow → Except ExpandError LinearCalculus.Arrow
  | identity a => .ok (.identity a.expand)
  | composite f g => do
    let f ← f.expand
    let g ← g.expand
    (f.compose g).mapError .shape
  | onElement k values i f => do
    return (Chain.element k (values.map Formula.expand) i).mapArrow (← f.expand)
  | onNot f => do return .onNot (← f.expand)
  | onAlways f => do return .onAlways (← f.expand)
  | onBody q vars f => do return vars.foldr (.onBody q) (← f.expand)
  | shift k values start stop => rearranged (Chain.shift k (values.map Formula.expand) start stop)
  | group k values start stop => rearranged (Chain.group k (values.map Formula.expand) start stop)
  | ungroup k values i =>
    match nested? k values i with
    | some inner => expandUngroup k ((spliced values i inner).map Formula.expand) i inner.length
    | none => .error (.surface (.notNested (values[i]?.getD (.conj k []))))
  | forget values i => rearranged (Chain.forget (values.map Formula.expand) i)
  | widen values i x => rearranged (Chain.widen (values.map Formula.expand) i x.expand)
  | hide _ a => .ok (.identity a.expand)
  | reveal _ a => .ok (.identity a.expand)
  | unfold a b => .ok (.identity (Formula.bothWays a b).expand)
  | fold a b => .ok (.identity (Formula.bothWays a b).expand)
  | lifted f _ _ => .ok f

end Arrow

end Surface

end LinearCalculus
