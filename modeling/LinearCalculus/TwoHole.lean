import LinearCalculus.Context.Transport

namespace LinearCalculus

open Formula (and)

inductive TwoHole where
  | conj (k : Connective) (left right : Context)
  | comp (inner : TwoHole) (outer : Context)
  deriving DecidableEq, Repr

inductive Heading where
  | rightward
  | leftward
  deriving DecidableEq, Repr

def Heading.flip : Heading → Heading
  | rightward => leftward
  | leftward => rightward

def Heading.under (d : Heading) : Variance → Heading
  | .covariant => d
  | .contravariant => d.flip

namespace TwoHole

def compose (h : TwoHole) (outer : Context) : TwoHole :=
  if outer.isHole then h else comp h outer

def leftVariance : TwoHole → Variance
  | conj _ l _ => l.variance
  | comp inner outer => outer.variance.compose inner.leftVariance

def rightVariance : TwoHole → Variance
  | conj _ _ r => r.variance
  | comp inner outer => outer.variance.compose inner.rightVariance

def fill : TwoHole → Formula → Formula → Formula
  | conj k l r, x, y => .conj k (l.fill x) (r.fill y)
  | comp inner outer, x, y => outer.fill (inner.fill x y)

def mapArrows : TwoHole → Arrow → Arrow → Arrow
  | conj k l r, f, g => .onConj k (l.mapArrow f) (r.mapArrow g)
  | comp inner outer, f, g => outer.mapArrow (inner.mapArrows f g)

def text : TwoHole → String
  | conj k l r => "(" ++ l.text ++ " " ++ k.text ++ " " ++ r.text ++ ")"
  | comp inner outer => outer.around inner.text

/-- A chain of the values in which two holes stand at the given positions; the
positions count the holes too. -/
def conjunction (k : Connective) (values : List Formula) (left right : Nat) :
    Except TransportError TwoHole :=
  if left < right ∧ right < values.length + 2 then
    let after (vs : List Formula) : List Layer := vs.map (.conj k .right)
    let before := Context.ofLayers (after (values.take left))
    let tail := Formula.chain k (values.drop (right - 1))
    let between := (values.drop left).take (right - 1 - left)
    let behind := Context.ofLayers (after between ++ [.conj k .left tail])
    .ok ((conj k .hole behind).compose before)
  else .error (.holes left right (values.length + 2))

def expectCovariant (l r : Context) (b : Formula) : Except TransportError Unit :=
  if !l.isCovariant then .error (.untransportable l b)
  else if !r.isCovariant then .error (.untransportable r b)
  else .ok ()

def acrossOr {α : Type} (l r : Context) (b x : Formula) : Except TransportError α :=
  .error (.untransportable (r.compose (.layer (.conj .or .right (l.fill x)))) b)

/-- From `L(B ⊗ x) ⊗ R(y)` to `L(x) ⊗ R(B ⊗ y)`. -/
def moveRight (l r : Context) (b x y : Formula) : ExceptT TransportError Fresh Arrow := do
  let lx := l.fill x
  let ry := r.fill y
  let pulled ← l.importAt b x
  let pushed ← r.pushAt false b y
  (Arrow.onLeft .and pulled ry).joinAll
    [.onLeft .and (.prim (.commute .and b lx)) ry,
      .prim (.associateA .and lx b ry),
      .onRight .and lx pushed]

def moveLeft (l r : Context) (b x y : Formula) : ExceptT TransportError Fresh Arrow := do
  let lx := l.fill x
  let ry := r.fill y
  let pulled ← r.importAt b y
  let pushed ← l.pushAt false b x
  (Arrow.onRight .and lx pulled).joinAll
    [.prim (.associateB .and lx b ry),
      .onLeft .and (.prim (.commute .and lx b)) ry,
      .onLeft .and pushed ry]

/-- Move `b` from one hole to the other: rightward from `H(B ⊗ x, y)` to `H(x, B ⊗ y)`,
leftward back. -/
def transport (h : TwoHole) (b : Formula) (d : Heading) (x y : Formula) :
    ExceptT TransportError Fresh Arrow :=
  match h with
  | conj .and l r => do
    expectCovariant l r b
    match d with
    | .rightward => moveRight l r b x y
    | .leftward => moveLeft l r b x y
  | conj .or l r => acrossOr l r b x
  | comp inner outer => do
    return outer.mapArrow (← inner.transport b (d.under outer.variance) x y)

/-- From `L(B ⊗ x) ⊗ R(y)` to `L(B ⊗ x) ⊗ R(B' ⊗ y)`, where `B` is the exponential of `b₀`
and `B'` a copy of it. -/
def duplicateRight (l r : Context) (b₀ x y : Formula) : ExceptT TransportError Fresh Arrow := do
  let b := Formula.always b₀
  let lx := l.fill x
  let ry := r.fill y
  let lbx := l.fill (and b x)
  let b₀' ← b₀.rename
  let b' := Formula.always b₀'
  let pulled ← l.importAt b x
  let restored ← l.pushAt false b x
  let pushed ← r.pushAt false b' y
  (Arrow.onLeft .and pulled ry).joinAll
    [.onLeft .and (.onLeft .and (.prim (.copy b₀ b₀')) lx) ry,
      .onLeft .and (.prim (.associateA .and b' b lx)) ry,
      .onLeft .and (.onRight .and b' restored) ry,
      .prim (.associateA .and b' lbx ry),
      .onRight .and b' (.prim (.commute .and lbx ry)),
      .prim (.associateB .and b' ry lbx),
      .onLeft .and pushed lbx,
      .prim (.commute .and (r.fill (and b' y)) lbx)]

/-- Copy the exponential `b` from the left hole to the right one: from `H(B ⊗ x, y)` to
`H(B ⊗ x, B' ⊗ y)`. Below a contravariant context the arrow forgets `b` at the right
hole instead, and `B'` is `B` itself. -/
def transportDuplicating (h : TwoHole) (b x y : Formula) : ExceptT TransportError Fresh Arrow :=
  match b.always? with
  | none => throw (.untransportable (.layer .always) b)
  | some b₀ =>
    match h with
    | conj .and l r => do
      expectCovariant l r b
      duplicateRight l r b₀ x y
    | conj .or l r => acrossOr l r b x
    | comp inner outer =>
      match outer.variance, inner.rightVariance with
      | .covariant, _ => do return outer.mapArrow (← inner.transportDuplicating b x y)
      | .contravariant, .covariant => do
        let discard ← (Arrow.prim (.commute .and b y)).joinAll [.prim (.forget y b)]
        return outer.mapArrow (inner.mapArrows (.identity (and b x)) discard)
      | .contravariant, .contravariant => throw (.variance .duplicating .covariant)

end TwoHole

end LinearCalculus
