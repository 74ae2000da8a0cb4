import LinearCalculus.Context.Transport

namespace LinearCalculus

open Formula (and)

inductive Transformation where
  | importing (context : Context) (side : Formula)
  | lifting (context : Context) (side : Formula)
  | exporting (context : Context) (side : Formula)
  /-- From `P(B ⊗ Q(x))` to `B ⊗ P(Q(x))`, with `Q(x)` on the given side of `B`. -/
  | extract (outer : Context) (side : Formula) (hole : Side) (inner : Context)
  /-- From `P(Q(B ⊗ x))` to `P(B ⊗ Q(x))` for contravariant `P`, with `Q(x)` on the given side. -/
  | insert (outer : Context) (side : Formula) (hole : Side) (inner : Context)
  deriving DecidableEq, Repr

def Side.place (hole : Side) (b y : Formula) : Formula :=
  match hole with
  | .left => and y b
  | .right => and b y

namespace Transformation

def source (t : Transformation) (x : Formula) : Formula :=
  match t with
  | importing c b => c.fill (and b x)
  | lifting c b => and b (c.fill x)
  | exporting c b => and b (c.fill (and b x))
  | extract outer b hole inner => outer.fill (hole.place b (inner.fill x))
  | insert outer b _ inner => outer.fill (inner.fill (and b x))

def target (t : Transformation) (x : Formula) : Formula :=
  match t with
  | importing c b => and b (c.fill x)
  | lifting c b => c.fill (and b x)
  | exporting c _ => c.fill x
  | extract outer b _ inner => and b (outer.fill (inner.fill x))
  | insert outer b hole inner => outer.fill (hole.place b (inner.fill x))

def arrowAt (t : Transformation) (x : Formula) : ExceptT TransportError Fresh Arrow :=
  match t with
  | importing c b => c.importAt b x
  | lifting c b => c.liftAt b x
  | exporting c b => c.exportAt b x
  | extract outer b hole inner => do
    let pulled ← outer.importAt b (inner.fill x)
    match hole with
    | .right => return pulled
    | .left => (outer.mapArrow (.prim (.commute .and (inner.fill x) b))).joinAll [pulled]
  | insert outer b hole inner => do
    let pushed ← inner.pushAt false b x
    match hole with
    | .right => return outer.mapArrow pushed
    | .left =>
      let placed ← (Arrow.prim (.commute .and (inner.fill x) b)).joinAll [pushed]
      return outer.mapArrow placed

end Transformation

namespace Context

def expect (c : Context) (operation : Operation) (v : Variance) : Except TransportError Unit :=
  if c.variance = v then .ok () else .error (.variance operation v)

/-- A content of the hole that shows whether a transformation exists. -/
def probe : Fresh Formula := do
  let a ← fresh
  let b ← fresh
  return .holds a b

def importSide (c : Context) (b : Formula) : ExceptT TransportError Fresh Transformation := do
  c.expect .importing .covariant
  let x ← probe
  let _ ← c.importAt b x
  return .importing c b

def liftSide (c : Context) (b : Formula) : ExceptT TransportError Fresh Transformation := do
  c.expect .lifting .covariant
  let x ← probe
  let _ ← c.liftAt b x
  return .lifting c b

def exportSide (c : Context) (b : Formula) : ExceptT TransportError Fresh Transformation := do
  c.expect .exporting .contravariant
  let x ← probe
  let _ ← c.exportAt b x
  return .exporting c b

end Context

end LinearCalculus
