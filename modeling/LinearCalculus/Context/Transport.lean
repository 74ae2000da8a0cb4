import LinearCalculus.Context.Basic

/-! Moving a formula across the hole of a context.

Take a side formula `B` and a content `x` of the hole of `F`. To import leads from
`F(B ⊗ x)` to `B ⊗ F(x)`, to push from `B ⊗ F(x)` to `F(B ⊗ x)`, and to export from
`B ⊗ F(B ⊗ x)` to `F(x)`, the last one for contravariant `F`.

Each is defined on single layers and follows the grouping of a context. Two
contravariant contexts in each other are crossed by removing a double negation
where they meet; where they do not meet in one, push goes through two exports. -/

namespace LinearCalculus

open Formula (and)

inductive Operation where
  | importing
  | lifting
  | exporting
  | duplicating
  deriving DecidableEq, Repr

def Operation.name : Operation → String
  | importing => "import"
  | lifting => "lift"
  | exporting => "export"
  | duplicating => "transport_duplicating"

inductive TransportError where
  | untransportable (context : Context) (side : Formula)
  | captured (var : Var) (side : Formula)
  | variance (operation : Operation) (expected : Variance)
  /-- Positions of two holes that do not fit into a list. -/
  | holes (left right length : Nat)
  | shape (cause : ShapeError)
  deriving DecidableEq, Repr

def TransportError.message : TransportError → String
  | untransportable context side => "cannot move " ++ side.text ++ " across " ++ context.text
  | captured var side => side.text ++ " mentions " ++ var.text ++ ", which is bound by the hole"
  | variance operation expected => operation.name ++ " requires a " ++ expected.text ++ " hole"
  | holes left right length =>
    "invalid holes " ++ toString left ++ " and " ++ toString right ++ " among " ++
      toString length ++ " values"
  | shape cause => cause.message

def Arrow.fitting (f : Arrow) : Except TransportError Arrow := f.checked.mapError .shape

def Arrow.joinAll (first : Arrow) (rest : List Arrow) : Except TransportError Arrow :=
  (first.chain rest).mapError .shape

namespace Layer

def notCaptured (v : Var) (b : Formula) : Except TransportError Unit :=
  if b.isFree v then .error (.captured v b) else .ok ()

/-- From `!(B ⊗ x)` to `B ⊗ !x`: copy all of it, keep `B` of one copy and `x` of the other. -/
def importAlways (b x b' x' : Formula) : Except TransportError Arrow := do
  let copy ← (Arrow.prim (.copy (and b x) (and b' x'))).fitting
  let keepSide ← (Arrow.onAlways (.prim (.forget b' x'))).joinAll [.prim (.derelict b')]
  let keepContent ← (Arrow.prim (.commute .and b x)).joinAll [.prim (.forget x b)]
  copy.joinAll [.onConj .and keepSide (.onAlways keepContent)]

/-- From `l ⊗ (B ⊗ x)` to `B ⊗ (l ⊗ x)`. -/
def exchange (l b x : Formula) : Except TransportError Arrow :=
  (Arrow.prim (.associateB .and l b x)).joinAll
    [.onLeft .and (.prim (.commute .and l b)) x, .prim (.associateA .and b l x)]

def importAt (layer : Layer) (b x : Formula) : ExceptT TransportError Fresh Arrow :=
  match layer with
  | always =>
    if b.always?.isSome then do
      let b' ← b.rename
      let x' ← x.rename
      importAlways b x b' x'
    else throw (.untransportable (.layer layer) b)
  | quant .ex v => do
    notCaptured v b
    (Arrow.prim (.existsPastAnd b v x)).fitting
  | conj .and .left r => pure (.prim (.associateA .and b x r))
  | conj .and .right l => exchange l b x
  | not | quant .all _ | conj .or _ _ => throw (.untransportable (.layer layer) b)

/-- With `invertible`, only what import undoes. -/
def pushAt (invertible : Bool) (layer : Layer) (b x : Formula) : Except TransportError Arrow :=
  match layer with
  | always =>
    match invertible, b.always? with
    | false, some b₀ =>
      (Arrow.onLeft .and (.prim (.cojoin b₀)) (.always x)).joinAll [.prim (.zip b x)]
    | _, _ => throw (.untransportable (.layer layer) b)
  | quant .ex v => do
    notCaptured v b
    (Arrow.prim (.andPastExists b v x)).fitting
  | conj .and .left r => pure (.prim (.associateB .and b x r))
  | conj .and .right l => exchange b l x
  | not | quant .all _ | conj .or _ _ => throw (.untransportable (.layer layer) b)

def exportAt (layer : Layer) (b x : Formula) : Except TransportError Arrow :=
  match layer with
  | not =>
    (Arrow.onRight .and b (.onNot (.prim (.commute .and x b)))).joinAll
      [.prim (.commute .and b (.not (and x b))), .prim (.apply x b)]
  | _ => throw (.untransportable (.layer layer) b)

end Layer

namespace Context

/-- Two contexts that meet in a double negation, without it: the outer one first. -/
def bridge? (inner outer : Context) : Option (Context × Context) :=
  match outer.layers.getLast?, inner.layers with
  | some .not, .not :: rest => some (ofLayers outer.layers.dropLast, ofLayers rest)
  | _, _ => none

theorem nodes_of_bridge? {inner outer inner' outer' : Context}
    (found : bridge? inner outer = some (outer', inner')) :
    (inner'.compose outer').nodes < (comp inner outer).nodes := by
  unfold bridge? at found
  split at found
  · rename_i rest outer_last inner_layers
    simp only [Option.some.injEq, Prod.mk.injEq] at found
    obtain ⟨rfl, rfl⟩ := found
    have composed := nodes_compose_le (ofLayers rest) (ofLayers outer.layers.dropLast)
    have inner_le := nodes_ofLayers_le rest
    have outer_le := nodes_ofLayers_le outer.layers.dropLast
    have inner_length := two_mul_length_layers_le inner
    have outer_length := two_mul_length_layers_le outer
    have outer_pos : 0 < outer.layers.length :=
      List.length_pos_of_mem (List.mem_of_getLast? outer_last)
    rw [inner_layers, List.length_cons] at inner_length
    rw [List.length_dropLast] at outer_le
    simp only [nodes]
    omega
  · cases found

/-- From `F(B ⊗ x)` to `B ⊗ F(x)`. -/
def importAt (c : Context) (b x : Formula) : ExceptT TransportError Fresh Arrow :=
  match c with
  | hole => pure (.identity (and b x))
  | layer l => l.importAt b x
  | comp inner outer =>
    match inner.variance, outer.variance with
    | .covariant, .covariant => do
      let inside ← inner.importAt b x
      let outside ← outer.importAt b (inner.fill x)
      (outer.mapArrow inside).joinAll [outside]
    | .contravariant, .contravariant =>
      match _found : bridge? inner outer with
      | some (outer', inner') => do
        let through ← (inner'.compose outer').importAt b x
        (outer'.mapArrow (.prim (.removeDoubleDual (inner'.fill (and b x))))).joinAll
          [through,
            .onRight .and b (outer'.mapArrow (.prim (.introDoubleDual (inner'.fill x))))]
      | none => throw (.untransportable (comp inner outer) b)
    | _, _ => throw (.untransportable (comp inner outer) b)
termination_by c.nodes
decreasing_by
  · simp only [nodes]; omega
  · simp only [nodes]; omega
  · exact nodes_of_bridge? _found

mutual

/-- From `B ⊗ F(x)` to `F(B ⊗ x)`. With `invertible`, only the inverse of import;
otherwise an exponential `B` may also enter an exponential context, and negations
that are not adjacent are crossed by exporting `B` twice. -/
def pushAt (invertible : Bool) (c : Context) (b x : Formula) : Except TransportError Arrow :=
  match c with
  | hole => .ok (.identity (and b x))
  | layer l => l.pushAt invertible b x
  | comp inner outer =>
    match inner.variance, outer.variance with
    | .covariant, .covariant => do
      let outside ← outer.pushAt invertible b (inner.fill x)
      let inside ← inner.pushAt invertible b x
      outside.joinAll [outer.mapArrow inside]
    | .contravariant, .contravariant =>
      match _found : bridge? inner outer with
      | some (outer', inner') => do
        let through ← (inner'.compose outer').pushAt invertible b x
        (Arrow.onRight .and b
            (outer'.mapArrow (.prim (.removeDoubleDual (inner'.fill x))))).joinAll
          [through, outer'.mapArrow (.prim (.introDoubleDual (inner'.fill (and b x))))]
      | none =>
        if invertible then .error (.untransportable (comp inner outer) b)
        else do
          let inside ← inner.exportAt b x
          let outside ← outer.exportAt b (inner.fill (and b x))
          (Arrow.onRight .and b (outer.mapArrow inside)).joinAll [outside]
    | _, _ => .error (.untransportable (comp inner outer) b)
termination_by c.nodes
decreasing_by
  · simp only [nodes]; omega
  · simp only [nodes]; omega
  · exact nodes_of_bridge? _found
  · simp only [nodes]; omega
  · simp only [nodes]; omega

/-- From `B ⊗ F(B ⊗ x)` to `F(x)`. -/
def exportAt (c : Context) (b x : Formula) : Except TransportError Arrow :=
  match c with
  | hole => .error (.untransportable hole b)
  | layer l => l.exportAt b x
  | comp inner outer =>
    match inner.variance, outer.variance with
    | .contravariant, .covariant => do
      let outside ← outer.pushAt false b (inner.fill (and b x))
      let inside ← inner.exportAt b x
      outside.joinAll [outer.mapArrow inside]
    | .covariant, .contravariant => do
      let inside ← inner.pushAt false b x
      let outside ← outer.exportAt b (inner.fill x)
      (Arrow.onRight .and b (outer.mapArrow inside)).joinAll [outside]
    | _, _ => .error (.untransportable (comp inner outer) b)
termination_by c.nodes
decreasing_by
  all_goals simp only [nodes]; omega

end

def liftAt (c : Context) (b x : Formula) : Except TransportError Arrow := c.pushAt true b x

end Context

end LinearCalculus
