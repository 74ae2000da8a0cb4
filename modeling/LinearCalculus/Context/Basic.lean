import LinearCalculus.Arrow.Basic

namespace LinearCalculus

inductive Variance where
  | covariant
  | contravariant
  deriving DecidableEq, Repr

namespace Variance

def flip : Variance → Variance
  | covariant => contravariant
  | contravariant => covariant

def compose : Variance → Variance → Variance
  | covariant, v => v
  | contravariant, v => v.flip

def text : Variance → String
  | covariant => "covariant"
  | contravariant => "contravariant"

end Variance

inductive Side where
  | left
  | right
  deriving DecidableEq, Repr

inductive Layer where
  | not
  | always
  | quant (q : Quantifier) (v : Var)
  | conj (k : Connective) (hole : Side) (other : Formula)
  deriving DecidableEq, Repr

namespace Layer

def variance : Layer → Variance
  | not => .contravariant
  | _ => .covariant

def fill : Layer → Formula → Formula
  | not, x => .not x
  | always, x => .always x
  | quant q v, x => .quant q v x
  | conj k .left other, x => .conj k x other
  | conj k .right other, x => .conj k other x

def mapArrow : Layer → Arrow → Arrow
  | not, f => .onNot f
  | always, f => .onAlways f
  | quant q v, f => .onBody q v f
  | conj k .left other, f => .onLeft k f other
  | conj k .right other, f => .onRight k other f

def around : Layer → String → String
  | not, s => "¬" ++ s
  | always, s => "!" ++ s
  | quant q v, s => "(" ++ q.text ++ v.text ++ ". " ++ s ++ ")"
  | conj k .left other, s => "(" ++ s ++ " " ++ k.text ++ " " ++ other.text ++ ")"
  | conj k .right other, s => "(" ++ other.text ++ " " ++ k.text ++ " " ++ s ++ ")"

def eqv : Layer → Layer → Bool
  | not, not => true
  | always, always => true
  | quant q v, quant q' v' => q == q' && v == v'
  | conj k hole other, conj k' hole' other' => k == k' && hole == hole' && other.alphaEq other'
  | _, _ => false

def eqvAll : List Layer → List Layer → Bool
  | [], [] => true
  | a :: as, b :: bs => a.eqv b && eqvAll as bs
  | _, _ => false

end Layer

inductive Context where
  | hole
  | layer (l : Layer)
  | comp (inner outer : Context)
  deriving DecidableEq, Repr

namespace Context

def isHole : Context → Bool
  | hole => true
  | _ => false

def variance : Context → Variance
  | hole => .covariant
  | layer l => l.variance
  | comp inner outer => outer.variance.compose inner.variance

def isCovariant (c : Context) : Bool := c.variance == .covariant

/-- Put a context into the hole of another one; a bare hole leaves no trace. -/
def compose (inner outer : Context) : Context :=
  if inner.isHole then outer else if outer.isHole then inner else comp inner outer

/-- Put contexts into each other, the outermost one given first. -/
def nest (contexts : List Context) : Context :=
  contexts.foldr (fun outer inner => inner.compose outer) hole

def fill : Context → Formula → Formula
  | hole, x => x
  | layer l, x => l.fill x
  | comp inner outer, x => outer.fill (inner.fill x)

def mapArrow : Context → Arrow → Arrow
  | hole, f => f
  | layer l, f => l.mapArrow f
  | comp inner outer, f => outer.mapArrow (inner.mapArrow f)

def layers : Context → List Layer
  | hole => []
  | layer l => [l]
  | comp inner outer => outer.layers ++ inner.layers

def ofLayers (ls : List Layer) : Context := nest (ls.map layer)

def binders (c : Context) : List Var :=
  c.layers.filterMap fun
    | .quant _ v => some v
    | _ => none

/-- Two contexts are equal if their layers are, however they were grouped. -/
def eqv (c d : Context) : Bool := Layer.eqvAll c.layers d.layers

def around (c : Context) (s : String) : String := c.layers.foldr Layer.around s

def text (c : Context) : String := c.around "□"

def nodes : Context → Nat
  | hole => 0
  | layer _ => 1
  | comp inner outer => inner.nodes + outer.nodes + 1

theorem two_mul_length_layers_le (c : Context) : 2 * c.layers.length ≤ c.nodes + 1 := by
  induction c with
  | hole => simp [layers, nodes]
  | layer l => simp [layers, nodes]
  | comp inner outer inner_le outer_le =>
    simp only [layers, nodes, List.length_append]
    omega

theorem nodes_compose_le (inner outer : Context) :
    (inner.compose outer).nodes ≤ inner.nodes + outer.nodes + 1 := by
  unfold compose
  split
  · omega
  · split
    · omega
    · exact Nat.le_refl _

theorem nodes_ofLayers_le (ls : List Layer) : (ofLayers ls).nodes ≤ 2 * ls.length := by
  induction ls with
  | nil => exact Nat.le_refl _
  | cons l ls ih =>
    have step := nodes_compose_le (ofLayers ls) (layer l)
    have unfolded : ofLayers (l :: ls) = (ofLayers ls).compose (layer l) := rfl
    simp only [unfolded, List.length_cons, nodes] at *
    omega

end Context

end LinearCalculus
