import LinearCalculus.Context.Transformation

/-! Search for formulas in a context that can be moved out of it, or down to its hole.

The layers are tried from the outermost one on. A layer counts if it is a
conjunction whose side formula is wanted; two variables are drawn for each such
layer, and the search stops as soon as it has found as many as it was asked for. -/

namespace LinearCalculus

structure Candidate where
  side : Formula
  transformation : Transformation
  /-- The context without the conjunction that held the side formula. -/
  remainder : Context
  deriving DecidableEq, Repr

inductive Search where
  | importing
  | exporting
  deriving DecidableEq, Repr

namespace Search

def variance : Search → Variance
  | importing => .covariant
  | exporting => .contravariant

def transformation? (search : Search) (outer : Context) (b : Formula) (hole : Side)
    (inner : Context) (x : Formula) : ExceptT TransportError Fresh (Option Transformation) :=
  match search with
  | importing =>
    if outer.isCovariant then do
      let _ ← outer.importAt b (inner.fill x)
      return some (.extract outer b hole inner)
    else return none
  | exporting =>
    if !outer.isCovariant && inner.isCovariant then do
      let _ ← inner.pushAt false b x
      let _ ← (inner.compose outer).exportAt b x
      return some (.insert outer b hole inner)
    else return none

def candidate? (search : Search) (wanted : Formula → Bool) (outside : List Layer) (layer : Layer)
    (inside : List Layer) : Fresh (Option Candidate) :=
  match layer with
  | .conj .and hole b =>
    if wanted b then do
      let outer := Context.ofLayers outside
      let inner := Context.ofLayers inside
      let x ← Context.probe
      match ← (search.transformation? outer b hole inner x).run with
      | .ok (some t) => return some ⟨b, t, inner.compose outer⟩
      | _ => return none
    else return none
  | _ => return none

/-- Candidates among the layers that come after those of `outside`. -/
def amongLayers (search : Search) (wanted : Formula → Bool) :
    Option Nat → List Layer → List Layer → Fresh (List Candidate)
  | _, _, [] => return []
  | limit, outside, layer :: inside =>
    if limit = some 0 then return []
    else do
      match ← search.candidate? wanted outside layer inside with
      | some c =>
        return c :: (← amongLayers search wanted (limit.map (· - 1)) (outside ++ [layer]) inside)
      | none => amongLayers search wanted limit (outside ++ [layer]) inside

end Search

def Context.candidates (c : Context) (search : Search) (wanted : Formula → Bool)
    (limit : Option Nat) : Fresh (List Candidate) :=
  if c.variance = search.variance then search.amongLayers wanted limit [] c.layers
  else return []

end LinearCalculus
