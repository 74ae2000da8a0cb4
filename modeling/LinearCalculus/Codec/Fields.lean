import LinearCalculus.Codec.Formula

namespace LinearCalculus

inductive Field where
  | body
  | witness
  | bound
  | left
  | right
  | direction
  deriving DecidableEq, Repr

def Field.name : Field → String
  | body => "body"
  | witness => "witness"
  | bound => "bound"
  | left => "left"
  | right => "right"
  | direction => "direction"

structure Fields where
  body : Option Formula := none
  witness : Option Var := none
  bound : Option Var := none
  left : Option Var := none
  right : Option Var := none
  direction : Option Orientation := none
  deriving DecidableEq, Repr

def Fields.has (fs : Fields) : Field → Bool
  | .body => fs.body.isSome
  | .witness => fs.witness.isSome
  | .bound => fs.bound.isSome
  | .left => fs.left.isSome
  | .right => fs.right.isSome
  | .direction => fs.direction.isSome

namespace Decoder

variable {σ : Type} [Notes σ]

def field (form : Form) (levels : Nat) (fs : Fields) (f : Field) (j : Json) :
    DecoderOver σ Fields := do
  match f with
  | .body => return { fs with body := some (← formula form levels j) }
  | .witness => return { fs with witness := some (← var j) }
  | .bound => return { fs with bound := some (← var j) }
  | .left => return { fs with left := some (← var j) }
  | .right => return { fs with right := some (← var j) }
  | .direction => return { fs with direction := some (← orientation form levels j) }

/-- Decode the members that name a field, each at most once, and pass over the others. -/
def members (form : Form) (levels : Nat) (fields : List Field) :
    Fields → List (List Char × Json) → DecoderOver σ Fields
  | fs, [] => return fs
  | fs, (name, j) :: rest => do
    let name ← need (Json.textOf? name)
    match fields.find? (·.name == name) with
    | some f =>
      guard !fs.has f
      members form levels fields (← field form levels fs f j) rest
    | none =>
      guard j.isWhole
      members form levels fields fs rest

def inOrder (form : Form) (levels : Nat) : List Field → Fields → List Json → DecoderOver σ Fields
  | [], fs, [] => return fs
  | f :: fields, fs, j :: items => do
    inOrder form levels fields (← field form levels fs f j) items
  | _, _, _ => malformed

def fields (form : Form) (names : List Field) : Nat → Json → DecoderOver σ Fields
  | levels + 1, .object ms => members form levels names {} ms
  | levels + 1, .array items =>
    if form = .text then inOrder form levels names {} items else malformed
  | _, _ => malformed

end Decoder

end LinearCalculus
