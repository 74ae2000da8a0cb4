import LinearCalculus.Arrow.Basic
import LinearCalculus.Json.Reader

/-! Decoding of JSON: what can go wrong, and how the parts of a value are taken.

Decoding goes from left to right and stops at the first fault. It reserves the
identities of the variables that it meets, also of those before a fault.

A literal comes in one of two forms. A text is decoded as it is read: its members
count in the order in which they are written, and what stands before a fault in
the text is decoded. A value has been read before: its members have no order, so
that a tag is accepted only where it is the only one. -/

namespace LinearCalculus

inductive DecodeError where
  | malformed
  /-- A variable with the identity that is never used. -/
  | outOfRange
  | illTyped (cause : ShapeError)
  deriving DecidableEq, Repr

def DecodeError.message? : DecodeError → Option String
  | malformed => none
  | outOfRange => some "variable identity out of range"
  | illTyped cause => some cause.message

/-- A state that takes note of the variables that decoding meets. -/
class Notes (σ : Type) where
  note : σ → Var → σ

instance : Notes Supply := ⟨Supply.reserve⟩

instance : Notes (List Var) := ⟨fun record v => v :: record⟩

abbrev DecoderOver (σ : Type) := ExceptT DecodeError (StateM σ)

abbrev Decoder := DecoderOver Supply

inductive Form where
  | text
  | value
  deriving DecidableEq, Repr

structure Tagged where
  name : String
  argument : Option Json
  alone : Bool

/-- A tag is a string, or the name of the first member of an object. -/
def Form.tagged? (form : Form) : Json → Option Tagged
  | .string name => do return ⟨← Json.textOf? name, none, true⟩
  | .object ((name, argument) :: rest) => do
    let name ← Json.textOf? name
    if form = .value && !rest.isEmpty then none
    else some ⟨name, some argument, rest.isEmpty⟩
  | _ => none

namespace Decoder

variable {σ : Type}

def malformed {α : Type} : DecoderOver σ α := throw .malformed

def need {α : Type} : Option α → DecoderOver σ α
  | some a => pure a
  | none => malformed

def guard (b : Bool) : DecoderOver σ Unit := if b then pure () else malformed

def var [Notes σ] : Json → DecoderOver σ Var
  | .number lexeme =>
    match Json.natural? lexeme with
    | some id =>
      if id < Supply.capacity then do
        modify fun s => Notes.note s ⟨id⟩
        return ⟨id⟩
      else if id = Supply.capacity then throw .outOfRange
      else malformed
    | none => malformed
  | _ => malformed

/-- One of several names; inside `levels` further brackets it may also be the tag of a null. -/
def choice {α : Type} (form : Form) (levels : Nat) (named : String → Option α) (j : Json) :
    DecoderOver σ α := do
  let t ← need (form.tagged? j)
  let a ← need (named t.name)
  match t.argument with
  | none => return a
  | some .null =>
    guard (0 < levels && t.alone)
    return a
  | some _ => malformed

def connective (form : Form) (levels : Nat) : Json → DecoderOver σ Connective :=
  choice form levels fun
    | "And" => some .and
    | "Or" => some .or
    | _ => none

def quantifier (form : Form) (levels : Nat) : Json → DecoderOver σ Quantifier :=
  choice form levels fun
    | "Forall" => some .all
    | "Exists" => some .ex
    | _ => none

def unit (form : Form) (levels : Nat) : Json → DecoderOver σ Bool :=
  choice form levels fun
    | "True" => some true
    | "False" => some false
    | _ => none

def orientation (form : Form) (levels : Nat) : Json → DecoderOver σ Orientation :=
  choice form levels fun
    | "Forward" => some .forward
    | "Backward" => some .backward
    | _ => none

def argumentOf {α : Type} (form : Form) (decode : String → Json → DecoderOver σ α) (j : Json) :
    DecoderOver σ α := do
  let t ← need (form.tagged? j)
  let argument ← need t.argument
  let a ← decode t.name argument
  guard t.alone
  return a

def item {α : Type} (decode : Json → DecoderOver σ α) : List Json → DecoderOver σ (α × List Json)
  | [] => malformed
  | j :: rest => do return (← decode j, rest)

def two {α β : Type} (first : Json → DecoderOver σ α) (second : Json → DecoderOver σ β)
    (items : List Json) : DecoderOver σ (α × β) := do
  let (a, items) ← item first items
  let (b, items) ← item second items
  guard items.isEmpty
  return (a, b)

def three {α β γ : Type} (first : Json → DecoderOver σ α) (second : Json → DecoderOver σ β)
    (third : Json → DecoderOver σ γ) (items : List Json) : DecoderOver σ (α × β × γ) := do
  let (a, items) ← item first items
  let (b, items) ← item second items
  let (c, items) ← item third items
  guard items.isEmpty
  return (a, b, c)

def four {α β γ δ : Type} (first : Json → DecoderOver σ α) (second : Json → DecoderOver σ β)
    (third : Json → DecoderOver σ γ) (fourth : Json → DecoderOver σ δ) (items : List Json) :
    DecoderOver σ (α × β × γ × δ) := do
  let (a, items) ← item first items
  let (b, items) ← item second items
  let (c, items) ← item third items
  let (d, items) ← item fourth items
  guard items.isEmpty
  return (a, b, c, d)

/-- From a value, which may be nested to any depth. -/
def fromValue {α : Type} (decode : Form → Nat → Json → DecoderOver σ α) (j : Json) :
    DecoderOver σ α :=
  decode .value j.depth j

/-- From a text that holds nothing else. -/
def fromText {α : Type} (decode : Form → Nat → Json → DecoderOver σ α) (text : String) :
    DecoderOver σ α := do
  let document := Json.Document.read text
  let a ← decode .text Json.textLevels document.root
  guard document.complete
  return a

end Decoder

end LinearCalculus
