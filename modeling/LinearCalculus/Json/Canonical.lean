import LinearCalculus.Json.Reader
import LinearCalculus.Json.Writer

/-! The one form of all documents that denote the same value.

The members of an object have no order and at most one value for each name: they
are sorted by name, and of several members with one name the last one counts.
Strings are written with no more escapes than they need. Numbers stay as they are,
but those too large for double precision denote nothing. -/

namespace LinearCalculus.Json

structure Decimal where
  digits : Nat
  exponent : Int
  deriving DecidableEq, Repr

def digitsValue (s : List Char) : Nat := (natural? s).getD 0

def exponentValue : List Char → Int
  | _ :: '-' :: s => -(digitsValue s : Int)
  | _ :: '+' :: s => digitsValue s
  | _ :: s => digitsValue s
  | [] => 0

def magnitude (lexeme : List Char) : Decimal :=
  let (whole, s) := digits (lexeme.dropWhile (· == '-'))
  let (fraction, s) := match s with
    | '.' :: s => digits s
    | s => ([], s)
  ⟨digitsValue (whole ++ fraction), exponentValue s - fraction.length⟩

/-- Halfway from the largest number of double precision to the next power of two: what is
not below it has no nearest double. -/
def doubleBound : Nat := Nat.pow 2 1024 - Nat.pow 2 970

/-- Whether a number is below the bound. It has 309 digits, so that only numbers of as many
digits have to be compared. -/
def Decimal.fitsDouble (d : Decimal) : Bool :=
  let places := (Nat.toDigits 10 d.digits).length + d.exponent
  if d.digits = 0 then true
  else if places < 309 then true
  else if 309 < places then false
  else d.digits * Nat.pow 10 d.exponent.toNat < doubleBound * Nat.pow 10 (-d.exponent).toNat

/-- Put a member in front of members that are sorted by name, none of which it replaces. -/
def insertMember (name : List Char) (v : Json) :
    List (List Char × Json) → List (List Char × Json)
  | [] => [(name, v)]
  | (name', v') :: rest =>
    if name < name' then (name, v) :: (name', v') :: rest
    else if name = name' then (name', v') :: rest
    else (name', v') :: insertMember name v rest

mutual

def canonical? : Json → Option Json
  | string lexeme => do return string (escape (← unescape lexeme))
  | array items => do return array (← canonicalItems? items)
  | object members => do
    return object ((← canonicalMembers? members).map fun (name, v) => (escape name, v))
  | broken => none
  | null => some null
  | bool value => some (bool value)
  | number lexeme => if (magnitude lexeme).fitsDouble then some (number lexeme) else none

def canonicalItems? : List Json → Option (List Json)
  | [] => some []
  | v :: rest => do return (← v.canonical?) :: (← canonicalItems? rest)

def canonicalMembers? : List (List Char × Json) → Option (List (List Char × Json))
  | [] => some []
  | (name, v) :: rest => do
    let name ← unescape name
    let v ← v.canonical?
    return insertMember name v (← canonicalMembers? rest)

end

def ofText? (text : String) : Option Json :=
  let document := Document.read text
  if document.complete && document.root.depth ≤ textLevels then document.root.canonical? else none

def member? (name : String) : Json → Option Json
  | object members => members.lookup (escape name.toList)
  | _ => none

def text? : Json → Option String
  | string lexeme => textOf? lexeme
  | _ => none

end LinearCalculus.Json
