import LinearCalculus.Json.Basic

/-! Reading JSON from a text.

Each reader returns what it has read and the rest of the text, or no rest if the
text broke off on the way. The first argument of the recursive readers bounds
their nesting; twice the length of the text is enough, since a bracket, a comma or
a value is consumed between every second call. -/

namespace LinearCalculus.Json

def isBlank (c : Char) : Bool := c == ' ' || c == '\n' || c == '\t' || c == '\r'

def skipBlanks (s : List Char) : List Char := s.dropWhile isBlank

def digits (s : List Char) : List Char × List Char :=
  (s.takeWhile Char.isDigit, s.dropWhile Char.isDigit)

def digits? (s : List Char) : Option (List Char × List Char) :=
  match digits s with
  | ([], _) => none
  | run => some run

def integer? (s : List Char) : Option (List Char × List Char) :=
  match digits s with
  | ([], _) => none
  | ('0' :: _ :: _, _) => none
  | run => some run

def fraction? : List Char → Option (List Char × List Char)
  | '.' :: s => (digits? s).map fun (run, rest) => ('.' :: run, rest)
  | s => some ([], s)

def exponent? : List Char → Option (List Char × List Char)
  | c :: s =>
    if c == 'e' || c == 'E' then
      match s with
      | sign :: s' =>
        if sign == '+' || sign == '-' then
          (digits? s').map fun (run, rest) => (c :: sign :: run, rest)
        else (digits? s).map fun (run, rest) => (c :: run, rest)
      | [] => none
    else some ([], c :: s)
  | [] => some ([], [])

def unsigned? (s : List Char) : Option (List Char × List Char) := do
  let (whole, s) ← integer? s
  let (fraction, s) ← fraction? s
  let (exponent, s) ← exponent? s
  return (whole ++ fraction ++ exponent, s)

def number? : List Char → Option (List Char × List Char)
  | '-' :: s => (unsigned? s).map fun (lexeme, rest) => ('-' :: lexeme, rest)
  | s => unsigned? s

def string? : List Char → Option (List Char × List Char)
  | [] => none
  | '"' :: s => some ([], s)
  | '\\' :: 'u' :: a :: b :: c :: d :: s =>
    if isHex a && isHex b && isHex c && isHex d then
      (string? s).map fun (lexeme, rest) => ('\\' :: 'u' :: a :: b :: c :: d :: lexeme, rest)
    else none
  | '\\' :: c :: s =>
    if (escaped? c).isSome then (string? s).map fun (lexeme, rest) => ('\\' :: c :: lexeme, rest)
    else none
  | c :: s =>
    if c == '\\' || c.toNat < 0x20 then none
    else (string? s).map fun (lexeme, rest) => (c :: lexeme, rest)

def readScalar (s : List Char) : Json × Option (List Char) :=
  match s with
  | '"' :: s =>
    match string? s with
    | some (lexeme, rest) => (.string lexeme, some rest)
    | none => (.broken, none)
  | 'n' :: 'u' :: 'l' :: 'l' :: s => (.null, some s)
  | 't' :: 'r' :: 'u' :: 'e' :: s => (.bool true, some s)
  | 'f' :: 'a' :: 'l' :: 's' :: 'e' :: s => (.bool false, some s)
  | s =>
    match number? s with
    | some (lexeme, rest) => (.number lexeme, some rest)
    | none => (.broken, none)

mutual

def readValue : Nat → List Char → Json × Option (List Char)
  | 0, _ => (.broken, none)
  | n + 1, s =>
    match skipBlanks s with
    | '[' :: s =>
      match skipBlanks s with
      | ']' :: s => (.array [], some s)
      | s => let (items, rest) := readItems n s; (.array items, rest)
    | '{' :: s =>
      match skipBlanks s with
      | '}' :: s => (.object [], some s)
      | s => let (members, rest) := readMembers n s; (.object members, rest)
    | s => readScalar s

def readItems : Nat → List Char → List Json × Option (List Char)
  | 0, _ => ([.broken], none)
  | n + 1, s =>
    match readValue n s with
    | (v, none) => ([v], none)
    | (v, some s) =>
      match skipBlanks s with
      | ']' :: s => ([v], some s)
      | ',' :: s => let (items, rest) := readItems n s; (v :: items, rest)
      | _ => ([v, .broken], none)

def readMembers : Nat → List Char → List (List Char × Json) × Option (List Char)
  | 0, _ => ([([], .broken)], none)
  | n + 1, s =>
    match skipBlanks s with
    | '"' :: s =>
      match string? s with
      | none => ([([], .broken)], none)
      | some (name, s) =>
        match skipBlanks s with
        | ':' :: s =>
          match readValue n s with
          | (v, none) => ([(name, v)], none)
          | (v, some s) =>
            match skipBlanks s with
            | '}' :: s => ([(name, v)], some s)
            | ',' :: s => let (members, rest) := readMembers n s; ((name, v) :: members, rest)
            | _ => ([(name, v), ([], .broken)], none)
        | _ => ([(name, .broken)], none)
    | _ => ([([], .broken)], none)

end

/-- How deep the brackets of a text may be nested. -/
def textLevels : Nat := 127

/-- A text as far as it is JSON. -/
structure Document where
  root : Json
  complete : Bool

def Document.read (text : String) : Document :=
  let s := text.toList
  match readValue (2 * s.length + 2) s with
  | (root, some rest) => ⟨root, (skipBlanks rest).isEmpty⟩
  | (root, none) => ⟨root, false⟩

end LinearCalculus.Json
