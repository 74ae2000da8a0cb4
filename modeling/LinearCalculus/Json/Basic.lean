/-! JSON documents as they were written.

Numbers and strings are kept as the characters of the text, so that a number can
be told from an equal one that was spelled differently. A text that stops being
JSON is kept up to that point: `broken` stands where the fault is, and nothing
follows it. -/

namespace LinearCalculus

inductive Json where
  | null
  | bool (value : Bool)
  | number (lexeme : List Char)
  /-- A string, with its escapes and without its quotes. -/
  | string (lexeme : List Char)
  | array (items : List Json)
  /-- The members in the order of the text. A fault in place of a name is a member
  with an empty name. -/
  | object (members : List (List Char × Json))
  | broken

namespace Json

mutual

def isWhole : Json → Bool
  | array items => itemsWhole items
  | object members => membersWhole members
  | broken => false
  | null | bool _ | number _ | string _ => true

def itemsWhole : List Json → Bool
  | [] => true
  | v :: rest => v.isWhole && itemsWhole rest

def membersWhole : List (List Char × Json) → Bool
  | [] => true
  | (_, v) :: rest => v.isWhole && membersWhole rest

end

mutual

def depth : Json → Nat
  | array items => itemsDepth items + 1
  | object members => membersDepth members + 1
  | null | bool _ | number _ | string _ | broken => 0

def itemsDepth : List Json → Nat
  | [] => 0
  | v :: rest => max v.depth (itemsDepth rest)

def membersDepth : List (List Char × Json) → Nat
  | [] => 0
  | (_, v) :: rest => max v.depth (membersDepth rest)

end

def natural? (lexeme : List Char) : Option Nat :=
  if lexeme.all Char.isDigit && !lexeme.isEmpty then
    some (lexeme.foldl (fun n c => 10 * n + (c.toNat - '0'.toNat)) 0)
  else none

def hexValue (c : Char) : Nat :=
  if c.isDigit then c.toNat - '0'.toNat
  else if 'a' ≤ c then c.toNat - 'a'.toNat + 10
  else c.toNat - 'A'.toNat + 10

def isHex (c : Char) : Bool :=
  c.isDigit || ('a' ≤ c && c ≤ 'f') || ('A' ≤ c && c ≤ 'F')

def codeUnit (a b c d : Char) : Nat :=
  ((hexValue a * 16 + hexValue b) * 16 + hexValue c) * 16 + hexValue d

def escaped? : Char → Option Char
  | '"' => some '"'
  | '\\' => some '\\'
  | '/' => some '/'
  | 'b' => some '\x08'
  | 'f' => some '\x0c'
  | 'n' => some '\n'
  | 'r' => some '\r'
  | 't' => some '\t'
  | _ => none

/-- Undo the escapes of a string. A surrogate that has no partner names no character. -/
def unescape : List Char → Option (List Char)
  | [] => some []
  | '\\' :: 'u' :: a :: b :: c :: d :: s =>
    let high := codeUnit a b c d
    if high < 0xD800 || 0xE000 ≤ high then (unescape s).map (Char.ofNat high :: ·)
    else if 0xDC00 ≤ high then none
    else
      match s with
      | '\\' :: 'u' :: a' :: b' :: c' :: d' :: s' =>
        let low := codeUnit a' b' c' d'
        if 0xDC00 ≤ low && low < 0xE000 then
          let code := 0x10000 + (high - 0xD800) * 0x400 + (low - 0xDC00)
          (unescape s').map (Char.ofNat code :: ·)
        else none
      | _ => none
  | '\\' :: c :: s =>
    match escaped? c with
    | some c' => (unescape s).map (c' :: ·)
    | none => none
  | c :: s => (unescape s).map (c :: ·)

def textOf? (lexeme : List Char) : Option String := (unescape lexeme).map String.ofList

end Json

end LinearCalculus
