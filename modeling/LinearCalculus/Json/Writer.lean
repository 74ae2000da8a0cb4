import LinearCalculus.Json.Basic

namespace LinearCalculus.Json

def hexDigit (n : Nat) : Char := (Nat.toDigits 16 n).headD '0'

/-- The letter behind the backslash for a character that has an escape of its own. -/
def shortEscape? : Char → Option Char
  | '"' => some '"'
  | '\\' => some '\\'
  | '\x08' => some 'b'
  | '\x0c' => some 'f'
  | '\n' => some 'n'
  | '\r' => some 'r'
  | '\t' => some 't'
  | _ => none

def escape : List Char → List Char
  | [] => []
  | c :: s =>
    match shortEscape? c with
    | some letter => '\\' :: letter :: escape s
    | none =>
      if c.toNat < 0x20 then
        '\\' :: 'u' :: '0' :: '0' :: hexDigit (c.toNat / 16) :: hexDigit (c.toNat % 16) :: escape s
      else c :: escape s

def ofString (s : String) : Json := .string (escape s.toList)

def ofNat (n : Nat) : Json := .number (toString n).toList

def tagged (name : String) (argument : Json) : Json := .object [(name.toList, argument)]

/-- An object from names that need no escapes. -/
def record (members : List (String × Json)) : Json :=
  .object (members.map fun (name, v) => (name.toList, v))

mutual

def render : Json → List Char
  | null | broken => "null".toList
  | bool true => "true".toList
  | bool false => "false".toList
  | number lexeme => lexeme
  | string lexeme => '"' :: lexeme ++ ['"']
  | array [] => ['[', ']']
  | array (v :: rest) => '[' :: v.render ++ renderItems rest
  | object [] => ['\x7b', '\x7d']
  | object ((name, v) :: rest) =>
    '\x7b' :: '"' :: name ++ '"' :: ':' :: v.render ++ renderMembers rest

def renderItems : List Json → List Char
  | [] => [']']
  | v :: rest => ',' :: v.render ++ renderItems rest

def renderMembers : List (List Char × Json) → List Char
  | [] => ['\x7d']
  | (name, v) :: rest => ',' :: '"' :: name ++ '"' :: ':' :: v.render ++ renderMembers rest

end

def toText (j : Json) : String := String.ofList j.render

end LinearCalculus.Json
