import LinearCalculus.Checker.Report

namespace LinearCalculus.Checker

structure Inputs where
  file : String → Option ByteArray
  standard : ByteArray

inductive Outcome where
  | success
  | failure
  | usage
  deriving DecidableEq, Repr

def Outcome.code : Outcome → Nat
  | success => 0
  | failure => 1
  | usage => 2

/-- A way on from a file that leads nowhere else: slashes, and dots between them. -/
def staysThere : List Char → Bool
  | [] => true
  | '/' :: '.' :: way => staysThere way
  | '/' :: way => staysThere way
  | _ => false

/-- Whether a name stands for standard input. Names are compared as paths, by their parts:
a slash at the end adds no part, and neither does a dot behind the first one. -/
def namesStandard (name : String) : Bool :=
  match name.toList with
  | '-' :: way => staysThere way
  | _ => false

/-- The content of an input, and what is left to be read. Standard input is read to its
end once. -/
def Inputs.read (inputs : Inputs) (name : String) : Option ByteArray × Inputs :=
  if namesStandard name then (some inputs.standard, { inputs with standard := .empty })
  else (inputs.file name, inputs)

def checkAll (o : Options) : List String → Inputs → Supply → Outcome × List String
  | [], _, _ => (.success, [])
  | name :: names, inputs, supply =>
    let (content, inputs) := inputs.read name
    match content.bind String.fromUTF8? with
    | none => (.failure, [])
    | some text =>
      match (check o text).run supply with
      | (.error _, _) => (.failure, [])
      | (.ok (_, printed), supply) =>
        let (outcome, rest) := checkAll o names inputs supply
        (outcome, printed ++ rest)

/-- Run the program: how it ends, and the lines that it prints about arrows. What it writes about
its own arguments, help among it, is not counted. -/
def run (arguments : List String) (inputs : Inputs) : Outcome × List String :=
  match Options.parse arguments with
  | .ok o => checkAll o o.files inputs .empty
  | .error .help => (.success, [])
  | .error _ => (.usage, [])

end LinearCalculus.Checker
