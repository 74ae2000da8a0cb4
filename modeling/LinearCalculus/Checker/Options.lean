/-! Stages of checking, and the options of the checker.

An option is settled when the next one is recognised or when the arguments end:
until then its value, or the files named so far, are pending. So a value of
`--omit` that is no stage is reported only if nothing unknown follows it directly. -/

namespace LinearCalculus.Checker

inductive Stage where
  | parse
  | check
  | compress
  deriving DecidableEq, Repr

namespace Stage

def rank : Stage → Nat
  | parse => 0
  | check => 1
  | compress => 2

def named? : String → Option Stage
  | "parse" => some parse
  | "check" => some check
  | "compress" => some compress
  | _ => none

def unknownMessage (name : String) : String := "unknown stage: " ++ name

end Stage

structure Options where
  /-- The first stage that is left out. -/
  omitFrom : Option Stage := none
  reverse : Bool := false
  echo : Bool := false
  files : List String := []
  deriving DecidableEq, Repr

/-- A stage is left out with every earlier one that is. -/
def Options.omits (o : Options) (stage : Stage) : Bool :=
  match o.omitFrom with
  | some first => first.rank ≤ stage.rank
  | none => false

inductive UsageError where
  | noFile
  | unknownStage (name : String)
  /-- An option without its value, or a file without a name. -/
  | noValue
  | repeated
  | unknownOption (argument : String)
  | unneededValue
  | help
  deriving DecidableEq, Repr

inductive Pending where
  | nothing
  | omitting (value : Option String)
  | files (names : List String)
  deriving DecidableEq, Repr

structure Draft where
  options : Options := {}
  pending : Pending := .nothing
  onlyFiles : Bool := false
  deriving DecidableEq, Repr

namespace Draft

def setOmit (o : Options) (value : String) : Except UsageError Options :=
  if o.omitFrom.isSome then .error .repeated
  else
    match Stage.named? value with
    | some stage => .ok { o with omitFrom := some stage }
    | none => .error (.unknownStage value)

def settle (d : Draft) : Except UsageError Draft :=
  match d.pending with
  | .nothing => .ok d
  | .omitting none => .error .noValue
  | .omitting (some value) => do
    return { d with options := ← setOmit d.options value, pending := .nothing }
  | .files names =>
    if names.contains "" then .error .noValue
    else .ok { d with
      options := { d.options with files := d.options.files ++ names }, pending := .nothing }

def addFile (d : Draft) (name : String) : Except UsageError Draft :=
  match d.pending with
  | .files names => .ok { d with pending := .files (names ++ [name]) }
  | _ => do return { ← d.settle with pending := .files [name] }

/-- Take the option with the given name, and the value that an equals sign attached to it. -/
def addOption (d : Draft) (name : List Char) (value : Option String) : Except UsageError Draft :=
  match String.ofList name, value with
  | "omit", some value => do
    let d ← d.settle
    return { d with options := ← setOmit d.options value }
  | "omit", none => do return { ← d.settle with pending := .omitting none }
  | "reverse", none => do
    let d ← d.settle
    if d.options.reverse then throw .repeated
    return { d with options := { d.options with reverse := true } }
  | "echo", none => do
    let d ← d.settle
    if d.options.echo then throw .repeated
    return { d with options := { d.options with echo := true } }
  | "help", none => do
    let _ ← d.settle
    throw .help
  | "reverse", some _ | "echo", some _ | "help", some _ => .error .unneededValue
  | name, _ => .error (.unknownOption name)

def splitValue (argument : List Char) : List Char × Option String :=
  match argument.dropWhile (· != '=') with
  | [] => (argument, none)
  | _ :: value => (argument.takeWhile (· != '='), some (String.ofList value))

/-- An argument that is no option: the value that is waited for, or a file. -/
def addOperand (d : Draft) (argument : String) : Except UsageError Draft :=
  match d.pending with
  | .omitting none => .ok { d with pending := .omitting (some argument) }
  | _ => d.addFile argument

def add (d : Draft) (argument : String) : Except UsageError Draft :=
  if d.onlyFiles then d.addFile argument
  else
    match argument.toList with
    | ['-', '-'] => .ok { d with onlyFiles := true }
    | '-' :: '-' :: option =>
      let (name, value) := splitValue option
      d.addOption name value
    | '-' :: 'h' :: _ => do
      let _ ← d.settle
      throw .help
    | '-' :: _ :: _ => .error (.unknownOption argument)
    | _ => d.addOperand argument

end Draft

def Options.parse (arguments : List String) : Except UsageError Options := do
  let d ← arguments.foldlM Draft.add {}
  let d ← d.settle
  if d.options.files.isEmpty then throw .noFile
  return d.options

end LinearCalculus.Checker
