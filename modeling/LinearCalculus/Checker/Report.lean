import LinearCalculus.Arrow.Compress
import LinearCalculus.Checker.Options
import LinearCalculus.Codec.Arrow

namespace LinearCalculus.Checker

inductive CheckError where
  | decode (cause : DecodeError)
  /-- The arrow itself is ill-typed, and all arrows inside it are not. -/
  | shape (cause : ShapeError)
  deriving DecidableEq, Repr

structure Report where
  steps : Nat
  compressed : Option Nat
  reversed : Option Arrow
  deriving DecidableEq, Repr

def reversed? (o : Options) (f : Arrow) : Option Arrow :=
  if o.reverse then f.reverse.toOption else none

def report (o : Options) (f : Arrow) : Report where
  steps := f.steps.length
  compressed := if o.omits .compress then none else some f.compress.steps.length
  reversed := reversed? o f

def lines (o : Options) (f : Arrow) : List String :=
  (if o.echo then [f.text] else []) ++ [f.endpointsText] ++
    ((reversed? o f).map Arrow.endpointsText).toList

/-- Check a text as far as the options ask: a report if it got to the arrow, and the
lines to be printed. Nothing is printed about a text that fails. -/
def check (o : Options) (text : String) :
    ExceptT CheckError Fresh (Option Report × List String) := do
  if o.omits .parse then return (none, [])
  let f ← (Decoder.arrowText text).adapt CheckError.decode
  if o.omits .check then return (none, [])
  match f.checked with
  | .ok f => return (some (report o f), lines o f)
  | .error e => throw (.shape e)

end LinearCalculus.Checker
