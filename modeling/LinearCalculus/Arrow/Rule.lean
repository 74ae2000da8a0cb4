import LinearCalculus.Formula.Alpha
import LinearCalculus.Formula.Free
import LinearCalculus.Formula.Substitution

namespace LinearCalculus

inductive Rule where
  | identity
  | composite
  | onLeft
  | onRight
  | onConj
  | onNot
  | onAlways
  | onBody
  | commute
  | associateA
  | associateB
  | introUnit
  | removeUnit
  | distribute
  | forget
  | widen
  | apply
  | introDoubleDual
  | removeDoubleDual
  | cojoin
  | derelict
  | copy
  | zip
  | introExists
  | removeExists
  | introForall
  | removeForall
  | andPastExists
  | existsPastAnd
  | substitute
  deriving DecidableEq, Repr

namespace Rule

def name : Rule → String
  | identity => "identity"
  | composite => "composite"
  | onLeft => "left"
  | onRight => "right"
  | onConj => "both"
  | onNot => "not"
  | onAlways => "always"
  | onBody => "body"
  | commute => "commute"
  | associateA => "associate_a"
  | associateB => "associate_b"
  | introUnit => "intro_unit"
  | removeUnit => "remove_unit"
  | distribute => "distribute"
  | forget => "forget"
  | widen => "admit"
  | apply => "apply"
  | introDoubleDual => "intro_double_dual"
  | removeDoubleDual => "remove_double_dual"
  | cojoin => "cojoin"
  | derelict => "derelict"
  | copy => "copy"
  | zip => "zip"
  | introExists => "intro_exists"
  | removeExists => "remove_exists"
  | introForall => "intro_forall"
  | removeForall => "remove_forall"
  | andPastExists => "and_past_exists"
  | existsPastAnd => "exists_past_and"
  | substitute => "substitute"

/-- Functorial rules apply an arrow inside a context. -/
def isFunctorial : Rule → Bool
  | onLeft | onRight | onConj | onNot | onAlways | onBody => true
  | _ => false

/-- Structural rules only move subformulas around and add or drop units. -/
def isStructural : Rule → Bool
  | identity | commute | associateA | associateB | introUnit | removeUnit => true
  | _ => false

end Rule

inductive Shape where
  | conj
  | and
  | not
  | always
  | all
  | ex
  | conjOnLeft
  | conjOnRight
  | withUnit
  | orInAnd
  | denial
  | equation
  deriving DecidableEq, Repr

def Shape.text : Shape → String
  | conj => "A % B"
  | and => "A ⊗ B"
  | not => "¬A"
  | always => "!A"
  | all => "∀x. A"
  | ex => "∃x. A"
  | conjOnLeft => "(A % B) % C"
  | conjOnRight => "A % (B % C)"
  | withUnit => "A % u"
  | orInAnd => "(A ⊕ B) ⊗ C"
  | denial => "¬(A ⊗ B) ⊗ B"
  | equation => "(a = b) ⊗ A"

inductive ShapeError where
  | expected (rule : Rule) (shape : Shape) (found : Formula)
  | mismatch (rule : Rule) (expected found : Formula)
  | uncomposable (target source : Formula)
  | free (rule : Rule) (var : Var) (formula : Formula)
  | hygiene (rule : Rule) (cause : HygieneError)
  deriving DecidableEq, Repr

def ShapeError.message : ShapeError → String
  | expected rule shape found =>
    rule.name ++ ": expected " ++ shape.text ++ ", found " ++ found.text
  | mismatch rule a b => rule.name ++ ": expected " ++ a.text ++ ", found " ++ b.text
  | uncomposable target source =>
    "cannot compose arrow to " ++ target.text ++ " with arrow from " ++ source.text
  | free rule v f => rule.name ++ ": " ++ v.text ++ " must not be free in " ++ f.text
  | hygiene rule cause => rule.name ++ ": " ++ cause.message

end LinearCalculus
