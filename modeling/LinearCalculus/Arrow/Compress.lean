import LinearCalculus.Arrow.Reverse

/-! Compression: the steps of an arrow with neighbours merged.

The steps are compressed inside and pushed one by one on a stack in which no two
neighbours can be merged. Two steps merge if one of them is an identity, if both
act inside the same context, or if the second undoes the first. Merging two steps
compresses only arrows that stand one context deeper, so the functorial depth of
the arrow bounds the recursion. -/

namespace LinearCalculus.Arrow

def depth : Arrow → Nat
  | composite f g => max f.depth g.depth
  | onConj _ f g => max f.depth g.depth + 1
  | onLeft _ f _ | onRight _ _ f | onNot f | onAlways f | onBody _ _ f => f.depth + 1
  | identity _ | prim _ => 0

def isId : Arrow → Bool
  | identity _ => true
  | _ => false

/-- Apply a functorial rule; an identity inside gives an identity outside. -/
def lifted (context : Arrow → Arrow) (f : Arrow) : Arrow :=
  if f.isId then identity (context f).source else context f

/-- The arrow that acts on both sides of a connective, by the least rule that does so. -/
def beside (k : Connective) (f g : Arrow) : Arrow :=
  match f.isId, g.isId with
  | true, true => identity (.conj k f.source g.source)
  | true, false => onRight k f.source g
  | false, true => onLeft k f g.source
  | false, false => onConj k f g

def sides? : Arrow → Option (Connective × Arrow × Arrow)
  | onLeft k f b => some (k, f, identity b)
  | onRight k a g => some (k, identity a, g)
  | onConj k f g => some (k, f, g)
  | _ => none

def undoes (f g : Arrow) : Bool :=
  !f.rule.isFunctorial &&
    match f.reverse with
    | .ok r => r.eqv g
    | .error _ => false

def mergeBeside (next : Arrow → Arrow) (f g : Arrow) : Option Arrow :=
  match f.sides?, g.sides? with
  | some (k, f₁, f₂), some (k', g₁, g₂) =>
    if k = k' then some (beside k (next (composite f₁ g₁)) (next (composite f₂ g₂)))
    else none
  | _, _ => if f.undoes g then some (identity f.source) else none

/-- One step in place of two; `next` compresses arrows one context deeper. -/
def merge? (next : Arrow → Arrow) : Arrow → Arrow → Option Arrow
  | identity _, g => some g
  | f, identity _ => some f
  | onAlways f, onAlways g => some (lifted onAlways (next (composite f g)))
  | onNot f, onNot g => some (lifted onNot (next (composite g f)))
  | onBody q v f, onBody q' v' g =>
    if q = q' ∧ v = v' then some (lifted (onBody q v) (next (composite f g))) else none
  | f, g => mergeBeside next f g

/-- Push a step on a stack, top first, merging as long as possible. -/
def push (next : Arrow → Arrow) : List Arrow → Arrow → List Arrow
  | [], g => [g]
  | f :: stack, g =>
    match merge? next f g with
    | some h => push next stack h
    | none => g :: f :: stack

def compressStep (next : Arrow → Arrow) : Arrow → Arrow
  | onLeft k f b => lifted (onLeft k · b) (next f)
  | onRight k a f => lifted (onRight k a) (next f)
  | onConj k f g => beside k (next f) (next g)
  | onNot f => lifted onNot (next f)
  | onAlways f => lifted onAlways (next f)
  | onBody q v f => lifted (onBody q v) (next f)
  | f => f

/-- The right-nested composite of the steps on a stack, which has its last step on top. -/
def joined (a : Formula) : List Arrow → Arrow
  | [] => identity a
  | last :: before => before.foldl (fun g f => composite f g) last

def compressBy (next : Arrow → Arrow) (f : Arrow) : Arrow :=
  joined f.source ((f.steps.map (compressStep next)).foldl (push next) [])

def compressWithin : Nat → Arrow → Arrow
  | 0 => id
  | n + 1 => compressBy (compressWithin n)

/-- Merge neighbouring steps; the result is a right-nested composite. -/
def compress (f : Arrow) : Arrow := compressWithin (f.depth + 1) f

end LinearCalculus.Arrow
