import LinearCalculus.Arrow.Basic
import LinearCalculus.Proofs.Json.Lexeme

/-! The written form of a formula can be read in one way only.

Where no digit follows, the characters of a formula determine it and where it ends. A relation has
no parentheses of its own, so it is told apart by the first character; in parentheses, it is told
from a connective that starts with a relation by what comes behind it. -/

namespace LinearCalculus

open Json (Delimited toDigits_append_inj)

def Connective.sign : Connective → Char
  | .and => '⊗'
  | .or => '⊕'

theorem Connective.sign_inj {k k' : Connective} (same : k.sign = k'.sign) : k = k' := by
  cases k <;> cases k' <;> simp_all [sign]

def Quantifier.sign : Quantifier → Char
  | .all => '∀'
  | .ex => '∃'

theorem Quantifier.sign_inj {q q' : Quantifier} (same : q.sign = q'.sign) : q = q' := by
  cases q <;> cases q' <;> simp_all [sign]

def Var.spell (v : Var) (rest : List Char) : List Char := 'x' :: (Nat.toDigits 10 v.id ++ rest)

theorem Var.toList_text (v : Var) (rest : List Char) : v.text.toList ++ rest = v.spell rest := by
  simp [text, spell]

theorem Var.spell_inj {v w : Var} {rest rest' : List Char} (same : v.spell rest = w.spell rest')
    (ends : Delimited rest) (ends' : Delimited rest') : v = w ∧ rest = rest' := by
  have digits := (List.cons.inj same).2
  obtain ⟨ids, behind⟩ := toDigits_append_inj ends ends' digits
  exact ⟨congrArg Var.mk ids, behind⟩

namespace Formula

/-- The characters of a formula, and those behind it. -/
def spell : Formula → List Char → List Char
  | holds a b, rest => a.spell (' ' :: '∈' :: ' ' :: b.spell rest)
  | identical a b, rest => a.spell (' ' :: '=' :: ' ' :: b.spell rest)
  | unit value, rest => (if value then '1' else '0') :: rest
  | not f, rest => '¬' :: if f.isRelation then '(' :: f.spell (')' :: rest) else f.spell rest
  | always f, rest => '!' :: if f.isRelation then '(' :: f.spell (')' :: rest) else f.spell rest
  | conj k l r, rest => '(' :: l.spell (' ' :: k.sign :: ' ' :: r.spell (')' :: rest))
  | quant q v f, rest => '(' :: q.sign :: v.spell ('.' :: ' ' :: f.spell (')' :: rest))

/-- The same below a negation or an exponential, where a relation gets parentheses. -/
def enclosed (f : Formula) (rest : List Char) : List Char :=
  if f.isRelation then '(' :: f.spell (')' :: rest) else f.spell rest

theorem toList_text (f : Formula) (rest : List Char) : f.text.toList ++ rest = f.spell rest := by
  induction f generalizing rest with
  | holds a b | identical a b => simp [text, spell, ← Var.toList_text]
  | unit value => cases value <;> rfl
  | not f ih | always f ih =>
      cases relation : f.isRelation <;> simp [text, spell, relation, ← ih]
  | conj k l r left right =>
      have sign : k.text.toList = [k.sign] := by cases k <;> rfl
      simp [text, spell, sign, ← left, ← right]
  | quant q v f ih =>
      have sign : q.text.toList = [q.sign] := by cases q <;> rfl
      simp [text, spell, sign, ← Var.toList_text, ← ih]

theorem spell_ne_sign (f : Formula) (rest : List Char) (q : Quantifier) (tail : List Char) :
    f.spell rest ≠ q.sign :: tail := by
  cases f with
  | unit value => cases value <;> cases q <;> simp [spell, Quantifier.sign]
  | _ => cases q <;> simp [spell, Var.spell, Quantifier.sign]

theorem related_inj {a b c d : Var} {sign sign' : Char} {rest rest' : List Char}
    (same : a.spell (' ' :: sign :: ' ' :: b.spell rest) =
      c.spell (' ' :: sign' :: ' ' :: d.spell rest'))
    (ends : Delimited rest) (ends' : Delimited rest') :
    a = c ∧ sign = sign' ∧ b = d ∧ rest = rest' := by
  obtain ⟨first, middle⟩ := Var.spell_inj same rfl rfl
  simp only [List.cons.injEq, true_and] at middle
  obtain ⟨second, behind⟩ := Var.spell_inj middle.2 ends ends'
  exact ⟨first, middle.1, second, behind⟩

theorem relation_spell_inj {f g : Formula} (relation : f.isRelation) {rest rest' : List Char}
    (same : f.spell rest = g.spell rest') (ends : Delimited rest) (ends' : Delimited rest') :
    f = g ∧ rest = rest' := by
  cases f with
  | holds a b =>
      cases g with
      | holds c d =>
          obtain ⟨rfl, _, rfl, behind⟩ := related_inj same ends ends'
          exact ⟨rfl, behind⟩
      | identical c d =>
          obtain ⟨_, sign, _⟩ := related_inj same ends ends'
          cases sign
      | unit value => cases value <;> cases same
      | _ => cases same
  | identical a b =>
      cases g with
      | identical c d =>
          obtain ⟨rfl, _, rfl, behind⟩ := related_inj same ends ends'
          exact ⟨rfl, behind⟩
      | holds c d =>
          obtain ⟨_, sign, _⟩ := related_inj same ends ends'
          cases sign
      | unit value => cases value <;> cases same
      | _ => cases same
  | _ => cases relation

theorem parenthesized_ne_spell {f g : Formula} (relation : f.isRelation) (rest : List Char)
    {rest' : List Char} : '(' :: f.spell (')' :: rest) ≠ g.spell rest' := by
  intro same
  cases g with
  | conj k l r =>
      have inside := (List.cons.inj same).2
      obtain ⟨_, behind⟩ := relation_spell_inj relation inside rfl rfl
      cases behind
  | quant q v g => exact spell_ne_sign f _ q _ (List.cons.inj same).2
  | unit value => cases value <;> cases same
  | _ => cases same

theorem enclosed_inj {f g : Formula} {rest rest' : List Char}
    (same : f.enclosed rest = g.enclosed rest') (ends : Delimited rest) (ends' : Delimited rest')
    (inner : ∀ {rest rest' : List Char}, f.spell rest = g.spell rest' → Delimited rest →
      Delimited rest' → f = g ∧ rest = rest') : f = g ∧ rest = rest' := by
  unfold enclosed at same
  split at same
  · rename_i relation
    split at same
    · obtain ⟨equal, behind⟩ := inner (List.cons.inj same).2 rfl rfl
      exact ⟨equal, (List.cons.inj behind).2⟩
    · exact absurd same (parenthesized_ne_spell relation rest)
  · split at same
    · rename_i relation
      exact absurd same.symm (parenthesized_ne_spell relation rest')
    · exact inner same ends ends'

/-- Where no digit follows, the characters of a formula determine the formula and its end. -/
theorem spell_inj {f g : Formula} {rest rest' : List Char} (same : f.spell rest = g.spell rest')
    (ends : Delimited rest) (ends' : Delimited rest') : f = g ∧ rest = rest' := by
  induction f generalizing g rest rest' with
  | holds a b | identical a b => exact relation_spell_inj rfl same ends ends'
  | unit value =>
      cases g with
      | unit value' => cases value <;> cases value' <;> cases same <;> exact ⟨rfl, rfl⟩
      | _ => cases value <;> cases same
  | not f ih =>
      cases g with
      | not g =>
          obtain ⟨rfl, behind⟩ := enclosed_inj (List.cons.inj same).2 ends ends' ih
          exact ⟨rfl, behind⟩
      | unit value => cases value <;> cases same
      | _ => cases same
  | always f ih =>
      cases g with
      | always g =>
          obtain ⟨rfl, behind⟩ := enclosed_inj (List.cons.inj same).2 ends ends' ih
          exact ⟨rfl, behind⟩
      | unit value => cases value <;> cases same
      | _ => cases same
  | conj k l r left right =>
      cases g with
      | conj k' l' r' =>
          obtain ⟨rfl, middle⟩ := left (List.cons.inj same).2 rfl rfl
          simp only [List.cons.injEq, true_and] at middle
          obtain ⟨rfl, behind⟩ := right middle.2 rfl rfl
          rw [Connective.sign_inj middle.1]
          exact ⟨rfl, (List.cons.inj behind).2⟩
      | quant q v g => exact absurd (List.cons.inj same).2 (spell_ne_sign l _ q _)
      | unit value => cases value <;> cases same
      | _ => cases same
  | quant q v f ih =>
      cases g with
      | quant q' v' g =>
          obtain ⟨sign, bound⟩ := List.cons.inj (List.cons.inj same).2
          obtain ⟨rfl, body⟩ := Var.spell_inj bound rfl rfl
          simp only [List.cons.injEq, true_and] at body
          obtain ⟨rfl, behind⟩ := ih body rfl rfl
          rw [Quantifier.sign_inj sign]
          exact ⟨rfl, (List.cons.inj behind).2⟩
      | conj k l r => exact absurd (List.cons.inj same).2.symm (spell_ne_sign l _ q _)
      | unit value => cases value <;> cases same
      | _ => cases same

theorem text_append_inj {f g : Formula} {rest rest' : String}
    (same : f.text ++ rest = g.text ++ rest') (ends : Delimited rest.toList)
    (ends' : Delimited rest'.toList) : f = g ∧ rest = rest' := by
  have characters := congrArg String.toList same
  rw [String.toList_append, String.toList_append, toList_text, toList_text] at characters
  obtain ⟨equal, behind⟩ := spell_inj characters ends ends'
  exact ⟨equal, String.toList_injective behind⟩

theorem text_inj {f g : Formula} (same : f.text = g.text) : f = g := by
  have followed : f.text ++ "" = g.text ++ "" := congrArg (· ++ "") same
  exact (text_append_inj followed trivial trivial).1

end Formula

theorem Arrow.endpointsText_inj {f g : Arrow} (same : f.endpointsText = g.endpointsText) :
    f.source = g.source ∧ f.target = g.target := by
  have delimited (t : String) : Delimited (" → " ++ t).toList := by
    rw [String.toList_append]
    rfl
  simp only [endpointsText, String.append_assoc] at same
  obtain ⟨sources, behind⟩ := Formula.text_append_inj same (delimited _) (delimited _)
  exact ⟨sources, Formula.text_inj ((String.append_right_inj _).mp behind)⟩

/-- The written form of a formula is unambiguous, down to the names of bound variables, and so is
the line with the two endpoints of an arrow. -/
theorem text_unambiguous :
    (∀ f g : Formula, f.text = g.text ↔ f.syntacticEq g) ∧
      (∀ f g : Formula, f.syntacticEq g ↔ f = g) ∧
      ∀ f g : Arrow, f.endpointsText = g.endpointsText ↔
        f.source.syntacticEq g.source ∧ f.target.syntacticEq g.target := by
  refine ⟨?_, Formula.syntacticEq_iff, ?_⟩
  · intro f g
    rw [Formula.syntacticEq_iff]
    exact ⟨Formula.text_inj, congrArg Formula.text⟩
  · intro f g
    rw [Formula.syntacticEq_iff, Formula.syntacticEq_iff]
    refine ⟨Arrow.endpointsText_inj, ?_⟩
    rintro ⟨sources, targets⟩
    rw [Arrow.endpointsText, Arrow.endpointsText, sources, targets]

-- the parentheses of the relation on the left belong to the connective
example :
    let a : Formula := .holds ⟨0⟩ ⟨1⟩
    (Formula.not (.conj .and a (.not a))).text = "¬(x0 ∈ x1 ⊗ ¬(x0 ∈ x1))" := by decide

end LinearCalculus
