import LinearCalculus.Proofs.Arrow.Invertibility

namespace LinearCalculus

open Formula

inductive Arrow.Nameless where
  | identity (a : LinearCalculus.Nameless)
  | composite (f g : Nameless)
  | onLeft (k : Connective) (f : Nameless) (right : LinearCalculus.Nameless)
  | onRight (k : Connective) (left : LinearCalculus.Nameless) (f : Nameless)
  | onConj (k : Connective) (f g : Nameless)
  | onNot (f : Nameless)
  | onAlways (f : Nameless)
  | onBody (q : Quantifier) (v : Var) (f : Nameless)
  | prim (form : Primitive.Form)
  deriving DecidableEq, Repr

namespace Arrow

def nameless : Arrow → Nameless
  | identity a => .identity a.nameless
  | composite f g => .composite f.nameless g.nameless
  | onLeft k f b => .onLeft k f.nameless b.nameless
  | onRight k a f => .onRight k a.nameless f.nameless
  | onConj k f g => .onConj k f.nameless g.nameless
  | onNot f => .onNot f.nameless
  | onAlways f => .onAlways f.nameless
  | onBody q v f => .onBody q v f.nameless
  | prim p => .prim p.form

theorem eqv_iff_nameless (f g : Arrow) : f.eqv g ↔ f.nameless = g.nameless := by
  induction f generalizing g <;> cases g <;>
    simp [eqv, nameless, alphaEq_iff_nameless, Primitive.eqv_iff_form, and_assoc, *]

theorem eqv_equivalence : Equivalence (fun f g : Arrow => f.eqv g = true) := by
  constructor
  · intro f
    exact (eqv_iff_nameless f f).mpr rfl
  · intro f g same
    rw [eqv_iff_nameless] at same ⊢
    exact same.symm
  · intro f g h first second
    rw [eqv_iff_nameless] at first second ⊢
    exact first.trans second

theorem undoes_ends {f g : Arrow} (first : f.WellTyped) (second : g.WellTyped)
    (undone : f.undoes g) : f.target.alphaEq g.source ∧ g.target.alphaEq f.source := by
  rcases inverse_of_undoes undone with ⟨r, inverse, same⟩
  have ends := eqv_parallel r g same (inverse.wellTyped first) second
  rw [← inverse.ends.1, ← inverse.ends.2]
  exact ⟨ends.source, alphaEq_symm ends.target⟩

/-- Equality determines the endpoints of well-typed arrows and is an equivalence relation on them:
it compares the trees without their bound names. So an arrow that is found to undo another one can
follow it, and it leads back to the formula from which the other one came. -/
theorem eqv_determines_ends :
    (∀ f g : Arrow, f.WellTyped → g.WellTyped → f.eqv g →
        f.source.alphaEq g.source ∧ f.target.alphaEq g.target) ∧
      Equivalence (fun f g : { f : Arrow // f.WellTyped } => f.1.eqv g.1 = true) ∧
      (∀ f g : Arrow, f.eqv g ↔ f.nameless = g.nameless) ∧
      ∀ f g : Arrow, f.WellTyped → g.WellTyped → f.undoes g →
        f.target.alphaEq g.source ∧ g.target.alphaEq f.source := by
  refine ⟨?_, ?_, eqv_iff_nameless, ?_⟩
  · intro f g first second same
    have ends := eqv_parallel f g same first second
    exact ⟨ends.source, ends.target⟩
  · exact ⟨fun f => eqv_equivalence.refl f.1, eqv_equivalence.symm, eqv_equivalence.trans⟩
  · intro f g first second undone
    exact undoes_ends first second undone

/-- The bound names in the formulas of two rules differ, and both rules replace a variable there;
in front of them the same formula is moved to the other side and back. -/
theorem eqv_determines_ends_of_replacements :
    let body (y : Var) : Formula := .quant .ex y (.holds y ⟨0⟩)
    let image (y : Var) : Formula := .quant .ex y (.holds y ⟨1⟩)
    let f (y : Var) := composite (prim (.removeForall ⟨0⟩ (body y) ⟨1⟩))
      (prim (.introExists (image y) ⟨1⟩ ⟨4⟩))
    let s := prim (.commute .and (body ⟨2⟩) (image ⟨2⟩))
    let t := prim (.commute .and (image ⟨3⟩) (body ⟨3⟩))
    (f ⟨2⟩ ≠ f ⟨3⟩ ∧ (f ⟨2⟩).WellTyped ∧ (f ⟨3⟩).WellTyped ∧ (f ⟨2⟩).eqv (f ⟨3⟩) ∧
        (f ⟨2⟩).source.alphaEq (f ⟨3⟩).source ∧ (f ⟨2⟩).target.alphaEq (f ⟨3⟩).target) ∧
      s.WellTyped ∧ t.WellTyped ∧ s.undoes t ∧ s.target.alphaEq t.source ∧
        t.target.alphaEq s.source := by
  intro body image f s t
  rcases eqv_determines_ends with ⟨ends, _, _, back⟩
  have first : (f ⟨2⟩).WellTyped := by decide
  have second : (f ⟨3⟩).WellTyped := by decide
  have same : (f ⟨2⟩).eqv (f ⟨3⟩) := by decide
  have typed : s.WellTyped := by decide
  have typed' : t.WellTyped := by decide
  have undone : s.undoes t := by decide
  exact ⟨⟨by decide, first, second, same, ends _ _ first second same⟩, typed, typed', undone,
    back s t typed typed' undone⟩

end Arrow

end LinearCalculus
