import LinearCalculus.Arrow.Reverse
import LinearCalculus.Context.Basic
import LinearCalculus.Proofs.Arrow.Acceptance

/-! The laws of arrows.

Formulas up to bound names and arrows form a category. Every layer of a context is a
functor on it, and negation turns arrows around; every connective is a functor of two
arguments. A primitive rule with an inverse is undone by it. `Congruent` is the least
congruence on well-typed arrows in which these laws hold. -/

namespace LinearCalculus

/-- The composite inside a hole of two arrows that follow each other outside of it. -/
def Variance.composite : Variance → Arrow → Arrow → Arrow
  | covariant, f, g => .composite f g
  | contravariant, f, g => .composite g f

theorem Layer.mapArrow_wellTyped (l : Layer) (f : Arrow) :
    (l.mapArrow f).WellTyped ↔ f.WellTyped := by
  cases l with
  | conj k hole other => cases hole <;> rfl
  | not | always | quant q v => rfl

theorem Layer.mapArrow_identity_ends (l : Layer) (a : Formula) :
    (l.mapArrow (.identity a)).source = l.fill a ∧
      (l.mapArrow (.identity a)).target = l.fill a := by
  cases l with
  | conj k hole other => cases hole <;> exact ⟨rfl, rfl⟩
  | not | always | quant q v => exact ⟨rfl, rfl⟩

theorem Arrow.layer_induction {motive : Arrow → Prop} (identity : ∀ a, motive (.identity a))
    (composite : ∀ f g, motive f → motive g → motive (.composite f g))
    (inside : ∀ (l : Layer) f, motive f → motive (l.mapArrow f))
    (onConj : ∀ k f g, motive f → motive g → motive (.onConj k f g))
    (prim : ∀ p, motive (.prim p)) (f : Arrow) : motive f := by
  induction f with
  | identity a => exact identity a
  | composite f g first second => exact composite f g first second
  | onLeft k f b ih => exact inside (.conj k .left b) f ih
  | onRight k a f ih => exact inside (.conj k .right a) f ih
  | onConj k f g left right => exact onConj k f g left right
  | onNot f ih => exact inside .not f ih
  | onAlways f ih => exact inside .always f ih
  | onBody q v f ih => exact inside (.quant q v) f ih
  | prim p => exact prim p

open Formula

theorem Primitive.reverse?_ends (p p' : Primitive) (inverse : p.reverse? = some p') :
    p'.source = p.target ∧ p'.target = p.source := by
  cases p <;> cases inverse <;> exact ⟨rfl, rfl⟩

theorem Primitive.eqv_ends (p r : Primitive) (same : p.eqv r) (clear : p.fault? = none)
    (clear' : r.fault? = none) : p.source.alphaEq r.source ∧ p.target.alphaEq r.target := by
  -- three rules replace a variable, which bound names can forbid
  cases p with
  | introExists body witness bound =>
      cases r with
      | introExists body' witness' bound' =>
          simp only [eqv, Bool.and_eq_true, beq_iff_eq] at same
          rcases same with ⟨⟨inner, rfl⟩, rfl⟩
          have replaceable := ((introExists_fault?_eq_none _ _ _).mp clear).2
          have replaceable' := ((introExists_fault?_eq_none _ _ _).mp clear').2
          have outer := alphaEq_replace _ _ _ _ inner replaceable replaceable'
          exact ⟨inner, by simpa [target] using outer⟩
      | _ => cases same
  | removeForall x body witness =>
      cases r with
      | removeForall x' body' witness' =>
          simp only [eqv, Bool.and_eq_true, beq_iff_eq] at same
          rcases same with ⟨⟨rfl, inner⟩, rfl⟩
          have replaceable := (hygieneFault?_eq_none _ _ _ _).mp clear
          have replaceable' := (hygieneFault?_eq_none _ _ _ _).mp clear'
          have outer := alphaEq_replace _ _ _ _ inner replaceable replaceable'
          exact ⟨by simpa [source] using inner, outer⟩
      | _ => cases same
  | substitute l m body way =>
      cases r with
      | substitute l' m' body' way' =>
          simp only [eqv, Bool.and_eq_true, beq_iff_eq] at same
          rcases same with ⟨⟨⟨rfl, rfl⟩, inner⟩, rfl⟩
          have replaceable := (hygieneFault?_eq_none _ _ _ _).mp clear
          have replaceable' := (hygieneFault?_eq_none _ _ _ _).mp clear'
          have outer := alphaEq_replace _ _ _ _ inner replaceable replaceable'
          exact ⟨by simpa [source] using inner, outer⟩
      | _ => cases same
  | _ => cases r <;> first | cases same | simp_all [eqv, source, target]

namespace Arrow

structure Parallel (f g : Arrow) : Prop where
  source : f.source.alphaEq g.source
  target : f.target.alphaEq g.target

theorem Parallel.of_eq {f g : Arrow} (source : f.source = g.source) (target : f.target = g.target) :
    Parallel f g :=
  ⟨source ▸ alphaEq_refl _, target ▸ alphaEq_refl _⟩

theorem Parallel.symm {f g : Arrow} (same : Parallel f g) : Parallel g f :=
  ⟨alphaEq_symm same.source, alphaEq_symm same.target⟩

theorem Parallel.trans {f g h : Arrow} (first : Parallel f g) (second : Parallel g h) :
    Parallel f h :=
  ⟨alphaEq_trans first.source second.source, alphaEq_trans first.target second.target⟩

theorem Parallel.inside (l : Layer) {f g : Arrow} (same : Parallel f g) :
    Parallel (l.mapArrow f) (l.mapArrow g) := by
  obtain ⟨source, target⟩ := same
  cases l with
  | not => exact ⟨target, source⟩
  | always => exact ⟨source, target⟩
  | quant q v =>
      constructor
      · simpa [Layer.mapArrow, Arrow.source]
      · simpa [Layer.mapArrow, Arrow.target]
  | conj k hole other =>
      cases hole <;> constructor
      · simpa [Layer.mapArrow, Arrow.source]
      · simpa [Layer.mapArrow, Arrow.target]
      · simpa [Layer.mapArrow, Arrow.source]
      · simpa [Layer.mapArrow, Arrow.target]

theorem Parallel.onConj (k : Connective) {f f' g g' : Arrow} (left : Parallel f f')
    (right : Parallel g g') : Parallel (onConj k f g) (onConj k f' g') :=
  ⟨by simp [Arrow.source, left.source, right.source],
    by simp [Arrow.target, left.target, right.target]⟩

theorem eqv_parallel (f g : Arrow) (same : f.eqv g) (first : f.WellTyped) (second : g.WellTyped) :
    Parallel f g := by
  fun_induction eqv f g with
  | case1 a a' => exact ⟨same, same⟩
  | case2 f g f' g' left right =>
      rw [Bool.and_eq_true] at same
      exact ⟨(left same.1 first.1 second.1).source, (right same.2 first.2.1 second.2.1).target⟩
  | case3 k f b k' f' b' ih =>
      simp only [Bool.and_eq_true, beq_iff_eq] at same
      obtain ⟨⟨rfl, inner⟩, other⟩ := same
      have inside := ih inner first second
      exact ⟨by simp [source, inside.source, other], by simp [target, inside.target, other]⟩
  | case4 k a f k' a' f' ih =>
      simp only [Bool.and_eq_true, beq_iff_eq] at same
      obtain ⟨⟨rfl, other⟩, inner⟩ := same
      have inside := ih inner first second
      exact ⟨by simp [source, inside.source, other], by simp [target, inside.target, other]⟩
  | case5 k f g k' f' g' left right =>
      simp only [Bool.and_eq_true, beq_iff_eq] at same
      obtain ⟨⟨rfl, inner⟩, inner'⟩ := same
      exact (left inner first.1 second.1).onConj k (right inner' first.2 second.2)
  | case6 f f' ih => exact (ih same first second).inside .not
  | case7 f f' ih => exact (ih same first second).inside .always
  | case8 q v f q' v' f' ih =>
      simp only [Bool.and_eq_true, beq_iff_eq] at same
      obtain ⟨⟨rfl, rfl⟩, inner⟩ := same
      exact (ih inner first second).inside (.quant q v)
  | case9 p p' =>
      obtain ⟨source, target⟩ := p.eqv_ends p' same first second
      exact ⟨source, target⟩
  | case10 => cases same

/-- The laws, for arrows whether they fit or not. -/
inductive Law : Arrow → Arrow → Prop where
  | renamed {f g : Arrow} (same : f.eqv g) : Law f g
  | assoc (f g h : Arrow) : Law (composite (composite f g) h) (composite f (composite g h))
  | identity_first (a : Formula) (f : Arrow) : Law (composite (identity a) f) f
  | identity_last (f : Arrow) (a : Formula) : Law (composite f (identity a)) f
  | inside_identity (l : Layer) (a : Formula) : Law (l.mapArrow (identity a)) (identity (l.fill a))
  /-- Inside a negation the order is the other one. -/
  | inside_composite (l : Layer) (f g : Arrow) :
      Law (composite (l.mapArrow f) (l.mapArrow g)) (l.mapArrow (l.variance.composite f g))
  | onConj_identity (k : Connective) (a b : Formula) :
      Law (onConj k (identity a) (identity b)) (identity (.conj k a b))
  | onConj_composite (k : Connective) (f f' g g' : Arrow) :
      Law (composite (onConj k f g) (onConj k f' g')) (onConj k (composite f f') (composite g g'))
  | onLeft_eq (k : Connective) (f : Arrow) (b : Formula) :
      Law (onLeft k f b) (onConj k f (identity b))
  | onRight_eq (k : Connective) (a : Formula) (f : Arrow) :
      Law (onRight k a f) (onConj k (identity a) f)
  | cancel {p p' : Primitive} (inverse : p.reverse? = some p') :
      Law (composite (prim p) (prim p')) (identity p.source)

/-- The least congruence on well-typed arrows that contains the laws. -/
inductive Congruent : Arrow → Arrow → Prop where
  | law {f g : Arrow} (law : Law f g) (first : f.WellTyped) (second : g.WellTyped) : Congruent f g
  | refl {f : Arrow} (typed : f.WellTyped) : Congruent f f
  | symm {f g : Arrow} (same : Congruent f g) : Congruent g f
  | trans {f g h : Arrow} (first : Congruent f g) (second : Congruent g h) : Congruent f h
  | comp {f f' g g' : Arrow} (first : Congruent f f') (second : Congruent g g')
      (fits : f.target.alphaEq g.source) : Congruent (composite f g) (composite f' g')
  | inside (l : Layer) {f g : Arrow} (same : Congruent f g) :
      Congruent (l.mapArrow f) (l.mapArrow g)
  | both (k : Connective) {f f' g g' : Arrow} (left : Congruent f f') (right : Congruent g g') :
      Congruent (onConj k f g) (onConj k f' g')

theorem composite_wellTyped {f g : Arrow} :
    (composite f g).WellTyped ↔ f.WellTyped ∧ g.WellTyped ∧ f.target.alphaEq g.source := by
  rw [WellTyped, composite_fault?_eq_none]

theorem Law.parallel {f g : Arrow} (law : Law f g) (first : f.WellTyped) (second : g.WellTyped) :
    Parallel f g := by
  cases law with
  | renamed same => exact eqv_parallel f g same first second
  | assoc f g h => exact .of_eq rfl rfl
  | identity_first a f => exact ⟨(composite_wellTyped.mp first).2.2, alphaEq_refl _⟩
  | identity_last f a => exact ⟨alphaEq_refl _, alphaEq_symm (composite_wellTyped.mp first).2.2⟩
  | inside_identity l a =>
      have ends := l.mapArrow_identity_ends a
      exact .of_eq ends.1 ends.2
  | inside_composite l f g =>
      cases l with
      | not | always | quant q v => exact .of_eq rfl rfl
      | conj k hole other => cases hole <;> exact .of_eq rfl rfl
  | onConj_identity k a b => exact .of_eq rfl rfl
  | onConj_composite k f f' g g' => exact .of_eq rfl rfl
  | onLeft_eq k f b => exact .of_eq rfl rfl
  | onRight_eq k a f => exact .of_eq rfl rfl
  | @cancel p p' inverse => exact .of_eq rfl (p.reverse?_ends p' inverse).2

namespace Congruent

instance : Trans Congruent Congruent Congruent := ⟨trans⟩

theorem typed_parallel {f g : Arrow} (same : Congruent f g) :
    f.WellTyped ∧ g.WellTyped ∧ Parallel f g := by
  induction same with
  | law law first second => exact ⟨first, second, law.parallel first second⟩
  | refl typed => exact ⟨typed, typed, .of_eq rfl rfl⟩
  | symm same ih => exact ⟨ih.2.1, ih.1, ih.2.2.symm⟩
  | trans first second ih ih' => exact ⟨ih.1, ih'.2.1, ih.2.2.trans ih'.2.2⟩
  | comp first second fits ih ih' =>
      obtain ⟨typed, typed', ends⟩ := ih
      obtain ⟨nextTyped, nextTyped', nextEnds⟩ := ih'
      have fits' := alphaEq_trans (alphaEq_symm ends.target) (alphaEq_trans fits nextEnds.source)
      exact ⟨composite_wellTyped.mpr ⟨typed, nextTyped, fits⟩,
        composite_wellTyped.mpr ⟨typed', nextTyped', fits'⟩, ends.source, nextEnds.target⟩
  | inside l same ih =>
      rw [l.mapArrow_wellTyped, l.mapArrow_wellTyped]
      exact ⟨ih.1, ih.2.1, ih.2.2.inside l⟩
  | both k left right ih ih' =>
      exact ⟨⟨ih.1, ih'.1⟩, ⟨ih.2.1, ih'.2.1⟩, ih.2.2.onConj k ih'.2.2⟩

theorem wellTyped {f g : Arrow} (same : Congruent f g) : g.WellTyped := same.typed_parallel.2.1

theorem parallel {f g : Arrow} (same : Congruent f g) : Parallel f g := same.typed_parallel.2.2

theorem assoc {f g h : Arrow} (typed : (composite (composite f g) h).WellTyped) :
    Congruent (composite (composite f g) h) (composite f (composite g h)) := by
  obtain ⟨front, last, fits'⟩ := composite_wellTyped.mp typed
  obtain ⟨first, middle, fits⟩ := composite_wellTyped.mp front
  exact law (.assoc f g h) typed
    (composite_wellTyped.mpr ⟨first, composite_wellTyped.mpr ⟨middle, last, fits'⟩, fits⟩)

theorem assoc_symm {f g h : Arrow} (typed : (composite f (composite g h)).WellTyped) :
    Congruent (composite f (composite g h)) (composite (composite f g) h) := by
  obtain ⟨first, rest, fits⟩ := composite_wellTyped.mp typed
  obtain ⟨middle, last, fits'⟩ := composite_wellTyped.mp rest
  exact (assoc (composite_wellTyped.mpr
    ⟨composite_wellTyped.mpr ⟨first, middle, fits⟩, last, fits'⟩)).symm

theorem identity_first {a : Formula} {f : Arrow} (typed : (composite (identity a) f).WellTyped) :
    Congruent (composite (identity a) f) f :=
  law (.identity_first a f) typed (composite_wellTyped.mp typed).2.1

theorem identity_last {f : Arrow} {a : Formula} (typed : (composite f (identity a)).WellTyped) :
    Congruent (composite f (identity a)) f :=
  law (.identity_last f a) typed (composite_wellTyped.mp typed).1

theorem inside_identity (l : Layer) (a : Formula) :
    Congruent (l.mapArrow (identity a)) (identity (l.fill a)) :=
  law (.inside_identity l a) ((l.mapArrow_wellTyped _).mpr trivial) trivial

theorem inside_composite (l : Layer) {f g : Arrow}
    (typed : (composite (l.mapArrow f) (l.mapArrow g)).WellTyped) :
    Congruent (composite (l.mapArrow f) (l.mapArrow g))
      (l.mapArrow (l.variance.composite f g)) := by
  obtain ⟨first, second, fits⟩ := composite_wellTyped.mp typed
  rw [l.mapArrow_wellTyped] at first second
  refine law (.inside_composite l f g) typed ((l.mapArrow_wellTyped _).mpr ?_)
  cases l with
  | not => exact composite_wellTyped.mpr ⟨second, first, alphaEq_symm fits⟩
  | always => exact composite_wellTyped.mpr ⟨first, second, fits⟩
  | quant q v =>
      refine composite_wellTyped.mpr ⟨first, second, ?_⟩
      simpa [Layer.mapArrow, source, target] using fits
  | conj k hole other =>
      refine composite_wellTyped.mpr ⟨first, second, ?_⟩
      cases hole <;> simpa [Layer.mapArrow, source, target] using fits

theorem onConj_composite {k : Connective} {f f' g g' : Arrow}
    (typed : (composite (onConj k f g) (onConj k f' g')).WellTyped) :
    Congruent (composite (onConj k f g) (onConj k f' g'))
      (onConj k (composite f f') (composite g g')) := by
  obtain ⟨first, second, fits⟩ := composite_wellTyped.mp typed
  obtain ⟨left, right⟩ : f.target.alphaEq f'.source ∧ g.target.alphaEq g'.source := by
    simpa [source, target] using fits
  exact law (.onConj_composite k f f' g g') typed
    ⟨composite_wellTyped.mpr ⟨first.1, second.1, left⟩,
      composite_wellTyped.mpr ⟨first.2, second.2, right⟩⟩

end Congruent

end Arrow

end LinearCalculus
