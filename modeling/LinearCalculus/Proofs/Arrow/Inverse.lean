import LinearCalculus.Proofs.Arrow.Laws

namespace LinearCalculus

open Formula

theorem Primitive.reverse?_symm (p p' : Primitive) (inverse : p.reverse? = some p') :
    p'.reverse? = some p := by
  cases p <;> cases inverse <;> rfl

theorem Primitive.reverse?_clear (p p' : Primitive) (inverse : p.reverse? = some p')
    (clear : p.fault? = none) : p'.fault? = none := by
  cases p with
  | andPastExists a x b | existsPastAnd a x b =>
      cases inverse
      have unused := (freeFault?_eq_none _ x a).mp clear
      exact (freeFault?_eq_none _ x a).mpr unused
  | _ => cases inverse <;> rfl

namespace Arrow

inductive Inverse : Arrow → Arrow → Prop where
  | refl (a : Formula) : Inverse (identity a) (identity a)
  | comp {f f' g g' : Arrow} (first : Inverse f f') (second : Inverse g g') :
      Inverse (composite f g) (composite g' f')
  | inside (l : Layer) {f f' : Arrow} (inner : Inverse f f') :
      Inverse (l.mapArrow f) (l.mapArrow f')
  | both (k : Connective) {f f' g g' : Arrow} (left : Inverse f f') (right : Inverse g g') :
      Inverse (onConj k f g) (onConj k f' g')
  | primitive {p p' : Primitive} (inverse : p.reverse? = some p') : Inverse (prim p) (prim p')

theorem reverse_mapArrow (l : Layer) (f : Arrow) :
    (l.mapArrow f).reverse = (do return l.mapArrow (← f.reverse)) := by
  cases l with
  | conj k hole other => cases hole <;> rfl
  | not | always | quant q v => rfl

theorem inverse_of_reverse (f r : Arrow) (reversed : f.reverse = .ok r) : Inverse f r := by
  induction f using layer_induction generalizing r with
  | identity a =>
      cases reversed
      exact .refl a
  | composite f g first second =>
      obtain ⟨g', last, rest⟩ := bind_eq_ok.mp reversed
      obtain ⟨f', front, result⟩ := bind_eq_ok.mp rest
      cases result
      exact .comp (first f' front) (second g' last)
  | inside l f ih =>
      rw [reverse_mapArrow] at reversed
      obtain ⟨f', inner, result⟩ := bind_eq_ok.mp reversed
      cases result
      exact .inside l (ih f' inner)
  | onConj k f g left right =>
      obtain ⟨f', first, rest⟩ := bind_eq_ok.mp reversed
      obtain ⟨g', second, result⟩ := bind_eq_ok.mp rest
      cases result
      exact .both k (left f' first) (right g' second)
  | prim p =>
      cases inverse : p.reverse? with
      | none => simp [reverse, inverse] at reversed
      | some p' =>
          simp only [reverse, inverse, Except.ok.injEq] at reversed
          exact reversed ▸ .primitive inverse

namespace Inverse

theorem ends {f r : Arrow} (inverse : Inverse f r) : r.source = f.target ∧ r.target = f.source := by
  induction inverse with
  | refl a => exact ⟨rfl, rfl⟩
  | comp first second ih ih' => exact ⟨ih'.1, ih.2⟩
  | inside l inner ih =>
      cases l with
      | not => exact ⟨congrArg Formula.not ih.2, congrArg Formula.not ih.1⟩
      | always => exact ⟨congrArg Formula.always ih.1, congrArg Formula.always ih.2⟩
      | quant q v => exact ⟨congrArg (Formula.quant q v) ih.1, congrArg (Formula.quant q v) ih.2⟩
      | conj k hole other => cases hole <;> simp [Layer.mapArrow, source, target, ih]
  | both k left right ih ih' => simp [source, target, ih, ih']
  | @primitive p p' inverse => exact p.reverse?_ends p' inverse

theorem wellTyped {f r : Arrow} (inverse : Inverse f r) (typed : f.WellTyped) : r.WellTyped := by
  induction inverse with
  | refl a => trivial
  | comp first second ih ih' =>
      obtain ⟨front, last, fits⟩ := composite_wellTyped.mp typed
      refine composite_wellTyped.mpr ⟨ih' last, ih front, ?_⟩
      rw [second.ends.2, first.ends.1]
      exact alphaEq_symm fits
  | inside l inner ih =>
      rw [l.mapArrow_wellTyped] at typed ⊢
      exact ih typed
  | both k left right ih ih' => exact ⟨ih typed.1, ih' typed.2⟩
  | @primitive p p' inverse => exact p.reverse?_clear p' inverse typed

theorem symm {f r : Arrow} (inverse : Inverse f r) : Inverse r f := by
  induction inverse with
  | refl a => exact .refl a
  | comp first second ih ih' => exact .comp ih' ih
  | inside l inner ih => exact .inside l ih
  | both k left right ih ih' => exact .both k ih ih'
  | @primitive p p' inverse => exact .primitive (p.reverse?_symm p' inverse)

theorem composite_typed {f r : Arrow} (inverse : Inverse f r) (typed : f.WellTyped) :
    (composite f r).WellTyped := by
  refine composite_wellTyped.mpr ⟨typed, inverse.wellTyped typed, ?_⟩
  rw [inverse.ends.1]
  exact alphaEq_refl _

theorem composite_cancel {f f' g g' : Arrow} (first : Inverse f f') (second : Inverse g g')
    (typed : (composite f g).WellTyped)
    (outer : Congruent (composite f f') (identity f.source))
    (inner : Congruent (composite g g') (identity g.source)) :
    Congruent (composite (composite f g) (composite g' f'))
      (identity f.source) := by
  obtain ⟨front, last, fits⟩ := composite_wellTyped.mp typed
  have whole := (first.comp second).composite_typed typed
  have pair := second.composite_typed last
  have closing : (composite (composite g g') f').WellTyped := by
    refine composite_wellTyped.mpr ⟨pair, first.wellTyped front, ?_⟩
    rw [first.ends.1]
    exact alphaEq_trans (second.ends.2 ▸ alphaEq_refl _) (alphaEq_symm fits)
  have rest : Congruent (composite g (composite g' f')) f' := by
    have between : (identity g.source).target.alphaEq f'.source := by
      rw [first.ends.1]
      exact alphaEq_symm fits
    calc
      Congruent (composite g (composite g' f'))
          (composite (composite g g') f') := (Congruent.assoc closing).symm
      Congruent _ (composite (identity g.source) f') :=
        inner.comp (.refl (first.wellTyped front)) (composite_wellTyped.mp closing).2.2
      Congruent _ f' :=
        Congruent.identity_first
          (composite_wellTyped.mpr ⟨trivial, first.wellTyped front, between⟩)
  calc
    Congruent (composite (composite f g) (composite g' f'))
        (composite f (composite g (composite g' f'))) := .assoc whole
    Congruent _ (composite f f') := Congruent.comp (.refl front) rest fits
    Congruent _ (identity f.source) := outer

theorem inside_cancel (l : Layer) {f f' : Arrow} (inverse : Inverse f f') (typed : f.WellTyped)
    (forth : Congruent (composite f f') (identity f.source))
    (back : Congruent (composite f' f) (identity f'.source)) :
    Congruent (composite (l.mapArrow f) (l.mapArrow f')) (identity (l.mapArrow f).source) := by
  have outside := (inverse.inside l).composite_typed ((l.mapArrow_wellTyped f).mpr typed)
  have within : ∃ a, Congruent (l.variance.composite f f') (identity a) ∧
      l.fill a = (l.mapArrow f).source := by
    cases l with
    | not => exact ⟨f'.source, back, congrArg Formula.not inverse.ends.1⟩
    | always | quant q v => exact ⟨f.source, forth, rfl⟩
    | conj k hole other => cases hole <;> exact ⟨f.source, forth, rfl⟩
  obtain ⟨a, gone, filled⟩ := within
  calc
    Congruent (composite (l.mapArrow f) (l.mapArrow f')) (l.mapArrow (l.variance.composite f f')) :=
      Congruent.inside_composite l outside
    Congruent _ (l.mapArrow (identity a)) := gone.inside l
    Congruent _ (identity (l.mapArrow f).source) := filled ▸ Congruent.inside_identity l a

theorem both_cancel (k : Connective) {f f' g g' : Arrow} (left : Inverse f f')
    (right : Inverse g g') (first : f.WellTyped) (second : g.WellTyped)
    (leftGone : Congruent (composite f f') (identity f.source))
    (rightGone : Congruent (composite g g') (identity g.source)) :
    Congruent (composite (onConj k f g) (onConj k f' g')) (identity (onConj k f g).source) := by
  have outside := (left.both k right).composite_typed ⟨first, second⟩
  calc
    Congruent (composite (onConj k f g) (onConj k f' g'))
        (onConj k (composite f f') (composite g g')) := Congruent.onConj_composite outside
    Congruent _ (onConj k (identity f.source) (identity g.source)) := leftGone.both k rightGone
    Congruent _ (identity (onConj k f g).source) :=
      .law (.onConj_identity k f.source g.source) ⟨trivial, trivial⟩ trivial

/-- An arrow and its inverse cancel in either order. Both orders are proved at once, since
a negation exchanges them. -/
theorem cancel {f r : Arrow} (inverse : Inverse f r) (typed : f.WellTyped) :
    Congruent (composite f r) (identity f.source) ∧
      Congruent (composite r f) (identity r.source) := by
  induction inverse with
  | refl a =>
      have gone : Congruent (composite (identity a) (identity a)) (identity a) :=
        Congruent.identity_first (composite_wellTyped.mpr ⟨trivial, trivial, alphaEq_refl a⟩)
      exact ⟨gone, gone⟩
  | comp first second ih ih' =>
      obtain ⟨front, last, fits⟩ := composite_wellTyped.mp typed
      obtain ⟨outer, outer'⟩ := ih front
      obtain ⟨inner, inner'⟩ := ih' last
      have reversed := (first.comp second).wellTyped typed
      exact ⟨composite_cancel first second typed outer inner,
        composite_cancel second.symm first.symm reversed inner' outer'⟩
  | inside l inner ih =>
      rw [l.mapArrow_wellTyped] at typed
      obtain ⟨forth, back⟩ := ih typed
      exact ⟨inside_cancel l inner typed forth back,
        inside_cancel l inner.symm (inner.wellTyped typed) back forth⟩
  | both k left right ih ih' =>
      obtain ⟨first, first'⟩ := ih typed.1
      obtain ⟨second, second'⟩ := ih' typed.2
      exact ⟨both_cancel k left right typed.1 typed.2 first second,
        both_cancel k left.symm right.symm (left.wellTyped typed.1) (right.wellTyped typed.2)
          first' second'⟩
  | @primitive p p' inverse =>
      have forth : (composite (prim p) (prim p')).WellTyped :=
        (Inverse.primitive inverse).composite_typed typed
      have inverse' := p.reverse?_symm p' inverse
      have back : (composite (prim p') (prim p)).WellTyped :=
        (Inverse.primitive inverse').composite_typed (composite_wellTyped.mp forth).2.1
      exact ⟨.law (.cancel inverse) forth trivial, .law (.cancel inverse') back trivial⟩

end Inverse

theorem reverse_wellTyped (f r : Arrow) (typed : f.WellTyped) (reversed : f.reverse = .ok r) :
    r.WellTyped :=
  (inverse_of_reverse f r reversed).wellTyped typed

end Arrow

end LinearCalculus
