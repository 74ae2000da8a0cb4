import LinearCalculus.Proofs.Arrow.Inverse
import LinearCalculus.Proofs.Arrow.Outline

namespace LinearCalculus

open Formula (alphaEq_refl)

theorem Primitive.isSome_reverse? (p : Primitive) : p.reverse?.isSome = p.isInvertible := by
  cases p <;> rfl

theorem Primitive.isInvertible_congr {p r : Primitive} (same : p.form = r.form) :
    p.isInvertible = r.isInvertible := by
  have rules : p.rule = r.rule := by rw [← form_rule, ← form_rule, same]
  cases p <;> cases r <;> cases rules <;> rfl

theorem Primitive.isInvertible_of_reverse? {p p' : Primitive} (inverse : p.reverse? = some p') :
    p.isInvertible := by
  rw [← isSome_reverse?, inverse]
  rfl

namespace Arrow

@[simp] theorem isInvertible_mapArrow (l : Layer) (f : Arrow) :
    (l.mapArrow f).isInvertible = f.isInvertible := by
  cases l with
  | conj k hole other => cases hole <;> rfl
  | not | always | quant q v => rfl

theorem isInvertible_congr {f g : Arrow} (same : f.outline = g.outline) :
    f.isInvertible = g.isInvertible := by
  induction f generalizing g with
  | prim p =>
      cases g with
      | prim r => exact Primitive.isInvertible_congr (Outline.prim.inj same)
      | _ => cases same
  | _ => cases g <;> simp_all [outline, isInvertible] <;> grind

theorem Inverse.isInvertible {f r : Arrow} (inverse : Inverse f r) : f.isInvertible := by
  induction inverse with
  | refl a => rfl
  | comp first second ih ih' => simp [Arrow.isInvertible, ih, ih']
  | inside l inner ih => simpa using ih
  | both k left right ih ih' => simp [Arrow.isInvertible, ih, ih']
  | primitive inverse => exact Primitive.isInvertible_of_reverse? inverse

theorem exists_inverse {f : Arrow} (invertible : f.isInvertible) : ∃ r, Inverse f r := by
  induction f using layer_induction with
  | identity a => exact ⟨_, .refl a⟩
  | composite f g first second =>
      rw [isInvertible, Bool.and_eq_true] at invertible
      rcases first invertible.1 with ⟨f', inverse⟩
      rcases second invertible.2 with ⟨g', inverse'⟩
      exact ⟨_, inverse.comp inverse'⟩
  | inside l f ih =>
      rw [isInvertible_mapArrow] at invertible
      rcases ih invertible with ⟨f', inverse⟩
      exact ⟨_, inverse.inside l⟩
  | onConj k f g left right =>
      rw [isInvertible, Bool.and_eq_true] at invertible
      rcases left invertible.1 with ⟨f', inverse⟩
      rcases right invertible.2 with ⟨g', inverse'⟩
      exact ⟨_, inverse.both k inverse'⟩
  | prim p =>
      rw [isInvertible, ← p.isSome_reverse?] at invertible
      rcases Option.isSome_iff_exists.mp invertible with ⟨p', inverse⟩
      exact ⟨_, .primitive inverse⟩

theorem reverse_of_inverse {f r : Arrow} (inverse : Inverse f r) : f.reverse = .ok r := by
  induction inverse with
  | refl a => rfl
  | comp first second ih ih' =>
      rw [reverse, ih, ih']
      rfl
  | inside l inner ih =>
      rw [reverse_mapArrow, ih]
      rfl
  | both k left right ih ih' =>
      rw [reverse, ih, ih']
      rfl
  | primitive inverse => simp only [reverse, inverse]

theorem reverse_eq_ok_iff {f r : Arrow} : f.reverse = .ok r ↔ Inverse f r :=
  ⟨inverse_of_reverse f r, reverse_of_inverse⟩

theorem exists_reverse_iff {f : Arrow} : (∃ r, f.reverse = .ok r) ↔ f.isInvertible := by
  simp only [reverse_eq_ok_iff]
  constructor
  · intro some
    rcases some with ⟨r, inverse⟩
    exact inverse.isInvertible
  · exact exists_inverse

theorem parts_mapArrow (l : Layer) (f : Arrow) : (l.mapArrow f).parts = [f] := by
  cases l with
  | conj k hole other => cases hole <;> rfl
  | not | always | quant q v => rfl

theorem mem_nodes_of_mem_parts {f g h : Arrow} (part : g ∈ f.parts) (member : h ∈ g.nodes) :
    h ∈ f.nodes := by
  cases f with
  | identity a | prim p => cases part
  | composite f g | onConj k f g =>
      simp only [parts, List.mem_cons, List.not_mem_nil, or_false] at part
      apply List.mem_cons_of_mem
      rcases part with rfl | rfl
      · exact List.mem_append_left _ member
      · exact List.mem_append_right _ member
  | onLeft k f b | onRight k a f | onNot f | onAlways f | onBody q v f =>
      apply List.mem_cons_of_mem
      rwa [← List.mem_singleton.mp part]

/-- The failure names a rule of the arrow that has no inverse. -/
def Blames (e : NotInvertible) (f : Arrow) : Prop :=
  ∃ p, prim p ∈ f.nodes ∧ p.isInvertible = false ∧ e = ⟨p.rule⟩

theorem blames_of_mem_parts {e : NotInvertible} {f g : Arrow} (part : g ∈ f.parts)
    (blamed : Blames e g) : Blames e f := by
  obtain ⟨p, member, lossy, named⟩ := blamed
  exact ⟨p, mem_nodes_of_mem_parts part member, lossy, named⟩

theorem blames_of_reverse {f : Arrow} {e : NotInvertible} (failed : f.reverse = .error e) :
    Blames e f := by
  induction f using layer_induction with
  | identity a => cases failed
  | composite f g first second =>
      -- the last part is reversed first, so it is blamed first
      rcases bind_eq_error.mp failed with last | ⟨g', _, rest⟩
      · exact blames_of_mem_parts (by simp [parts]) (second last)
      · rcases bind_eq_error.mp rest with front | ⟨f', _, result⟩
        · exact blames_of_mem_parts (by simp [parts]) (first front)
        · cases result
  | inside l f ih =>
      rw [reverse_mapArrow] at failed
      rcases bind_eq_error.mp failed with inner | ⟨f', _, result⟩
      · exact blames_of_mem_parts (by simp [parts_mapArrow]) (ih inner)
      · cases result
  | onConj k f g left right =>
      rcases bind_eq_error.mp failed with first | ⟨f', _, rest⟩
      · exact blames_of_mem_parts (by simp [parts]) (left first)
      · rcases bind_eq_error.mp rest with second | ⟨g', _, result⟩
        · exact blames_of_mem_parts (by simp [parts]) (right second)
        · cases result
  | prim p =>
      have lossy := p.isSome_reverse?
      cases inverse : p.reverse? with
      | none =>
          simp only [reverse, inverse, Except.error.injEq] at failed
          rw [inverse] at lossy
          exact ⟨p, List.mem_singleton_self _, lossy.symm, failed.symm⟩
      | some p' => simp [reverse, inverse] at failed

/-- Reversal is defined on the arrows that lose nothing. It exchanges the endpoints, and done
twice it gives the arrow back; where it is not defined, it names a rule that is to blame. -/
theorem reverse_partial_involution (f : Arrow) (typed : f.WellTyped) :
    ((∃ r, f.reverse = .ok r) ↔ f.isInvertible) ∧
      (∀ r, f.reverse = .ok r →
        r.source = f.target ∧ r.target = f.source ∧ r.WellTyped ∧ r.isInvertible ∧
          r.reverse = .ok f) ∧
      ∀ e, f.reverse = .error e →
        ∃ p, prim p ∈ f.nodes ∧ p.isInvertible = false ∧ e = ⟨p.rule⟩ := by
  refine ⟨exists_reverse_iff, ?_, ?_⟩
  · intro r reversed
    have inverse := inverse_of_reverse f r reversed
    exact ⟨inverse.ends.1, inverse.ends.2, inverse.wellTyped typed, inverse.symm.isInvertible,
      reverse_of_inverse inverse.symm⟩
  · intro e failed
    exact blames_of_reverse failed

/-- The steps below a negation change their order twice; beside them a rule without an inverse
is enough to fail. -/
theorem reverse_partial_involution_below_negation :
    let a : Formula := .holds ⟨0⟩ ⟨1⟩
    let b : Formula := .holds ⟨1⟩ ⟨0⟩
    let f := onNot (composite (prim (.commute .and a b)) (prim (.introUnit .and (.conj .and b a))))
    let r := onNot (composite (prim (.removeUnit .and (.conj .and b a))) (prim (.commute .and b a)))
    let g := onConj .or f (onAlways (prim (.derelict a)))
    (f.WellTyped ∧ f.isInvertible ∧ f.reverse = .ok r ∧ r.source = f.target ∧
        r.target = f.source ∧ r.WellTyped ∧ r.reverse = .ok f) ∧
      g.WellTyped ∧ g.reverse = .error ⟨.derelict⟩ ∧
        ∃ p, prim p ∈ g.nodes ∧ p.isInvertible = false ∧ p.rule = .derelict := by
  intro a b f r g
  have typed : f.WellTyped := by decide
  have typed' : g.WellTyped := by decide
  have reversed : f.reverse = .ok r := rfl
  have failed : g.reverse = .error ⟨.derelict⟩ := rfl
  obtain ⟨domain, swaps, _⟩ := reverse_partial_involution f typed
  obtain ⟨source, target, back, _, twice⟩ := swaps r reversed
  obtain ⟨p, member, lossy, named⟩ := (reverse_partial_involution g typed').2.2 _ failed
  exact ⟨⟨typed, domain.mp ⟨r, reversed⟩, reversed, source, target, back, twice⟩, typed', failed, p,
    member, lossy, (NotInvertible.mk.inj named).symm⟩

theorem Law.isInvertible_eq {f g : Arrow} (law : Law f g) : f.isInvertible = g.isInvertible := by
  cases law with
  | renamed same => exact isInvertible_congr (outline_eq_of_eqv _ _ same)
  | inside_composite l f g =>
      rw [isInvertible, isInvertible_mapArrow, isInvertible_mapArrow, isInvertible_mapArrow]
      cases l.variance with
      | covariant => rfl
      | contravariant => exact Bool.and_comm _ _
  | inside_identity l a => exact isInvertible_mapArrow l _
  | @cancel p p' inverse =>
      have forth := Primitive.isInvertible_of_reverse? inverse
      have back := Primitive.isInvertible_of_reverse? (p.reverse?_symm p' inverse)
      simp [isInvertible, forth, back]
  | onConj_composite k f f' g g' =>
      simp only [isInvertible]
      grind
  | _ => simp [isInvertible, Bool.and_assoc]

theorem Congruent.isInvertible_eq {f g : Arrow} (same : Congruent f g) :
    f.isInvertible = g.isInvertible := by
  induction same with
  | law law first second => exact law.isInvertible_eq
  | refl typed => rfl
  | symm same ih => exact ih.symm
  | trans first second ih ih' => exact ih.trans ih'
  | comp first second fits ih ih' => rw [isInvertible, isInvertible, ih, ih']
  | inside l same ih => rw [isInvertible_mapArrow, isInvertible_mapArrow, ih]
  | both k left right ih ih' => rw [isInvertible, isInvertible, ih, ih']

theorem Inverse.congruent {f f' g g' : Arrow} (inverse : Inverse f f') (inverse' : Inverse g g')
    (same : Congruent f g) : Congruent f' g' := by
  have typed := same.symm.wellTyped
  have first := inverse.wellTyped typed
  have last := inverse'.wellTyped same.wellTyped
  have back := (inverse.cancel typed).2
  have forth := (inverse'.cancel same.wellTyped).1
  -- the three places at which two of the four arrows meet
  have start : f'.target.alphaEq g.source := inverse.ends.2 ▸ same.parallel.source
  have middle : f'.target.alphaEq f.source := inverse.ends.2 ▸ alphaEq_refl _
  have finish : f.target.alphaEq g'.source := inverse'.ends.1 ▸ same.parallel.target
  have around : (composite f' (identity g.source)).WellTyped :=
    composite_wellTyped.mpr ⟨first, trivial, start⟩
  have pairs : (composite (composite f' f) g').WellTyped :=
    composite_wellTyped.mpr ⟨composite_wellTyped.mpr ⟨first, typed, middle⟩, last, finish⟩
  have rest : (composite (identity f'.source) g').WellTyped :=
    composite_wellTyped.mpr ⟨trivial, last, inverse.ends.1 ▸ finish⟩
  calc
    Congruent f' (composite f' (identity g.source)) := (Congruent.identity_last around).symm
    Congruent _ (composite f' (composite g g')) := .comp (.refl first) forth.symm start
    Congruent _ (composite f' (composite f g')) :=
      .comp (.refl first) (.comp same.symm (.refl last) (inverse'.ends.1 ▸ alphaEq_refl _)) start
    Congruent _ (composite (composite f' f) g') := (Congruent.assoc pairs).symm
    Congruent _ (composite (identity f'.source) g') := .comp back (.refl last) finish
    Congruent _ g' := Congruent.identity_first rest

end Arrow

end LinearCalculus
