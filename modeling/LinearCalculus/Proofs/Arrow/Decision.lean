import LinearCalculus.Proofs.Arrow.Confluence
import LinearCalculus.Proofs.Arrow.Invertibility

namespace LinearCalculus

open Formula

def Layer.frame : Layer → Frame
  | not => .not
  | always => .always
  | quant q v => .quant q v
  | conj k _ _ => .conj k

def Layer.places : Layer → Arrow → Arrow × Arrow
  | conj _ .left b, f => (f, .identity b)
  | conj _ .right a, f => (.identity a, f)
  | not, f | always, f | quant _ _, f => (f, Arrow.blank)

theorem Layer.inner?_mapArrow (l : Layer) (f : Arrow) :
    (l.mapArrow f).inner? = some (l.frame, l.places f) := by
  cases l with
  | conj k hole other => cases hole <;> rfl
  | not | always | quant q v => rfl

namespace Arrow

theorem follow_compress (F : Frame) (a b : Arrow × Arrow) :
    outlines (F.follow compress (a.1.compress, a.2.compress) (b.1.compress, b.2.compress)) =
      outlines (F.follow compress a b) := by
  have place (f g : Arrow) : (F.variance.composite f.compress g.compress).compress.outline =
      (F.variance.composite f g).compress.outline := by
    cases F.variance with
    | covariant => exact (outline_compress_composite f g).symm
    | contravariant => exact (outline_compress_composite g f).symm
  exact Prod.ext (place a.1 b.1) (place a.2 b.2)

theorem outline_compress_framed {s t : Arrow} {F : Frame} {a b : Arrow × Arrow}
    (inside : s.inner? = some (F, a)) (inside' : t.inner? = some (F, b)) :
    (composite s t).compress.outline = (F.wrap (F.follow compress a b)).outline := by
  have settled := settles (max s.depth t.depth)
  have first := content_compress settled inside (Nat.le_max_left _ _)
  have second := content_compress settled inside' (Nat.le_max_right _ _)
  obtain ⟨h, merged, whole⟩ := merge?_wrap settled F _ _ first second
  have one : (composite s t).stack = [h] := by
    rw [stack_two_steps s t (isStep_of_inner? inside) (isStep_of_inner? inside'),
      compressStep_inner compress compress_identity inside,
      compressStep_inner compress compress_identity inside', push, merged]
    rfl
  calc
    (composite s t).compress.outline = h.outline := by
      rw [compress_eq_joined, one]
      rfl
    _ = _ := whole
    _ = (F.wrap (F.follow compress a b)).outline := outline_wrap_congr F (follow_compress F a b)

theorem outlines_places (l : Layer) {f g : Arrow} (same : f.compress.outline = g.compress.outline) :
    outlines ((l.places f).1.compress, (l.places f).2.compress) =
      outlines ((l.places g).1.compress, (l.places g).2.compress) := by
  cases l with
  | conj k hole other => cases hole <;> simp [Layer.places, outlines, same]
  | not | always | quant q v => simp [Layer.places, outlines, same]

theorem outlines_places_composite (l : Layer) (f g : Arrow) :
    outlines (l.frame.follow compress (l.places f) (l.places g)) =
      outlines ((l.places (l.variance.composite f g)).1.compress,
        (l.places (l.variance.composite f g)).2.compress) := by
  cases l with
  | conj k hole other => cases hole <;> rfl
  | not | always | quant q v => rfl

theorem Law.outline_compress {f g : Arrow} (law : Law f g) :
    f.compress.outline = g.compress.outline := by
  cases law with
  | renamed same => exact outline_compress_congr _ _ (outline_eq_of_eqv _ _ same)
  | assoc f g h => rw [compress_assoc]
  | identity_first a f => rw [compress_identity_first]
  | identity_last _ a => exact outline_compress_identity_last _ a
  | inside_identity l a =>
      cases l with
      | conj k hole other => cases hole <;> rfl
      | not | always | quant q v => rfl
  | inside_composite l f g =>
      rw [outline_compress_framed (l.inner?_mapArrow f) (l.inner?_mapArrow g),
        compress_of_inner? (l.inner?_mapArrow _)]
      exact outline_wrap_congr l.frame (outlines_places_composite l f g)
  | onConj_identity k a b => rfl
  | onConj_composite k f f' g g' =>
      rw [outline_compress_framed (F := .conj k) rfl rfl, compress_of_inner? (F := .conj k) rfl]
      rfl
  | onLeft_eq k f b =>
      have left := compress_of_inner? (s := onLeft k f b) rfl
      exact congrArg outline (left.trans (compress_of_inner? rfl).symm)
  | onRight_eq k a f =>
      have right := compress_of_inner? (s := onRight k a f) rfl
      exact congrArg outline (right.trans (compress_of_inner? rfl).symm)
  | @cancel p p' inverse =>
      have undone : Undoes p p' := ⟨p', inverse, (p'.eqv_iff_form p').mpr rfl⟩
      have one : (composite (prim p) (prim p')).stack = [identity p.source] := by
        have pushed : (composite (prim p) (prim p')).stack = push compress [prim p] (prim p') :=
          stack_two_steps (prim p) (prim p') trivial trivial
        rw [pushed, push, merge?_prim compress p p' undone]
        rfl
      rw [compress_eq_joined, one]
      rfl

theorem Congruent.outline_compress {f g : Arrow} (same : Congruent f g) :
    f.compress.outline = g.compress.outline := by
  induction same with
  | law law first second => exact law.outline_compress
  | refl typed => rfl
  | symm same ih => exact ih.symm
  | trans first second ih ih' => exact ih.trans ih'
  | @comp f f' g g' first second fits ih ih' =>
      rw [outline_compress_composite f g, outline_compress_composite f' g']
      apply outline_compress_congr
      rw [outline, outline, ih, ih']
  | inside l same ih =>
      rw [compress_of_inner? (l.inner?_mapArrow _), compress_of_inner? (l.inner?_mapArrow _)]
      exact outline_wrap_congr l.frame (outlines_places l ih)
  | @both k f f' g g' left right ih ih' =>
      rw [compress_of_inner? (s := onConj k f g) rfl, compress_of_inner? (s := onConj k f' g') rfl]
      exact outline_wrap_congr (.conj k) (Prod.ext ih ih')

theorem Congruent.compress_eqv {f g : Arrow} (same : Congruent f g) :
    f.compress.eqv g.compress := by
  have first := congruent_compress f same.symm.wellTyped
  have second := congruent_compress g same.wellTyped
  have ends := ((first.symm.trans same).trans second).parallel
  exact eqv_of_outline f.compress g.compress same.outline_compress first.wellTyped second.wellTyped
    (.inl ends.source)

theorem Congruent.of_compress_eqv {f g : Arrow} (first : f.WellTyped) (second : g.WellTyped)
    (same : f.compress.eqv g.compress) : Congruent f g :=
  calc
    Congruent f f.compress := congruent_compress f first
    Congruent _ g.compress :=
      .law (.renamed same) (compress_wellTyped f first) (compress_wellTyped g second)
    Congruent _ g := (congruent_compress g second).symm

/-- Arrows are equal by the laws exactly if they compress to equal arrows. -/
theorem congruent_iff_compress_eqv (f g : Arrow) (first : f.WellTyped) (second : g.WellTyped) :
    Congruent f g ↔ f.compress.eqv g.compress :=
  ⟨Congruent.compress_eqv, Congruent.of_compress_eqv first second⟩

theorem Congruent.compress_identity {f : Arrow} {a : Formula} (same : Congruent f (identity a)) :
    ∃ b, f.compress = identity b ∧ b.alphaEq a := by
  obtain ⟨b, plain⟩ := eq_identity_of_outline same.outline_compress
  have ends := same.compress_eqv
  rw [plain] at ends
  exact ⟨b, plain, ends⟩

/-- Arrows that cancel by the laws can be composed, and the composite compresses to the identity
that it is by the laws. -/
theorem Congruent.compose_identity {f g : Arrow} {a b : Formula}
    (same : Congruent (composite f g) (identity a)) (ends : a.alphaEq b) :
    ∃ h c, f.compose g = .ok h ∧ Congruent h (identity c) ∧ h.compress = identity c ∧
      c.alphaEq b := by
  have typed := same.symm.wellTyped
  have fits := (composite_wellTyped.mp typed).2.2
  rcases same.compress_identity with ⟨c, plain, ends'⟩
  have law : Congruent (composite f g) (identity c) := plain ▸ congruent_compress _ typed
  exact ⟨_, c, compose_eq_ok_iff.mpr ⟨fits, rfl⟩, law, plain, alphaEq_trans ends' ends⟩

theorem congruent_compress_composite {f g : Arrow} (typed : (composite f g).WellTyped) :
    Congruent (composite f g) (composite f.compress g.compress) := by
  obtain ⟨first, second, fits⟩ := composite_wellTyped.mp typed
  exact .comp (congruent_compress f first) (congruent_compress g second) fits

/-- Compression is done after one time, and the parts of a composite may be compressed first. -/
theorem compress_idempotent_homomorphic :
    (∀ f : Arrow, f.WellTyped → f.compress.compress.eqv f.compress) ∧
      ∀ f g fg : Arrow, f.WellTyped → g.WellTyped → f.compose g = .ok fg →
        ∃ parts, f.compress.compose g.compress = .ok parts ∧ fg.compress.eqv parts.compress := by
  constructor
  · intro f typed
    exact (congruent_compress f typed).symm.compress_eqv
  · intro f g fg first second composed
    have whole := wellTyped_of_compose composed first second
    obtain ⟨fits, rfl⟩ := compose_eq_ok_iff.mp composed
    have same := congruent_compress_composite whole
    have fits' := (composite_wellTyped.mp same.wellTyped).2.2
    exact ⟨_, compose_eq_ok_iff.mpr ⟨fits', rfl⟩, same.compress_eqv⟩

/-- Steps on different sides of a conjunction become one step on both sides, of which the next
step undoes one half; the bound names differ. -/
theorem half_cancellation_homomorphic :
    let a : Formula := .quant .all ⟨0⟩ (.holds ⟨0⟩ ⟨1⟩)
    let a' : Formula := .quant .all ⟨2⟩ (.holds ⟨2⟩ ⟨1⟩)
    let f := composite (onLeft .and (prim (.introDoubleDual a)) a)
      (onRight .and (.not (.not a)) (prim (.introDoubleDual a)))
    let g := onConj .and (prim (.removeDoubleDual a')) (identity (.not (.not a')))
    f.compress = onConj .and (prim (.introDoubleDual a)) (prim (.introDoubleDual a)) ∧
      (composite f g).compress = onRight .and a (prim (.introDoubleDual a)) ∧
      f.compress.compress.eqv f.compress ∧
      ∃ parts, f.compress.compose g.compress = .ok parts ∧
        (composite f g).compress.eqv parts.compress := by
  intro a a' f g
  have first : f.WellTyped := by decide
  have second : g.WellTyped := by decide
  have composed : f.compose g = .ok (composite f g) :=
    compose_eq_ok_iff.mpr ⟨by decide, rfl⟩
  exact ⟨by decide, by decide, compress_idempotent_homomorphic.1 f first,
    compress_idempotent_homomorphic.2 f g _ first second composed⟩

/-- An arrow and its inverse cancel by the laws and compress to an identity, in either order. -/
theorem reverse_cancels (f r : Arrow) (typed : f.WellTyped) (reversed : f.reverse = .ok r) :
    (∃ forth a, f.compose r = .ok forth ∧ Congruent forth (identity a) ∧
        forth.compress = identity a ∧ a.alphaEq f.source) ∧
      ∃ back b, r.compose f = .ok back ∧ Congruent back (identity b) ∧
        back.compress = identity b ∧ b.alphaEq f.target := by
  have inverse := inverse_of_reverse f r reversed
  rcases inverse.cancel typed with ⟨forth, back⟩
  rw [inverse.ends.1] at back
  exact ⟨forth.compose_identity (alphaEq_refl _), back.compose_identity (alphaEq_refl _)⟩

/-- Two steps that have been merged into one are cancelled one by one, and those inside a
negation in the other order. -/
theorem merged_steps_cancel :
    let a : Formula := .holds ⟨0⟩ ⟨1⟩
    let b : Formula := .quant .ex ⟨2⟩ (.holds ⟨2⟩ ⟨1⟩)
    let moved := composite (onLeft .and (prim (.commute .and a b)) (.not a))
      (onRight .and (.conj .and b a) (onNot (prim (.removeDoubleDual a))))
    let f := composite moved (prim (.associateA .and b a (.not (.not (.not a)))))
    moved.compress =
        onConj .and (prim (.commute .and a b)) (onNot (prim (.removeDoubleDual a))) ∧
      ∃ r, f.reverse = .ok r ∧
        (∃ forth c, f.compose r = .ok forth ∧ Congruent forth (identity c) ∧
          forth.compress = identity c ∧ c.alphaEq f.source) ∧
        ∃ back c, r.compose f = .ok back ∧ Congruent back (identity c) ∧
          back.compress = identity c ∧ c.alphaEq f.target := by
  intro a b moved f
  have typed : f.WellTyped := by decide
  exact ⟨by decide, _, rfl, reverse_cancels f _ typed rfl⟩

/-- An arrow can be compressed before it is reversed: it has an inverse as before, and this
compresses to the same arrow, though it lists the steps from the other end. -/
theorem compress_reverse_commute (f : Arrow) (typed : f.WellTyped) :
    (f.compress.isInvertible ↔ f.isInvertible) ∧
      ∀ r, f.reverse = .ok r → ∃ s, f.compress.reverse = .ok s ∧ s.compress.eqv r.compress := by
  have same := congruent_compress f typed
  have invertible : f.compress.isInvertible ↔ f.isInvertible := by rw [same.isInvertible_eq]
  refine ⟨invertible, ?_⟩
  intro r reversed
  have inverse := inverse_of_reverse f r reversed
  obtain ⟨s, inverse'⟩ := exists_inverse (invertible.mpr inverse.isInvertible)
  have inverses : Congruent s r := inverse'.congruent inverse same.symm
  exact ⟨s, reverse_of_inverse inverse', inverses.compress_eqv⟩

/-- Two steps on the sides of a conjunction, a composite below a negation among them, are one step
after compression; reversed as they were, they come in the other order. -/
theorem merged_steps_compress_reverse_commute :
    let a : Formula := .holds ⟨0⟩ ⟨1⟩
    let b : Formula := .quant .ex ⟨2⟩ (.holds ⟨2⟩ ⟨1⟩)
    let ab : Formula := .conj .and a b
    let ba : Formula := .conj .and b a
    let denied := onNot (composite (prim (.commute .and a b)) (prim (.introUnit .and ba)))
    let f := composite (composite (onLeft .and (prim (.commute .and a b)) denied.source)
      (onRight .and ba denied)) (prim (.associateA .and b a (.not ab)))
    let r := composite (prim (.associateB .and b a (.not ab)))
      (composite
        (onRight .and ba (onNot (composite (prim (.removeUnit .and ba)) (prim (.commute .and b a)))))
        (onLeft .and (prim (.commute .and b a)) denied.source))
    let s := composite (prim (.associateB .and b a (.not ab)))
      (onConj .and (prim (.commute .and b a))
        (onNot (composite (prim (.removeUnit .and ba)) (prim (.commute .and b a)))))
    f.WellTyped ∧ f.compress.isInvertible ∧ f.reverse = .ok r ∧ f.compress.reverse = .ok s ∧
      s ≠ r ∧ s.compress.eqv r.compress := by
  intro a b ab ba denied f r s
  have typed : f.WellTyped := by decide
  have reversed : f.reverse = .ok r := rfl
  have compressed : f.compress = composite (onConj .and (prim (.commute .and a b)) denied)
      (prim (.associateA .and b a (.not ab))) := by decide
  have known : f.compress.reverse = .ok s := by
    rw [compressed]
    rfl
  obtain ⟨invertible, commute⟩ := compress_reverse_commute f typed
  obtain ⟨s', reversed', same⟩ := commute r reversed
  cases reversed'.symm.trans known
  exact ⟨typed, invertible.mpr rfl, reversed, known, by decide, same⟩

end Arrow

end LinearCalculus
