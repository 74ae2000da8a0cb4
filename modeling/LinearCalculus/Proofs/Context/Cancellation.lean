import LinearCalculus.Proofs.Arrow.Decision
import LinearCalculus.Proofs.Arrow.Invertibility
import LinearCalculus.Proofs.Context.Definedness

/-! Lift undoes import.

Both follow the grouping of a context, in opposite directions and with the arrows of
opposite rules. So the import is the inverse of the lift, up to the association of
composites, and by the laws of arrows the two cancel. Lift passes no exponential, and only
there variables are drawn, so the import that it undoes draws none. -/

namespace LinearCalculus

open Formula (and alphaEq_symm alphaEq_trans)

namespace Arrow

theorem wellTyped_of_foldl {f : Arrow} {rest : List Arrow}
    (typed : (rest.foldl composite f).WellTyped) : f.WellTyped := by
  induction rest generalizing f with
  | nil => exact typed
  | cons g rest ih => exact (composite_wellTyped.mp (ih typed)).1

theorem joinAll_of_wellTyped (f : Arrow) (rest : List Arrow)
    (typed : (rest.foldl composite f).WellTyped) :
    f.joinAll rest = .ok (rest.foldl composite f) := by
  apply mapError_eq_ok.mpr
  induction rest generalizing f with
  | nil => rfl
  | cons g rest ih =>
      have fits := (composite_wellTyped.mp (wellTyped_of_foldl typed)).2.2
      exact bind_eq_ok.mpr ⟨composite f g, compose_eq_ok_iff.mpr ⟨fits, rfl⟩, ih _ typed⟩

/-- By the laws of arrows, `g` is the inverse of `f`. -/
def UndoneBy (f g : Arrow) : Prop := ∃ r, Inverse f r ∧ Congruent r g

namespace UndoneBy

theorem of_inverse {f r : Arrow} (inverse : Inverse f r) (typed : f.WellTyped) : UndoneBy f r :=
  ⟨r, inverse, .refl (inverse.wellTyped typed)⟩

theorem wellTyped {f g : Arrow} (undone : UndoneBy f g) : g.WellTyped := by
  obtain ⟨r, _, same⟩ := undone
  exact same.wellTyped

theorem congruent {f g h : Arrow} (undone : UndoneBy f g) (same : Congruent g h) :
    UndoneBy f h := by
  obtain ⟨r, inverse, known⟩ := undone
  exact ⟨r, inverse, known.trans same⟩

theorem comp {f f' g g' : Arrow} (first : UndoneBy f f') (second : UndoneBy g g')
    (typed : (composite f g).WellTyped) : UndoneBy (composite f g) (composite g' f') := by
  obtain ⟨r, inverse, same⟩ := first
  obtain ⟨r', inverse', same'⟩ := second
  have whole := inverse.comp inverse'
  have fits := (composite_wellTyped.mp (whole.wellTyped typed)).2.2
  exact ⟨composite r' r, whole, same'.comp same fits⟩

theorem comp_comp {f f' g g' h h' : Arrow} (first : UndoneBy f f') (second : UndoneBy g g')
    (third : UndoneBy h h') (typed : (composite (composite f g) h).WellTyped) :
    UndoneBy (composite (composite f g) h) (composite (composite h' g') f') := by
  have front := (composite_wellTyped.mp typed).1
  have undone := (first.comp second front).comp third typed
  exact undone.congruent (Congruent.assoc_symm undone.wellTyped)

theorem comp_comp_comp {f f' g g' h h' i i' : Arrow} (first : UndoneBy f f')
    (second : UndoneBy g g') (third : UndoneBy h h') (fourth : UndoneBy i i')
    (typed : (composite (composite (composite f g) h) i).WellTyped) :
    UndoneBy (composite (composite (composite f g) h) i)
      (composite (composite (composite i' h') g') f') := by
  have front := (composite_wellTyped.mp typed).1
  have undone := (first.comp_comp second third front).comp fourth typed
  have outer := Congruent.assoc_symm undone.wellTyped
  rcases composite_wellTyped.mp outer.wellTyped with ⟨last, start, fits⟩
  have inner := Congruent.comp (Congruent.assoc_symm last) (.refl start) fits
  exact undone.congruent (outer.trans inner)

theorem symm {f g : Arrow} (undone : UndoneBy f g) : UndoneBy g f := by
  rcases undone with ⟨r, inverse, same⟩
  have invertible : g.isInvertible := same.isInvertible_eq ▸ inverse.symm.isInvertible
  rcases exists_inverse invertible with ⟨g', inverse'⟩
  exact ⟨g', inverse', (inverse.symm.congruent inverse' same).symm⟩

theorem congruent_both {f f' g g' : Arrow} (undone : UndoneBy f g) (first : Congruent f f')
    (second : Congruent g g') : UndoneBy f' g' :=
  ((undone.congruent second).symm.congruent first).symm

theorem compress {f g : Arrow} (undone : UndoneBy f g) : UndoneBy f.compress g.compress :=
  undone.congruent_both (congruent_compress f undone.symm.wellTyped)
    (congruent_compress g undone.wellTyped)

theorem leads {f g : Arrow} {a b : Formula} (undone : UndoneBy f g) (ends : f.Leads a b) :
    g.Leads b a := by
  rcases undone with ⟨r, inverse, same⟩
  have back : r.Leads b a :=
    ⟨inverse.ends.1 ▸ ends.target, inverse.ends.2 ▸ ends.source⟩
  exact back.of_parallel same.parallel

theorem layer (l : Layer) {f g : Arrow} (undone : UndoneBy f g) :
    UndoneBy (l.mapArrow f) (l.mapArrow g) := by
  obtain ⟨r, inverse, same⟩ := undone
  exact ⟨l.mapArrow r, inverse.inside l, same.inside l⟩

theorem context (c : Context) {f g : Arrow} (undone : UndoneBy f g) :
    UndoneBy (c.mapArrow f) (c.mapArrow g) :=
  c.mapArrow_keeps layer undone

theorem cancel {f g : Arrow} (undone : UndoneBy f g) (typed : f.WellTyped) :
    Congruent (composite f g) (identity f.source) ∧
      Congruent (composite g f) (identity f.target) := by
  obtain ⟨r, inverse, same⟩ := undone
  obtain ⟨forth, back⟩ := inverse.cancel typed
  obtain ⟨_, _, fits⟩ := composite_wellTyped.mp forth.symm.wellTyped
  obtain ⟨_, _, fits'⟩ := composite_wellTyped.mp back.symm.wellTyped
  have around : Congruent (composite f r) (composite f g) := .comp (.refl typed) same fits
  have around' : Congruent (composite r f) (composite g f) := .comp same (.refl typed) fits'
  rw [inverse.ends.1] at back
  exact ⟨around.symm.trans forth, around'.symm.trans back⟩

end UndoneBy

def exchanged (k : Connective) (a b c : Formula) : Arrow :=
  composite (composite (prim (.associateB k a b c)) (onLeft k (prim (.commute k a b)) c))
    (prim (.associateA k b a c))

theorem UndoneBy.exchanged (k : Connective) {a b c : Formula}
    (typed : (exchanged k a b c).WellTyped) :
    UndoneBy (exchanged k a b c) (exchanged k b a c) := by
  have first : UndoneBy (prim (.associateB k a b c)) (prim (.associateA k a b c)) :=
    .of_inverse (.primitive rfl) rfl
  have second : UndoneBy (prim (.commute k a b)) (prim (.commute k b a)) :=
    .of_inverse (.primitive rfl) rfl
  have third : UndoneBy (prim (.associateA k b a c)) (prim (.associateB k b a c)) :=
    .of_inverse (.primitive rfl) rfl
  exact first.comp_comp (second.layer (.conj k .left c)) third typed

end Arrow

open Arrow

namespace Layer

theorem exchange_undone (l b x : Formula) (f : Arrow) (done : exchange b l x = .ok f) :
    ∃ g, exchange l b x = .ok g ∧ UndoneBy f g := by
  have typed := exchange_wellTyped b l x f done
  have shape : f = exchanged .and b l x := joinAll_eq_foldl done
  subst shape
  have undone := UndoneBy.exchanged .and typed
  exact ⟨_, joinAll_of_wellTyped _ [_, _] undone.wellTyped, undone⟩

theorem pushAt_undone (l : Layer) (b x : Formula) (f : Arrow)
    (lifted : l.pushAt true b x = .ok f) (s : Supply) :
    Yields (l.importAt b x) s (fun g t => UndoneBy f g ∧ t = s) := by
  have typed := l.pushAt_wellTyped true b x f lifted
  cases l with
  | not | always => cases lifted
  | quant q v =>
      cases q with
      | all => cases lifted
      | ex =>
          obtain ⟨_, free, lifted⟩ := bind_eq_ok.mp lifted
          obtain ⟨_, rfl⟩ := (checked_eq_ok_iff _ f).mp (mapError_eq_ok.mp lifted)
          have unused := notCaptured_eq_ok.mp free
          have clear := (Primitive.freeFault?_eq_none .existsPastAnd v b).mpr unused
          refine yields_bind (P := fun _ t => t = s) (yields_except ⟨_, free, rfl⟩) ?_
          rintro _ t rfl
          exact yields_except ⟨_, fitting_prim clear, .of_inverse (.primitive rfl) typed, rfl⟩
  | conj k hole other =>
      cases k with
      | or => cases lifted
      | and =>
          cases hole with
          | left =>
              cases lifted
              exact yields_pure ⟨.of_inverse (.primitive rfl) typed, rfl⟩
          | right =>
              obtain ⟨g, exchanged, undone⟩ := exchange_undone other b x f lifted
              exact yields_except ⟨g, exchanged, undone, rfl⟩

end Layer

namespace Context

theorem importAt_undoes_covariant {inner outer : Context} (within : inner.variance = .covariant)
    (around : outer.variance = .covariant) {b x : Formula} {f g : Arrow} {s : Supply}
    (outside : Yields (outer.importAt b (inner.fill x)) s (fun f' t => UndoneBy f f' ∧ t = s))
    (inside : Yields (inner.importAt b x) s (fun g' t => UndoneBy g g' ∧ t = s))
    (typed : (composite f (outer.mapArrow g)).WellTyped) :
    Yields ((comp inner outer).importAt b x) s
      (fun h t => UndoneBy (composite f (outer.mapArrow g)) h ∧ t = s) := by
  rw [importAt_covariant within around]
  refine yields_bind inside ?_
  rintro g' t ⟨undone, rfl⟩
  refine yields_bind outside ?_
  rintro f' u ⟨undone', rfl⟩
  have whole := undone'.comp (undone.context outer) typed
  exact yields_except ⟨_, joinAll_of_wellTyped _ [_] whole.wellTyped, whole, rfl⟩

theorem importAt_undoes_bridged {inner outer : Context} (within : inner.variance = .contravariant)
    (around : outer.variance = .contravariant) {outer' inner' : Context}
    (found : bridge? inner outer = some (outer', inner')) {b x : Formula} {f h : Arrow} {s : Supply}
    (through : Yields ((inner'.compose outer').importAt b x) s
      (fun f' t => UndoneBy f f' ∧ t = s))
    (joined : (Arrow.onRight .and b
        (outer'.mapArrow (.prim (.removeDoubleDual (inner'.fill x))))).joinAll
      [f, outer'.mapArrow (.prim (.introDoubleDual (inner'.fill (and b x))))] = .ok h)
    (typed : h.WellTyped) :
    Yields ((comp inner outer).importAt b x) s (fun h' t => UndoneBy h h' ∧ t = s) := by
  have removed (a : Formula) : UndoneBy (prim (.removeDoubleDual a)) (prim (.introDoubleDual a)) :=
    .of_inverse (.primitive rfl) rfl
  have doubled (a : Formula) : UndoneBy (prim (.introDoubleDual a)) (prim (.removeDoubleDual a)) :=
    .of_inverse (.primitive rfl) rfl
  have shape := joinAll_eq_foldl joined
  subst shape
  rw [importAt_bridged within around found]
  refine yields_bind through ?_
  rintro f' t ⟨undone, rfl⟩
  have first := ((removed (inner'.fill x)).context outer').layer (.conj .and .right b)
  have last := (doubled (inner'.fill (and b x))).context outer'
  have whole := first.comp_comp undone last typed
  exact yields_except ⟨_, joinAll_of_wellTyped _ [_, _] whole.wellTyped, whole, rfl⟩

theorem pushAt_undone (c : Context) (b x : Formula) (f : Arrow)
    (lifted : c.pushAt true b x = .ok f) (s : Supply) :
    Yields (c.importAt b x) s (fun g t => UndoneBy f g ∧ t = s) := by
  have typed := c.pushAt_wellTyped true b x f lifted
  refine (@pushAt_exportAt_success b
    (fun invertible c x f => invertible = true → f.WellTyped →
      Yields (c.importAt b x) s (fun g t => UndoneBy f g ∧ t = s))
    (fun _ _ _ => True) ?atHole ?atLayer ?covariant ?bridged ?twice
    ?exportLayer ?exportInner ?exportOuter).1 true c x f lifted rfl typed
  case atHole =>
      intro _ x _ typed
      rw [importAt]
      exact yields_pure ⟨.of_inverse (.refl _) typed, rfl⟩
  case atLayer =>
      rintro _ l x f lifted rfl _
      rw [importAt]
      exact l.pushAt_undone b x f lifted s
  case covariant =>
      intro _ inner outer x f g h within around outside inside joined strict typed
      have shape := joinAll_eq_foldl joined
      subst shape
      obtain ⟨front, last, _⟩ := composite_wellTyped.mp typed
      exact importAt_undoes_covariant within around (outside strict front)
        (inside strict ((outer.mapArrow_wellTyped g).mp last)) typed
  case bridged =>
      intro _ inner outer inner' outer' x f h within around found through joined strict typed
      have front := (composite_wellTyped.mp (joinAll_eq_foldl joined ▸ typed)).1
      have middle := (composite_wellTyped.mp front).2.1
      exact importAt_undoes_bridged within around found (through strict middle) joined typed
  case twice =>
      intro inner outer x f g h within around missing _ _ joined strict
      cases strict
  all_goals intros; trivial

/-- Where `b` can be lifted, it can be imported, and in either order the two cancel by the laws and
compress to an identity. -/
theorem lift_cancels_import (c : Context) (b x : Formula) (f : Arrow)
    (lifted : c.liftAt b x = .ok f) (s : Supply) :
    ∃ g, (c.importAt b x).run s = (.ok g, s) ∧
      (∃ forth a, g.compose f = .ok forth ∧ Congruent forth (identity a) ∧
        forth.compress = identity a ∧ a.alphaEq (c.fill (and b x))) ∧
      ∃ back a, f.compose g = .ok back ∧ Congruent back (identity a) ∧
        back.compress = identity a ∧ a.alphaEq (and b (c.fill x)) := by
  rcases c.pushAt_undone b x f lifted s with ⟨g, t, imported, undone, rfl⟩
  rcases (pushDefined_exportDefined b).1 true c x f lifted x with ⟨f', lifted', leads⟩
  cases lifted.symm.trans lifted'
  rcases undone.cancel (c.pushAt_wellTyped true b x f lifted) with ⟨back, forth⟩
  exact ⟨g, imported, forth.compose_identity leads.target, back.compose_identity leads.source⟩

/-- Below a quantifier and across two negations that belong to different parts. -/
theorem bridged_lift_cancels :
    let b : Formula := .quant .all ⟨2⟩ (.holds ⟨2⟩ ⟨1⟩)
    let x : Formula := .holds ⟨0⟩ ⟨0⟩
    let beside : Context := .layer (.conj .and .right (.holds ⟨1⟩ ⟨0⟩))
    let denied : Context := .comp (.comp beside (.layer .not)) (.layer .not)
    let c : Context := .comp denied (.layer (.quant .ex ⟨0⟩))
    ∃ f, c.liftAt b x = .ok f ∧ ∃ g, (c.importAt b x).run ⟨3⟩ = (.ok g, ⟨3⟩) ∧
      (∃ forth a, g.compose f = .ok forth ∧ Congruent forth (identity a) ∧
        forth.compress = identity a ∧ a.alphaEq (c.fill (and b x))) ∧
      ∃ back a, f.compose g = .ok back ∧ Congruent back (identity a) ∧
        back.compress = identity a ∧ a.alphaEq (and b (c.fill x)) := by
  intro b x beside denied c
  have meet : bridge? (.comp beside (.layer .not)) (.layer .not) = some (.hole, beside) := rfl
  have through : beside.compose .hole = beside := rfl
  obtain ⟨f, lifted⟩ : ∃ f, c.liftAt b x = .ok f := by
    apply Exists.intro
    simp only [liftAt, c, @pushAt_covariant denied (.layer (.quant .ex ⟨0⟩)) rfl rfl, denied,
      pushAt_bridged rfl rfl meet, through, beside, pushAt]
    rfl
  exact ⟨f, lifted, lift_cancels_import c b x f lifted ⟨3⟩⟩

end Context

end LinearCalculus
