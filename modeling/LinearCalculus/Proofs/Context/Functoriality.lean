import LinearCalculus.Proofs.Arrow.Decision
import LinearCalculus.Proofs.TwoHole.Filling

namespace LinearCalculus

open Arrow
open Formula (alphaEq_refl alphaEq_symm)

namespace Variance

theorem composite_compose_covariant (v : Variance) (f g : Arrow) :
    (v.compose .covariant).composite f g = v.composite f g := by
  cases v <;> rfl

theorem composite_compose_contravariant (v : Variance) (f g : Arrow) :
    (v.compose .contravariant).composite f g = v.composite g f := by
  cases v <;> rfl

end Variance

namespace Layer

theorem jointVariance_eq_contravariant_iff (ls : List Layer) :
    jointVariance ls = .contravariant ↔ ls.count not % 2 = 1 := by
  induction ls with
  | nil => decide
  | cons l ls ih =>
      have step : jointVariance (l :: ls) = l.variance.compose (jointVariance ls) := rfl
      rw [step]
      cases l with
      | not =>
          have flipped : Variance.flip (jointVariance ls) = .contravariant ↔
              ¬ jointVariance ls = .contravariant := by
            cases jointVariance ls <;> decide
          simp only [variance, Variance.compose, List.count_cons_self]
          rw [flipped, ih]
          omega
      | always | quant q v | conj k hole other =>
          rw [List.count_cons_of_ne (by simp)]
          exact ih

theorem alphaEq_fill_of_eqv {l m : Layer} (same : l.eqv m) {x y : Formula} (inside : x.alphaEq y) :
    (l.fill x).alphaEq (m.fill y) := by
  cases l with
  | conj k hole other =>
      cases m with
      | conj k' hole' other' =>
          simp only [eqv, Bool.and_eq_true, beq_iff_eq] at same
          rcases same with ⟨⟨rfl, rfl⟩, beside⟩
          cases hole <;> simp [fill, inside, beside]
      | _ => cases same
  | not | always =>
      cases m <;> cases same
      simpa [fill] using inside
  | quant q v =>
      cases m with
      | quant q' v' =>
          simp only [eqv, Bool.and_eq_true, beq_iff_eq] at same
          rcases same with ⟨rfl, rfl⟩
          simpa [fill] using inside
      | _ => cases same

theorem variance_eq_of_eqv {l m : Layer} (same : l.eqv m) : l.variance = m.variance := by
  cases l <;> cases m <;> first | rfl | cases same

theorem eqvAll_fill {ls ms : List Layer} (same : eqvAll ls ms) :
    jointVariance ls = jointVariance ms ∧
      ∀ x, (ls.foldr fill x).alphaEq (ms.foldr fill x) := by
  induction ls generalizing ms with
  | nil =>
      cases ms with
      | nil => exact ⟨rfl, alphaEq_refl⟩
      | cons m ms => cases same
  | cons l ls ih =>
      cases ms with
      | nil => cases same
      | cons m ms =>
          rcases Bool.and_eq_true_iff.mp same with ⟨here, rest⟩
          rcases ih rest with ⟨variances, filled⟩
          constructor
          · calc
              jointVariance (l :: ls) = l.variance.compose (jointVariance ls) := rfl
              _ = m.variance.compose (jointVariance ms) := by
                rw [variance_eq_of_eqv here, variances]
              _ = jointVariance (m :: ms) := rfl
          · intro x
            exact alphaEq_fill_of_eqv here (filled x)

theorem compress_mapArrow_identity (l : Layer) {f : Arrow} {a : Formula}
    (plain : f.compress = identity a) : (l.mapArrow f).compress = identity (l.fill a) := by
  rw [compress_of_inner? (l.inner?_mapArrow f)]
  cases l with
  | conj k hole other =>
      cases hole <;> simp only [places, plain, compress_identity] <;> rfl
  | not | always | quant q v =>
      simp only [places, plain]
      rfl

theorem congruent_mapArrow_composite (l : Layer) {f g : Arrow}
    (typed : (composite f g).WellTyped) :
    Congruent (l.mapArrow (composite f g))
      (l.variance.composite (l.mapArrow f) (l.mapArrow g)) := by
  rcases composite_wellTyped.mp typed with ⟨first, second, fits⟩
  have first' := (l.mapArrow_wellTyped f).mpr first
  have second' := (l.mapArrow_wellTyped g).mpr second
  have ends := l.mapArrow_ends f
  have ends' := l.mapArrow_ends g
  have law (f g : Arrow) (outside : (composite (l.mapArrow f) (l.mapArrow g)).WellTyped) :=
    (Congruent.inside_composite l outside).symm
  cases known : l.variance with
  | covariant =>
      have meet : (l.mapArrow f).target.alphaEq (l.mapArrow g).source := by
        rw [(ends.1 known).2, (ends'.1 known).1]
        exact l.alphaEq_fill fits
      rw [known] at law
      exact law f g (composite_wellTyped.mpr ⟨first', second', meet⟩)
  | contravariant =>
      have meet : (l.mapArrow g).target.alphaEq (l.mapArrow f).source := by
        rw [(ends'.2 known).2, (ends.2 known).1]
        exact l.alphaEq_fill (alphaEq_symm fits)
      rw [known] at law
      exact law g f (composite_wellTyped.mpr ⟨second', first', meet⟩)

end Layer

namespace Context

theorem compress_mapArrow_identity (c : Context) {f : Arrow} {a : Formula}
    (plain : f.compress = identity a) : (c.mapArrow f).compress = identity (c.fill a) := by
  induction c generalizing f a with
  | hole => exact plain
  | layer l => exact l.compress_mapArrow_identity plain
  | comp inner outer first second => exact second (first plain)

theorem congruent_mapArrow_composite (c : Context) {f g : Arrow}
    (typed : (composite f g).WellTyped) :
    Congruent (c.mapArrow (composite f g))
      (c.variance.composite (c.mapArrow f) (c.mapArrow g)) := by
  induction c generalizing f g with
  | hole => exact .refl typed
  | layer l => exact l.congruent_mapArrow_composite typed
  | comp inner outer first second =>
      have inside := first typed
      have around := outer.mapArrow_keeps Congruent.inside inside
      -- the inner context decides in which order the outer one meets the factors
      rw [variance]
      cases known : inner.variance with
      | covariant =>
          rw [known] at inside around
          rw [Variance.composite_compose_covariant]
          exact around.trans (second inside.wellTyped)
      | contravariant =>
          rw [known] at inside around
          rw [Variance.composite_compose_contravariant]
          exact around.trans (second inside.wellTyped)

theorem compose_mapArrow (c : Context) {f g fg : Arrow} (first : f.WellTyped)
    (second : g.WellTyped) (composed : f.compose g = .ok fg) :
    ∃ parts, (c.variance.composite (c.mapArrow f) (c.mapArrow g)).checked = .ok parts ∧
      Congruent (c.mapArrow fg) parts ∧ (c.mapArrow fg).compress.eqv parts.compress := by
  have typed := wellTyped_of_compose composed first second
  rcases compose_eq_ok_iff.mp composed with ⟨_, rfl⟩
  have same := c.congruent_mapArrow_composite typed
  have clear := ((wellTyped_iff _).mp same.wellTyped).2
  exact ⟨_, (checked_eq_ok_iff _ _).mpr ⟨clear, rfl⟩, same, same.compress_eqv⟩

/-- A context is a functor, contravariant if it has an odd number of negations. It takes arrows to
arrows between the filled contexts, and keeps identities and composites, by the laws of arrows and
after compression. Equal contexts take a formula to equal formulas, however they were grouped.
Arrows in two holes lead between the filled formulas as well, each in the direction of its hole. -/
theorem functor_laws :
    (∀ c : Context,
      (c.variance = .contravariant ↔ c.layers.count .not % 2 = 1) ∧
      (∀ f : Arrow, (c.mapArrow f).source = c.fill (c.variance.start f) ∧
        (c.mapArrow f).target = c.fill (c.variance.finish f)) ∧
      (∀ a, Congruent (c.mapArrow (.identity a)) (.identity (c.fill a)) ∧
        (c.mapArrow (.identity a)).compress = .identity (c.fill a)) ∧
      (∀ f g fg : Arrow, f.WellTyped → g.WellTyped → f.compose g = .ok fg →
        (c.variance = .covariant → ∃ parts, (c.mapArrow f).compose (c.mapArrow g) = .ok parts ∧
          Congruent (c.mapArrow fg) parts ∧ (c.mapArrow fg).compress.eqv parts.compress) ∧
        (c.variance = .contravariant → ∃ parts, (c.mapArrow g).compose (c.mapArrow f) = .ok parts ∧
          Congruent (c.mapArrow fg) parts ∧ (c.mapArrow fg).compress.eqv parts.compress)) ∧
      ∀ d, c.eqv d → c.variance = d.variance ∧ ∀ x, (c.fill x).alphaEq (d.fill x)) ∧
    ∀ (h : TwoHole) (f g : Arrow),
      (h.mapArrows f g).source = h.fill (h.leftVariance.start f) (h.rightVariance.start g) ∧
      (h.mapArrows f g).target = h.fill (h.leftVariance.finish f) (h.rightVariance.finish g) := by
  refine ⟨fun c => ⟨?_, c.mapArrow_start_finish, ?_, ?_, ?_⟩, TwoHole.mapArrows_ends⟩
  · rw [c.variance_eq_layers]
    exact Layer.jointVariance_eq_contravariant_iff c.layers
  · intro a
    have plain := c.compress_mapArrow_identity (compress_identity a)
    have law := congruent_compress _ ((c.mapArrow_wellTyped (.identity a)).mpr trivial)
    rw [plain] at law
    exact ⟨law, plain⟩
  · intro f g fg first second composed
    have parts := c.compose_mapArrow first second composed
    constructor <;> intro known <;> rw [known] at parts <;> exact parts
  · intro d same
    have layers := Layer.eqvAll_fill same
    rw [c.variance_eq_layers, d.variance_eq_layers]
    refine ⟨layers.1, ?_⟩
    intro x
    rw [c.fill_eq_layers, d.fill_eq_layers]
    exact layers.2 x

/-- A contravariant context, grouped in two ways and with two names for a bound variable. -/
theorem functor_laws_below_negation :
    let a : Formula := .holds ⟨0⟩ ⟨1⟩
    let b : Formula := .holds ⟨1⟩ ⟨0⟩
    let beside (x : Var) : Layer := .conj .or .left (.quant .all x (.holds x ⟨1⟩))
    let c : Context := .comp (.comp (.layer .always) (.layer .not)) (.layer (beside ⟨2⟩))
    let d : Context := .comp (.layer .always) (.comp (.layer .not) (.layer (beside ⟨3⟩)))
    let f := prim (.commute .and a b)
    let g := prim (.introUnit .and (.conj .and b a))
    (c.variance = .contravariant ∧ c.layers.count .not % 2 = 1) ∧
      (c ≠ d ∧ c.eqv d ∧ (c.fill a).alphaEq (d.fill a)) ∧
      f.compose g = .ok (composite f g) ∧ f.WellTyped ∧ g.WellTyped ∧
      ∃ parts, (c.mapArrow g).compose (c.mapArrow f) = .ok parts ∧
        Congruent (c.mapArrow (composite f g)) parts ∧
        (c.mapArrow (composite f g)).compress.eqv parts.compress := by
  intro a b beside c d f g
  rcases functor_laws.1 c with ⟨variance, _, _, composites, equal⟩
  have odd : c.variance = .contravariant := rfl
  have same : c.eqv d := by decide
  have composed : f.compose g = .ok (composite f g) := compose_eq_ok_iff.mpr ⟨by decide, rfl⟩
  have first : f.WellTyped := by decide
  have second : g.WellTyped := by decide
  exact ⟨⟨odd, variance.mp odd⟩, ⟨by decide, same, (equal d same).2 a⟩, composed, first, second,
    (composites f g _ first second composed).2 odd⟩

end Context

end LinearCalculus
