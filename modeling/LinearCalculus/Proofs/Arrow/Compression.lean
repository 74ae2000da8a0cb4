import LinearCalculus.Arrow.Compress
import LinearCalculus.Proofs.Arrow.Inverse

namespace LinearCalculus.Arrow

open Formula

theorem eq_identity_of_isId (f : Arrow) (plain : f.isId) : f = identity f.source := by
  cases f with
  | identity a => rfl
  | _ => cases plain

theorem congruent_lifted (l : Layer) (f : Arrow) (typed : f.WellTyped) :
    Congruent (l.mapArrow f) (lifted l.mapArrow f) := by
  unfold lifted
  by_cases plain : f.isId
  · rw [if_pos plain, eq_identity_of_isId f plain, (l.mapArrow_identity_ends f.source).1]
    exact .inside_identity l f.source
  · rw [if_neg plain]
    exact .refl ((l.mapArrow_wellTyped f).mpr typed)

theorem congruent_beside (k : Connective) (f g : Arrow) (left : f.WellTyped) (right : g.WellTyped) :
    Congruent (onConj k f g) (beside k f g) := by
  unfold beside
  cases plain : f.isId with
  | true =>
      have here := eq_identity_of_isId f plain
      cases plain' : g.isId with
      | true =>
          have there := eq_identity_of_isId g plain'
          rw [here, there]
          exact .law (.onConj_identity k f.source g.source) ⟨trivial, trivial⟩ trivial
      | false =>
          rw [here]
          exact .symm (.law (.onRight_eq k f.source g) right ⟨trivial, right⟩)
  | false =>
      cases plain' : g.isId with
      | true =>
          have there := eq_identity_of_isId g plain'
          rw [there]
          exact .symm (.law (.onLeft_eq k f g.source) left ⟨left, trivial⟩)
      | false => exact .refl ⟨left, right⟩

theorem congruent_sides (f : Arrow) (typed : f.WellTyped) (k : Connective) (g h : Arrow)
    (sides : f.sides? = some (k, g, h)) : Congruent f (onConj k g h) := by
  cases f with
  | onLeft k f b =>
      cases sides
      exact .law (.onLeft_eq k g b) typed ⟨typed, trivial⟩
  | onRight k a f =>
      cases sides
      exact .law (.onRight_eq k a h) typed ⟨trivial, typed⟩
  | onConj k f f' =>
      cases sides
      exact .refl typed
  | _ => cases sides

theorem inverse_of_undoes {f g : Arrow} (undone : f.undoes g) : ∃ r, Inverse f r ∧ r.eqv g := by
  cases reversed : f.reverse with
  | error e => simp [undoes, reversed] at undone
  | ok r =>
      simp only [undoes, reversed, Bool.and_eq_true] at undone
      exact ⟨r, inverse_of_reverse f r reversed, undone.2⟩

theorem congruent_of_undoes (f g : Arrow) (typed : (composite f g).WellTyped)
    (undone : f.undoes g) : Congruent (composite f g) (identity f.source) := by
  rcases composite_wellTyped.mp typed with ⟨first, second, fits⟩
  rcases inverse_of_undoes undone with ⟨r, inverse, same⟩
  have renamed : Congruent g r := .symm (.law (.renamed same) (inverse.wellTyped first) second)
  calc
    Congruent (composite f g) (composite f r) := Congruent.comp (.refl first) renamed fits
    Congruent _ (identity f.source) := (inverse.cancel first).1

theorem joined_cons_wellTyped (a : Formula) (stack : List Arrow) (last : Arrow)
    (typed : (joined a (last :: stack)).WellTyped) : last.WellTyped := by
  induction stack generalizing last with
  | nil => exact typed
  | cons f stack ih => exact (composite_wellTyped.mp (ih (composite f last) typed)).2.1

theorem congruent_joined_cons (a : Formula) (stack : List Arrow) (f g : Arrow)
    (typed : (joined a (f :: stack)).WellTyped) (same : Congruent f g) :
    Congruent (joined a (f :: stack)) (joined a (g :: stack)) := by
  induction stack generalizing f g with
  | nil => exact same
  | cons h stack ih =>
      have whole := joined_cons_wellTyped a stack (composite h f) typed
      obtain ⟨first, second, fits⟩ := composite_wellTyped.mp whole
      exact ih (composite h f) (composite h g) typed (.comp (.refl first) same fits)

theorem congruent_joined_last (a : Formula) (stack : List Arrow) (last : Arrow)
    (typed : (composite (joined a stack) last).WellTyped) :
    Congruent (composite (joined a stack) last) (joined a (last :: stack)) := by
  cases stack with
  | nil => exact .identity_first typed
  | cons f stack =>
      induction stack generalizing f with
      | nil => exact .refl typed
      | cons h stack ih =>
          have moved := ih (composite h f) typed
          have whole := joined_cons_wellTyped a stack _ moved.wellTyped
          calc
            Congruent (composite (joined a (composite h f :: stack)) last)
                (joined a (composite (composite h f) last :: stack)) := moved
            Congruent _ (joined a (composite h (composite f last) :: stack)) :=
              congruent_joined_cons a stack _ _ moved.wellTyped (.assoc whole)

section

-- what compresses arrows one context deeper rewrites by the laws
variable (next : Arrow → Arrow) (sound : ∀ f : Arrow, f.WellTyped → Congruent f (next f))
include sound

theorem congruent_next_lifted (l : Layer) (f : Arrow) (typed : f.WellTyped) :
    Congruent (l.mapArrow f) (lifted l.mapArrow (next f)) := by
  have deeper := sound f typed
  calc
    Congruent (l.mapArrow f) (l.mapArrow (next f)) := deeper.inside l
    Congruent _ (lifted l.mapArrow (next f)) := congruent_lifted l (next f) deeper.wellTyped

theorem congruent_next_beside (k : Connective) (f g : Arrow) (left : f.WellTyped)
    (right : g.WellTyped) : Congruent (onConj k f g) (beside k (next f) (next g)) := by
  have first := sound f left
  have second := sound g right
  calc
    Congruent (onConj k f g) (onConj k (next f) (next g)) := first.both k second
    Congruent _ (beside k (next f) (next g)) :=
      congruent_beside k (next f) (next g) first.wellTyped second.wellTyped

theorem congruent_compressStep (f : Arrow) (typed : f.WellTyped) :
    Congruent f (compressStep next f) := by
  cases f with
  | onLeft k f b => exact congruent_next_lifted next sound (.conj k .left b) f typed
  | onRight k a f => exact congruent_next_lifted next sound (.conj k .right a) f typed
  | onConj k f g => exact congruent_next_beside next sound k f g typed.1 typed.2
  | onNot f => exact congruent_next_lifted next sound .not f typed
  | onAlways f => exact congruent_next_lifted next sound .always f typed
  | onBody q v f => exact congruent_next_lifted next sound (.quant q v) f typed
  | identity a | composite f g | prim p => exact .refl typed

theorem congruent_merge_inside (l : Layer) (f g : Arrow)
    (typed : (composite (l.mapArrow f) (l.mapArrow g)).WellTyped) :
    Congruent (composite (l.mapArrow f) (l.mapArrow g))
      (lifted l.mapArrow (next (l.variance.composite f g))) := by
  have outside := Congruent.inside_composite l typed
  have inner := (l.mapArrow_wellTyped _).mp outside.wellTyped
  exact outside.trans (congruent_next_lifted next sound l _ inner)

theorem congruent_mergeBeside (f g h : Arrow) (typed : (composite f g).WellTyped)
    (merged : mergeBeside next f g = some h) : Congruent (composite f g) h := by
  obtain ⟨first, second, fits⟩ := composite_wellTyped.mp typed
  unfold mergeBeside at merged
  split at merged
  · rename_i k f₁ f₂ k' g₁ g₂ left right
    by_cases same : k = k'
    · subst same
      rw [if_pos rfl] at merged
      cases merged
      have split := Congruent.comp (congruent_sides f first k f₁ f₂ left)
        (congruent_sides g second k g₁ g₂ right) fits
      have exchanged := Congruent.onConj_composite split.wellTyped
      calc
        Congruent (composite f g) (composite (onConj k f₁ f₂) (onConj k g₁ g₂)) := split
        Congruent _ (onConj k (composite f₁ g₁) (composite f₂ g₂)) := exchanged
        Congruent _ (beside k (next (composite f₁ g₁)) (next (composite f₂ g₂))) :=
          congruent_next_beside next sound k _ _ exchanged.wellTyped.1 exchanged.wellTyped.2
    · rw [if_neg same] at merged
      cases merged
  · split at merged
    · cases merged
      rename_i undone
      exact congruent_of_undoes f g typed undone
    · cases merged

theorem congruent_merge (f g h : Arrow) (typed : (composite f g).WellTyped)
    (merged : merge? next f g = some h) : Congruent (composite f g) h := by
  revert merged
  fun_cases merge? next f g with
  | case1 a g =>
      intro merged
      cases merged
      exact .identity_first typed
  | case2 f a _ =>
      intro merged
      cases merged
      exact .identity_last typed
  | case3 f g =>
      intro merged
      cases merged
      exact congruent_merge_inside next sound .always f g typed
  | case4 f g =>
      intro merged
      cases merged
      exact congruent_merge_inside next sound .not f g typed
  | case5 q v f q' v' g same =>
      intro merged
      cases merged
      obtain ⟨rfl, rfl⟩ := same
      exact congruent_merge_inside next sound (.quant q v) f g typed
  | case6 => intro merged; cases merged
  | case7 f g =>
      intro merged
      exact congruent_mergeBeside next sound f g h typed merged

theorem congruent_push (a : Formula) (stack : List Arrow) (g : Arrow)
    (typed : (joined a (g :: stack)).WellTyped) :
    Congruent (joined a (g :: stack)) (joined a (push next stack g)) := by
  induction stack generalizing g with
  | nil => exact .refl typed
  | cons f stack ih =>
      unfold push
      cases merged : merge? next f g with
      | none => exact .refl typed
      | some h =>
          have pair := joined_cons_wellTyped a stack (composite f g) typed
          have same := congruent_merge next sound f g h pair merged
          have replaced := congruent_joined_cons a stack (composite f g) h typed same
          exact replaced.trans (ih h replaced.wellTyped)

theorem congruent_push_last (a : Formula) (stack : List Arrow) (f : Arrow)
    (typed : (composite (joined a stack) f).WellTyped) :
    Congruent (composite (joined a stack) f)
      (joined a (push next stack (compressStep next f))) := by
  obtain ⟨before, last, fits⟩ := composite_wellTyped.mp typed
  have stepped : Congruent (composite (joined a stack) f)
      (composite (joined a stack) (compressStep next f)) :=
    .comp (.refl before) (congruent_compressStep next sound f last) fits
  have listed := congruent_joined_last a stack _ stepped.wellTyped
  calc
    Congruent (composite (joined a stack) f) (composite (joined a stack) (compressStep next f)) :=
      stepped
    Congruent _ (joined a (compressStep next f :: stack)) := listed
    Congruent _ (joined a (push next stack (compressStep next f))) :=
      congruent_push next sound a stack _ listed.wellTyped

theorem congruent_push_steps (a : Formula) (f : Arrow) (stack : List Arrow)
    (typed : (composite (joined a stack) f).WellTyped) :
    Congruent (composite (joined a stack) f)
      (joined a ((f.steps.map (compressStep next)).foldl (push next) stack)) := by
  induction f generalizing stack with
  | composite f g first second =>
      obtain ⟨before, both, fits⟩ := composite_wellTyped.mp typed
      obtain ⟨left, right, fits'⟩ := composite_wellTyped.mp both
      have front : (composite (joined a stack) f).WellTyped :=
        composite_wellTyped.mpr ⟨before, left, fits⟩
      have pushed := (first stack front).comp (.refl right) fits'
      rw [steps, List.map_append, List.foldl_append]
      calc
        Congruent (composite (joined a stack) (composite f g))
            (composite (composite (joined a stack) f) g) :=
          .symm (.assoc (composite_wellTyped.mpr ⟨front, right, fits'⟩))
        Congruent _
            (composite (joined a ((f.steps.map (compressStep next)).foldl (push next) stack)) g) :=
          pushed
        Congruent _ (joined a ((g.steps.map (compressStep next)).foldl (push next)
            ((f.steps.map (compressStep next)).foldl (push next) stack))) :=
          second _ pushed.wellTyped
  | identity b | onLeft k f b | onRight k b f | onConj k f g | onNot f | onAlways f | onBody q v f
  | prim p => exact congruent_push_last next sound a stack _ typed

theorem congruent_compressBy (f : Arrow) (typed : f.WellTyped) :
    Congruent f (compressBy next f) := by
  have started : (composite (identity f.source) f).WellTyped :=
    composite_wellTyped.mpr ⟨trivial, typed, alphaEq_refl _⟩
  calc
    Congruent f (composite (identity f.source) f) := .symm (.identity_first started)
    Congruent _ (compressBy next f) := congruent_push_steps next sound f.source f [] started

end

theorem congruent_compressWithin (bound : Nat) (f : Arrow) (typed : f.WellTyped) :
    Congruent f (compressWithin bound f) := by
  induction bound generalizing f with
  | zero => exact .refl typed
  | succ bound ih => exact congruent_compressBy (compressWithin bound) ih f typed

theorem congruent_compress (f : Arrow) (typed : f.WellTyped) : Congruent f f.compress :=
  congruent_compressWithin (f.depth + 1) f typed

theorem compress_wellTyped (f : Arrow) (typed : f.WellTyped) : f.compress.WellTyped :=
  (congruent_compress f typed).wellTyped

/-- A compressed arrow leads between the same formulas as before, and can be reached by the laws
of arrows alone. -/
theorem compress_by_laws (f : Arrow) (typed : f.WellTyped) :
    f.compress.source.alphaEq f.source ∧ f.compress.target.alphaEq f.target ∧
      Congruent f f.compress := by
  have same := congruent_compress f typed
  exact ⟨alphaEq_symm same.parallel.source, alphaEq_symm same.parallel.target, same⟩

/-- Double negations below a negation cancel, although the two steps name their bound variables
differently; what is left has the names of the second one. -/
theorem double_negation_compressed_by_laws :
    let a : Formula := .quant .all ⟨0⟩ (.holds ⟨0⟩ ⟨1⟩)
    let a' : Formula := .quant .all ⟨2⟩ (.holds ⟨2⟩ ⟨1⟩)
    let f := composite (onNot (prim (.removeDoubleDual a))) (onNot (prim (.introDoubleDual a')))
    f.WellTyped ∧ f.compress = identity (.not a') ∧ f.source ≠ .not a' ∧
      f.compress.source.alphaEq f.source ∧ Congruent f f.compress := by
  intro a a' f
  have typed : f.WellTyped := by decide
  have related := compress_by_laws f typed
  exact ⟨typed, by decide, by decide, related.1, related.2.2⟩

end LinearCalculus.Arrow
