import LinearCalculus.Proofs.Arrow.Invertibility
import LinearCalculus.Proofs.Arrow.Size
import Mathlib.Data.List.Perm.Subperm

/-! The logical content of an arrow.

The rules without an inverse carry the content of an arrow. The laws of arrows take rules
through layers and change their order, but the only rules that they let vanish are undone by
their inverse. So arrows that are equal by the laws use every rule without an inverse equally
often. Compression rewrites by the laws, and therefore keeps all of them.

Rules that are not structural may have an inverse, and then compression can let them vanish.
But it makes no new ones, so of an arrow that is structural but for one rule without an
inverse, this rule alone is left. -/

namespace LinearCalculus.Arrow

/-- How many nodes of the arrow are equal to the rule, up to bound names. -/
def uses (p : Primitive) (f : Arrow) : Nat := f.nodes.countP fun g => g.eqv (prim p)

section

variable (p : Primitive)

@[simp] theorem uses_identity (a : Formula) : (identity a).uses p = 0 := rfl

@[simp] theorem uses_composite (f g : Arrow) :
    (composite f g).uses p = f.uses p + g.uses p := by
  simp [uses, nodes, eqv]

@[simp] theorem uses_onConj (k : Connective) (f g : Arrow) :
    (onConj k f g).uses p = f.uses p + g.uses p := by
  simp [uses, nodes, eqv]

@[simp] theorem uses_mapArrow (l : Layer) (f : Arrow) : (l.mapArrow f).uses p = f.uses p := by
  cases l with
  | conj k hole other => cases hole <;> simp [Layer.mapArrow, uses, nodes, eqv]
  | not | always | quant q v => simp [Layer.mapArrow, uses, nodes, eqv]

theorem uses_prim (r : Primitive) : (prim r).uses p = if r.eqv p then 1 else 0 := by
  cases same : r.eqv p <;> simp [uses, nodes, eqv, same]

theorem uses_variance (v : Variance) (f g : Arrow) :
    (v.composite f g).uses p = f.uses p + g.uses p := by
  cases v with
  | covariant => exact uses_composite p f g
  | contravariant => exact (uses_composite p g f).trans (Nat.add_comm _ _)

end

theorem uses_congr (p : Primitive) {f g : Arrow} (same : f.outline = g.outline) :
    f.uses p = g.uses p := by
  induction f generalizing g with
  | prim r =>
      cases g with
      | prim r' =>
          have equal : r.eqv p ↔ r'.eqv p := by
            rw [r.eqv_iff_form, r'.eqv_iff_form, Outline.prim.inj same]
          simp only [uses_prim, equal]
      | _ => cases same
  | identity a =>
      cases g <;> simp only [outline, reduceCtorEq] at same
      rfl
  | composite f f' ih ih' | onConj k f f' ih ih' =>
      cases g <;> simp only [outline, reduceCtorEq, Outline.composite.injEq,
        Outline.onConj.injEq] at same
      simp only [uses_composite, uses_onConj]
      grind
  | onLeft k f b ih | onRight k a f ih =>
      cases g <;> simp only [outline, reduceCtorEq, Outline.onLeft.injEq,
        Outline.onRight.injEq] at same
      simpa [uses, nodes, eqv] using ih same.2
  | onNot f ih | onAlways f ih =>
      cases g <;> simp only [outline, reduceCtorEq, Outline.onNot.injEq,
        Outline.onAlways.injEq] at same
      simpa [uses, nodes, eqv] using ih same
  | onBody q v f ih =>
      cases g <;> simp only [outline, reduceCtorEq, Outline.onBody.injEq] at same
      simpa [uses, nodes, eqv] using ih same.2.2

theorem uses_prim_of_reverse? {p r r' : Primitive} (lossy : p.isInvertible = false)
    (inverse : r.reverse? = some r') : (prim r).uses p = 0 := by
  have different : r.eqv p = false := by
    rw [Bool.eq_false_iff]
    intro same
    have invertible := Primitive.isInvertible_of_reverse? inverse
    rw [Primitive.isInvertible_congr ((r.eqv_iff_form p).mp same), lossy] at invertible
    cases invertible
  simp [uses_prim, different]

theorem Law.uses_eq {f g : Arrow} (law : Law f g) {p : Primitive} (lossy : p.isInvertible = false) :
    f.uses p = g.uses p := by
  cases law with
  | renamed same => exact uses_congr p (outline_eq_of_eqv _ _ same)
  | inside_composite l f g =>
      rw [uses_composite, uses_mapArrow, uses_mapArrow, uses_mapArrow, uses_variance]
  | inside_identity l a => rw [uses_mapArrow, uses_identity, uses_identity]
  | onLeft_eq k f b =>
      rw [uses_onConj, uses_identity, Nat.add_zero]
      exact uses_mapArrow p (.conj k .left b) f
  | onRight_eq k a f =>
      rw [uses_onConj, uses_identity, Nat.zero_add]
      exact uses_mapArrow p (.conj k .right a) f
  | @cancel r r' inverse =>
      have forth := uses_prim_of_reverse? lossy inverse
      have back := uses_prim_of_reverse? lossy (r.reverse?_symm r' inverse)
      rw [uses_composite, forth, back, uses_identity]
  | onConj_composite k f f' g g' =>
      simp only [uses_composite, uses_onConj]
      omega
  | assoc | identity_first | identity_last | onConj_identity => simp [Nat.add_assoc]

theorem Congruent.uses_eq {f g : Arrow} (same : Congruent f g) {p : Primitive}
    (lossy : p.isInvertible = false) : f.uses p = g.uses p := by
  induction same with
  | law law first second => exact law.uses_eq lossy
  | refl typed => rfl
  | symm same ih => exact ih.symm
  | trans first second ih ih' => exact ih.trans ih'
  | comp first second fits ih ih' => rw [uses_composite, uses_composite, ih, ih']
  | inside l same ih => rw [uses_mapArrow, uses_mapArrow, ih]
  | both k left right ih ih' => rw [uses_onConj, uses_onConj, ih, ih']

/-- Compression neither loses nor adds nor alters a rule without an inverse: every such rule is
used as often as before, at whatever depth. -/
theorem compress_keeps_content (f : Arrow) (typed : f.WellTyped) (p : Primitive)
    (lossy : p.isInvertible = false) :
    f.compress.nodes.countP (fun g => g.eqv (prim p)) =
      f.nodes.countP (fun g => g.eqv (prim p)) := by
  have same := congruent_compress f typed
  exact same.symm.uses_eq lossy

/-- Two steps on one side of a conjunction cancel around a step on the other side, which stays;
its bound names do not matter. -/
theorem compress_keeps_content_of_other_side :
    let a : Formula := .holds ⟨0⟩ ⟨1⟩
    let b : Formula := .quant .all ⟨2⟩ (.holds ⟨2⟩ ⟨1⟩)
    let b' : Formula := .quant .all ⟨3⟩ (.holds ⟨3⟩ ⟨1⟩)
    let f := composite (onLeft .and (prim (.introDoubleDual a)) (.conj .and b a))
      (composite (onRight .and (.not (.not a)) (prim (.forget b a)))
        (onLeft .and (prim (.removeDoubleDual a)) b))
    f.WellTyped ∧ f.compress = onRight .and a (prim (.forget b a)) ∧
      f.compress.nodes.countP (fun g => g.eqv (prim (.forget b' a))) = 1 ∧
      f.compress.nodes.countP (fun g => g.eqv (prim (.forget b' a))) =
        f.nodes.countP (fun g => g.eqv (prim (.forget b' a))) := by
  intro a b b' f
  have typed : f.WellTyped := by decide
  exact ⟨typed, by decide, by decide, compress_keeps_content f typed (.forget b' a) rfl⟩

/-- The rule is neither structural nor functorial, and no composite. -/
def isLogical (f : Arrow) : Bool :=
  !f.rule.isStructural && !f.rule.isFunctorial && f.rule != .composite

def logicalNodes (f : Arrow) : List Arrow := f.nodes.filter isLogical

@[simp] theorem logicalNodes_identity (a : Formula) : (identity a).logicalNodes = [] := rfl

@[simp] theorem logicalNodes_composite (f g : Arrow) :
    (composite f g).logicalNodes = f.logicalNodes ++ g.logicalNodes := by
  simp [logicalNodes, nodes, isLogical, rule]

@[simp] theorem logicalNodes_onConj (k : Connective) (f g : Arrow) :
    (onConj k f g).logicalNodes = f.logicalNodes ++ g.logicalNodes := by
  simp [logicalNodes, nodes, isLogical, rule, Rule.isFunctorial]

@[simp] theorem logicalNodes_layer (l : Layer) (f : Arrow) :
    (l.mapArrow f).logicalNodes = f.logicalNodes := by
  cases l with
  | conj k hole other =>
      cases hole <;> simp [Layer.mapArrow, logicalNodes, nodes, isLogical, rule, Rule.isFunctorial]
  | not | always | quant q v =>
      simp [Layer.mapArrow, logicalNodes, nodes, isLogical, rule, Rule.isFunctorial]

theorem isLogical_prim (p : Primitive) : (prim p).isLogical = !p.rule.isStructural := by
  cases p <;> rfl

theorem logicalNodes_prim (p : Primitive) :
    (prim p).logicalNodes = if p.rule.isStructural then [] else [prim p] := by
  cases structural : p.rule.isStructural <;>
    simp [logicalNodes, nodes, isLogical_prim, structural]

theorem logicalNodes_of_inner? {s : Arrow} {F : Frame} {a : Arrow × Arrow}
    (inside : s.inner? = some (F, a)) :
    s.logicalNodes = a.1.logicalNodes ++ a.2.logicalNodes := by
  cases s <;> cases inside <;>
    simp [logicalNodes, nodes, isLogical, rule, Rule.isFunctorial, Rule.isStructural, blank]

theorem count_logicalNodes_additive (x : Arrow) : Additive fun f => f.logicalNodes.count x where
  composite f g := by simp
  framed inside := by simp [logicalNodes_of_inner? inside]
  identity _ _ := Nat.zero_le _

theorem logicalNodes_compress_subperm (f : Arrow) :
    f.compress.logicalNodes.Subperm f.logicalNodes := by
  apply List.subperm_ext_iff.mpr
  intro x member
  exact (count_logicalNodes_additive x).compressWithin_le (f.depth + 1) f

theorem isLogical_of_eqv {p : Primitive} (logical : (prim p).isLogical) {g : Arrow}
    (same : g.eqv (prim p)) : g.isLogical := by
  cases g with
  | prim r =>
      have forms : r.form = p.form := (r.eqv_iff_form p).mp same
      have rules : r.rule = p.rule := by rw [← r.form_rule, ← p.form_rule, forms]
      rwa [isLogical_prim, rules, ← isLogical_prim]
  | _ => cases same

theorem uses_eq_countP {p : Primitive} (logical : (prim p).isLogical) (f : Arrow) :
    f.uses p = f.logicalNodes.countP fun g => g.eqv (prim p) := by
  rw [uses, logicalNodes, List.countP_filter]
  apply List.countP_congr
  intro g member
  constructor
  · intro same
    rw [same, isLogical_of_eqv logical same]
    rfl
  · intro both
    exact (Bool.and_eq_true_iff.mp both).1

theorem isInvertible_of_isStructural {p : Primitive} (structural : p.rule.isStructural) :
    p.isInvertible := by
  cases p with
  | commute | associateA | associateB | introUnit | removeUnit => rfl
  | _ => cases structural

theorem isLogical_of_lossy {p : Primitive} (lossy : p.isInvertible = false) :
    (prim p).isLogical := by
  rw [isLogical_prim, Bool.not_eq_true', Bool.eq_false_iff]
  intro structural
  rw [isInvertible_of_isStructural structural] at lossy
  cases lossy

theorem logicalNodes_compress_nil {f : Arrow} (structural : f.logicalNodes = []) :
    f.compress.logicalNodes = [] := by
  have fewer := f.logicalNodes_compress_subperm
  rw [structural] at fewer
  exact List.subperm_nil.mp fewer

theorem logicalNodes_compress_singleton {f : Arrow} (typed : f.WellTyped) {p : Primitive}
    (lossy : p.isInvertible = false) (single : f.logicalNodes = [prim p]) :
    f.compress.logicalNodes = [prim p] := by
  have logical := isLogical_of_lossy lossy
  have kept : f.compress.uses p = 1 := by
    rw [← (congruent_compress f typed).uses_eq lossy, uses_eq_countP logical, single]
    simp [eqv, (p.eqv_iff_form p).mpr rfl]
  have enough : 1 ≤ f.compress.logicalNodes.length := by
    rw [← kept, uses_eq_countP logical]
    exact List.countP_le_length
  have fewer := f.logicalNodes_compress_subperm
  rw [single] at fewer
  exact List.perm_singleton.mp (fewer.perm_of_length_le enough)

theorem Inverse.logicalNodes_nil {f r : Arrow} (inverse : Inverse f r)
    (structural : f.logicalNodes = []) : r.logicalNodes = [] := by
  induction inverse with
  | refl a => rfl
  | comp first second ih ih' =>
      rw [logicalNodes_composite, List.append_eq_nil_iff] at structural ⊢
      exact ⟨ih' structural.2, ih structural.1⟩
  | inside l inner ih =>
      rw [logicalNodes_layer] at structural ⊢
      exact ih structural
  | both k left right ih ih' =>
      rw [logicalNodes_onConj, List.append_eq_nil_iff] at structural ⊢
      exact ⟨ih structural.1, ih' structural.2⟩
  | @primitive p p' inverse =>
      have rules : p'.rule.isStructural = p.rule.isStructural := by
        cases p <;> cases inverse <;> rfl
      rw [logicalNodes_prim] at structural ⊢
      split at structural
      · rw [rules, if_pos ‹_›]
      · cases structural

theorem isInvertible_iff_logicalNodes (f : Arrow) :
    f.isInvertible ↔ ∀ g ∈ f.logicalNodes, g.isInvertible := by
  induction f using layer_induction with
  | identity a => simp [isInvertible]
  | composite f g first second => simp [isInvertible, first, second, or_imp, forall_and]
  | inside l f ih => rw [isInvertible_mapArrow, logicalNodes_layer, ih]
  | onConj k f g left right => simp [isInvertible, left, right, or_imp, forall_and]
  | prim p =>
      rw [logicalNodes_prim]
      by_cases structural : p.rule.isStructural
      · simp [structural, isInvertible, isInvertible_of_isStructural structural]
      · simp [structural]

end LinearCalculus.Arrow
