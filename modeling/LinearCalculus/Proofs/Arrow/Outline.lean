import LinearCalculus.Proofs.Arrow.Depth

/-! The outline of an arrow.

An outline is an arrow without the formulas of its identities and without those beside the
arrows in its frames; primitive rules keep their formulas, in nameless form. Compression
looks at nothing else. In a well-typed arrow the formulas that are left out are determined
by the outline and one endpoint, so two well-typed arrows from the same formula are equal
exactly if their outlines are. -/

namespace LinearCalculus

open Formula

structure Primitive.Form where
  rule : Rule
  kinds : List Connective
  formulas : List Nameless
  vars : List Var
  ways : List Orientation
  deriving DecidableEq, Repr

namespace Primitive

def form : Primitive → Form
  | commute k a b => ⟨.commute, [k], [a.nameless, b.nameless], [], []⟩
  | associateA k a b c => ⟨.associateA, [k], [a.nameless, b.nameless, c.nameless], [], []⟩
  | associateB k a b c => ⟨.associateB, [k], [a.nameless, b.nameless, c.nameless], [], []⟩
  | introUnit k a => ⟨.introUnit, [k], [a.nameless], [], []⟩
  | removeUnit k a => ⟨.removeUnit, [k], [a.nameless], [], []⟩
  | distribute a b c => ⟨.distribute, [], [a.nameless, b.nameless, c.nameless], [], []⟩
  | forget a b => ⟨.forget, [], [a.nameless, b.nameless], [], []⟩
  | widen a b => ⟨.widen, [], [a.nameless, b.nameless], [], []⟩
  | apply a b => ⟨.apply, [], [a.nameless, b.nameless], [], []⟩
  | introDoubleDual a => ⟨.introDoubleDual, [], [a.nameless], [], []⟩
  | removeDoubleDual a => ⟨.removeDoubleDual, [], [a.nameless], [], []⟩
  | cojoin a => ⟨.cojoin, [], [a.nameless], [], []⟩
  | derelict a => ⟨.derelict, [], [a.nameless], [], []⟩
  | copy a a' => ⟨.copy, [], [a.nameless, a'.nameless], [], []⟩
  | zip a b => ⟨.zip, [], [a.nameless, b.nameless], [], []⟩
  | introExists body x y => ⟨.introExists, [], [body.nameless], [x, y], []⟩
  | removeExists x a => ⟨.removeExists, [], [a.nameless], [x], []⟩
  | introForall x a => ⟨.introForall, [], [a.nameless], [x], []⟩
  | removeForall x body y => ⟨.removeForall, [], [body.nameless], [x, y], []⟩
  | andPastExists a x b => ⟨.andPastExists, [], [a.nameless, b.nameless], [x], []⟩
  | existsPastAnd a x b => ⟨.existsPastAnd, [], [a.nameless, b.nameless], [x], []⟩
  | substitute l r body way => ⟨.substitute, [], [body.nameless], [l, r], [way]⟩

theorem form_rule (p : Primitive) : p.form.rule = p.rule := by
  cases p <;> rfl

theorem eqv_iff_form (p r : Primitive) : p.eqv r ↔ p.form = r.form := by
  constructor
  · fun_cases Primitive.eqv p r <;> simp +contextual [form, alphaEq_iff_nameless]
  · intro same
    have rules : p.rule = r.rule := by rw [← form_rule, ← form_rule, same]
    -- rules of different names are told apart before their formulas are looked at
    cases p <;> cases r <;> cases rules <;>
      simp_all [form, eqv, alphaEq_iff_nameless]

theorem reverse?_form (p r p' : Primitive) (same : p.form = r.form)
    (inverse : p.reverse? = some p') :
    ∃ r', r.reverse? = some r' ∧ p'.form = r'.form := by
  have rules : p.rule = r.rule := by rw [← form_rule, ← form_rule, same]
  cases p <;> cases inverse <;> cases r <;> cases rules <;>
    exact ⟨_, rfl, by simpa [form, and_comm] using same⟩

end Primitive

inductive Outline where
  | identity
  | composite (f g : Outline)
  | onLeft (k : Connective) (f : Outline)
  | onRight (k : Connective) (f : Outline)
  | onConj (k : Connective) (f g : Outline)
  | onNot (f : Outline)
  | onAlways (f : Outline)
  | onBody (q : Quantifier) (v : Var) (f : Outline)
  | prim (form : Primitive.Form)
  deriving DecidableEq, Repr

namespace Arrow

def outline : Arrow → Outline
  | identity _ => .identity
  | composite f g => .composite f.outline g.outline
  | onLeft k f _ => .onLeft k f.outline
  | onRight k _ f => .onRight k f.outline
  | onConj k f g => .onConj k f.outline g.outline
  | onNot f => .onNot f.outline
  | onAlways f => .onAlways f.outline
  | onBody q v f => .onBody q v f.outline
  | prim p => .prim p.form

theorem outline_eq_of_eqv (f g : Arrow) (same : f.eqv g) : f.outline = g.outline := by
  fun_induction eqv f g with
  | case1 => rfl
  | case2 f g f' g' first second =>
      rw [Bool.and_eq_true] at same
      rw [outline, outline, first same.1, second same.2]
  | case3 k f b k' f' b' ih | case4 k a f k' a' f' ih | case8 q v f q' v' f' ih =>
      simp only [Bool.and_eq_true, beq_iff_eq] at same
      simp [outline, same, ih]
  | case5 k f g k' f' g' left right =>
      simp only [Bool.and_eq_true, beq_iff_eq] at same
      simp [outline, same, left, right]
  | case6 f f' ih => rw [outline, outline, ih same]
  | case7 f f' ih => rw [outline, outline, ih same]
  | case9 p p' => rw [outline, outline, (p.eqv_iff_form p').mp same]
  | case10 => cases same

/-- One endpoint fixes the formulas that an outline leaves out. -/
theorem eqv_of_outline (f g : Arrow) (same : f.outline = g.outline) (first : f.WellTyped)
    (second : g.WellTyped) (ends : f.source.alphaEq g.source ∨ f.target.alphaEq g.target) :
    f.eqv g := by
  induction f generalizing g with
  | identity a =>
      cases g with
      | identity b => exact ends.elim id id
      | _ => cases same
  | composite f f' ih ih' =>
      cases g with
      | composite g g' =>
          obtain ⟨front, front'⟩ := Outline.composite.inj same
          obtain ⟨left, right, fits⟩ := composite_wellTyped.mp first
          obtain ⟨left', right', fits'⟩ := composite_wellTyped.mp second
          -- the known endpoint settles one part, and that part settles the middle
          rcases ends with source | target
          · have start := ih g front left left' (.inl source)
            have middle := (eqv_parallel f g start left left').target
            have between := alphaEq_trans (alphaEq_symm fits) (alphaEq_trans middle fits')
            have rest := ih' g' front' right right' (.inl between)
            simp [eqv, start, rest]
          · have rest := ih' g' front' right right' (.inr target)
            have middle := (eqv_parallel f' g' rest right right').source
            have between := alphaEq_trans fits (alphaEq_trans middle (alphaEq_symm fits'))
            have start := ih g front left left' (.inr between)
            simp [eqv, start, rest]
      | _ => cases same
  | onLeft k f b ih =>
      cases g with
      | onLeft k' g b' =>
          obtain ⟨rfl, inner⟩ := Outline.onLeft.inj same
          simp only [source, target, alphaEq_conj, Bool.and_eq_true] at ends
          have inside := ih g inner first second (ends.imp And.left And.left)
          have beside : b.alphaEq b' := ends.elim And.right And.right
          simp [eqv, inside, beside]
      | _ => cases same
  | onRight k a f ih =>
      cases g with
      | onRight k' a' g =>
          obtain ⟨rfl, inner⟩ := Outline.onRight.inj same
          simp only [source, target, alphaEq_conj, Bool.and_eq_true] at ends
          have inside := ih g inner first second (ends.imp And.right And.right)
          have beside : a.alphaEq a' := ends.elim And.left And.left
          simp [eqv, inside, beside]
      | _ => cases same
  | onConj k f f' ih ih' =>
      cases g with
      | onConj k' g g' =>
          obtain ⟨rfl, inner, inner'⟩ := Outline.onConj.inj same
          simp only [source, target, alphaEq_conj, Bool.and_eq_true] at ends
          have left := ih g inner first.1 second.1 (ends.imp And.left And.left)
          have right := ih' g' inner' first.2 second.2 (ends.imp And.right And.right)
          simp [eqv, left, right]
      | _ => cases same
  | onNot f ih =>
      cases g with
      | onNot g => exact ih g (Outline.onNot.inj same) first second ends.symm
      | _ => cases same
  | onAlways f ih =>
      cases g with
      | onAlways g => exact ih g (Outline.onAlways.inj same) first second ends
      | _ => cases same
  | onBody q v f ih =>
      cases g with
      | onBody q' v' g =>
          obtain ⟨rfl, rfl, inner⟩ := Outline.onBody.inj same
          simp only [source, target, alphaEq_quant] at ends
          simp [eqv, ih g inner first second ends]
      | _ => cases same
  | prim p =>
      cases g with
      | prim p' => exact (p.eqv_iff_form p').mpr (Outline.prim.inj same)
      | _ => cases same

theorem isId_iff_outline (f : Arrow) : f.isId ↔ f.outline = .identity := by
  cases f <;> simp [isId, outline]

theorem isId_congr {f g : Arrow} (same : f.outline = g.outline) : f.isId = g.isId := by
  rw [Bool.eq_iff_iff, isId_iff_outline, isId_iff_outline, same]

theorem depth_congr (f g : Arrow) (same : f.outline = g.outline) : f.depth = g.depth := by
  induction f generalizing g <;> cases g <;> simp_all [outline, depth] <;> grind

theorem steps_congr (f g : Arrow) (same : f.outline = g.outline) :
    f.steps.map outline = g.steps.map outline := by
  induction f generalizing g with
  | composite f f' ih ih' =>
      cases g with
      | composite g g' =>
          obtain ⟨front, back⟩ := Outline.composite.inj same
          simp only [steps, List.map_append]
          rw [ih g front, ih' g' back]
      | _ => cases same
  | _ =>
      cases g with
      | composite g g' => cases same
      | _ => simp [steps, same]

theorem isStep_congr {f g : Arrow} (same : f.outline = g.outline) (step : f.IsStep) : g.IsStep := by
  cases g with
  | composite g g' =>
      cases f with
      | composite f f' => exact step
      | _ => cases same
  | _ => trivial

theorem eq_identity_of_outline {s : Arrow} (same : s.outline = .identity) : ∃ a, s = identity a :=
  ⟨s.source, eq_identity_of_isId s ((isId_iff_outline s).mpr same)⟩

theorem eq_prim_of_outline {s : Arrow} {p : Primitive} (same : s.outline = (prim p).outline) :
    ∃ r, s = prim r ∧ r.form = p.form := by
  cases s with
  | prim r => exact ⟨r, rfl, Outline.prim.inj same⟩
  | _ => cases same

def outlines (a : Arrow × Arrow) : Outline × Outline := (a.1.outline, a.2.outline)

theorem inner?_congr {s t : Arrow} {F : Frame} {a : Arrow × Arrow} (same : s.outline = t.outline)
    (inside : s.inner? = some (F, a)) : ∃ b, t.inner? = some (F, b) ∧ outlines a = outlines b := by
  cases s <;> cases inside <;> cases t <;> simp only [outline, reduceCtorEq] at same <;>
    simp_all [inner?, outlines, outline]

theorem outline_wrap_congr (F : Frame) {a b : Arrow × Arrow} (same : outlines a = outlines b) :
    (F.wrap a).outline = (F.wrap b).outline := by
  obtain ⟨first, second⟩ := Prod.mk.inj same
  have left := isId_congr first
  have right := isId_congr second
  cases F with
  | not | always | quant q v =>
      simp only [Frame.wrap, lifted, ← left]
      split <;> simp [outline, first]
  | conj k =>
      simp only [Frame.wrap, beside, ← left, ← right]
      split <;> simp [outline, first, second]

theorem inner?_wrap (F : Frame) (a : Arrow × Arrow) (single : F.Blank a)
    (proper : (F.wrap a).isId = false) :
    ∃ b, (F.wrap a).inner? = some (F, b) ∧ F.wrap b = F.wrap a ∧ outlines b = outlines a := by
  rw [wrap_isId F a single] at proper
  cases F with
  | not | always | quant q v =>
      have second : a.2.outline = .identity := (isId_iff_outline a.2).mp single
      have first : a.1.isId = false := by simpa [show a.2.isId = true from single] using proper
      refine ⟨(a.1, blank), ?_, rfl, by simp [outlines, second, blank, outline]⟩
      simp only [Frame.wrap, lifted, first, Bool.false_eq_true, if_false, inner?]
  | conj k =>
      cases first : a.1.isId with
      | true =>
          have plain := (isId_iff_outline a.1).mp first
          have second : a.2.isId = false := by simpa [first] using proper
          have left : (identity a.1.source).isId = true := rfl
          refine ⟨(identity a.1.source, a.2), ?_, ?_, by simp [outlines, outline, plain]⟩
          · simp only [Frame.wrap, beside, first, second, inner?]
          · simp only [Frame.wrap, beside, left, first, second, source]
      | false =>
          cases second : a.2.isId with
          | true =>
              have plain := (isId_iff_outline a.2).mp second
              have right : (identity a.2.source).isId = true := rfl
              refine ⟨(a.1, identity a.2.source), ?_, ?_, by simp [outlines, outline, plain]⟩
              · simp only [Frame.wrap, beside, first, second, inner?]
              · simp only [Frame.wrap, beside, first, right, second, source]
          | false =>
              refine ⟨a, ?_, rfl, rfl⟩
              simp only [Frame.wrap, beside, first, second, inner?]

end Arrow

end LinearCalculus
