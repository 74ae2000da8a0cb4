import LinearCalculus.Proofs.Arrow.Compression

/-! Steps and their frames.

A step is an identity, a primitive rule, or a frame around the arrows inside it. The frame
of a connective has two places, so an arrow on one side has an identity on the other. All
other frames have one place; they are given a second arrow that nothing looks at. In these
terms two steps merge if one is an identity, if their frames are the same, or if the second
undoes the first, and these are the only ways. -/

namespace LinearCalculus

inductive Frame where
  | not
  | always
  | quant (q : Quantifier) (v : Var)
  | conj (k : Connective)
  deriving DecidableEq, Repr

namespace Frame

def variance : Frame → Variance
  | not => .contravariant
  | _ => .covariant

/-- The least step that has the arrows in the places of the frame. -/
def wrap : Frame → Arrow × Arrow → Arrow
  | not, a => Arrow.lifted .onNot a.1
  | always, a => Arrow.lifted .onAlways a.1
  | quant q v, a => Arrow.lifted (.onBody q v) a.1
  | conj k, a => Arrow.beside k a.1 a.2

/-- Compose and compress what stands in each place of two steps that follow each other. -/
def follow (next : Arrow → Arrow) (F : Frame) (a b : Arrow × Arrow) : Arrow × Arrow :=
  (next (F.variance.composite a.1 b.1), next (F.variance.composite a.2 b.2))

/-- The frame has no second place, and an identity is given for it. -/
def Blank : Frame → Arrow × Arrow → Prop
  | conj _, _ => True
  | _, a => a.2.isId

end Frame

namespace Arrow

/-- What stands in the second place of a frame that has only one. -/
def blank : Arrow := identity (.unit true)

def inner? : Arrow → Option (Frame × Arrow × Arrow)
  | onNot f => some (.not, f, blank)
  | onAlways f => some (.always, f, blank)
  | onBody q v f => some (.quant q v, f, blank)
  | onLeft k f b => some (.conj k, f, identity b)
  | onRight k a g => some (.conj k, identity a, g)
  | onConj k f g => some (.conj k, f, g)
  | identity _ | composite _ _ | prim _ => none

def IsStep : Arrow → Prop
  | composite _ _ => False
  | _ => True

theorem steps_of_isStep (s : Arrow) (step : s.IsStep) : s.steps = [s] := by
  cases s with
  | composite f g => exact step.elim
  | _ => rfl

theorem isStep_of_mem_steps (f s : Arrow) (member : s ∈ f.steps) : s.IsStep := by
  induction f with
  | composite f g first second =>
      rcases List.mem_append.mp member with before | after
      · exact first before
      · exact second after
  | identity a | onLeft k f b ih | onRight k a f ih | onConj k f g ih ih' | onNot f ih
  | onAlways f ih | onBody q v f ih | prim p =>
      rw [List.mem_singleton.mp member]
      trivial

theorem steps_ne_nil (f : Arrow) : f.steps ≠ [] := by
  induction f with
  | composite f g first second => simp [steps, first]
  | _ => simp [steps]

theorem isStep_of_inner? {s : Arrow} {F : Frame} {a : Arrow × Arrow}
    (inside : s.inner? = some (F, a)) : s.IsStep := by
  cases s with
  | composite f g => cases inside
  | _ => trivial

theorem blank_of_inner? {s : Arrow} {F : Frame} {a : Arrow × Arrow}
    (inside : s.inner? = some (F, a)) : F.Blank a := by
  cases s <;> cases inside <;> trivial

theorem isId_of_inner? {s : Arrow} {F : Frame} {a : Arrow × Arrow}
    (inside : s.inner? = some (F, a)) : s.isId = false := by
  cases s <;> cases inside <;> rfl

theorem IsStep.cases {s : Arrow} (step : s.IsStep) :
    (∃ a, s = identity a) ∨ (∃ p, s = prim p) ∨ ∃ F a, s.inner? = some (F, a) := by
  cases s with
  | identity a => exact .inl ⟨a, rfl⟩
  | composite f g => exact step.elim
  | prim p => exact .inr (.inl ⟨p, rfl⟩)
  | onLeft | onRight | onConj | onNot | onAlways | onBody => exact .inr (.inr ⟨_, _, rfl⟩)

theorem wrap_isStep (F : Frame) (a : Arrow × Arrow) : (F.wrap a).IsStep := by
  cases F with
  | not | always | quant q v =>
      simp only [Frame.wrap, lifted]
      split <;> trivial
  | conj k =>
      simp only [Frame.wrap, beside]
      split <;> trivial

theorem wrap_isId (F : Frame) (a : Arrow × Arrow) (single : F.Blank a) :
    (F.wrap a).isId = (a.1.isId && a.2.isId) := by
  cases F with
  | not | always | quant q v =>
      have second : a.2.isId = true := single
      cases first : a.1.isId <;> rw [second] <;> simp only [Frame.wrap, lifted, first] <;> rfl
  | conj k =>
      cases first : a.1.isId <;> cases second : a.2.isId <;>
        simp only [Frame.wrap, beside, first, second] <;> rfl

/-- The second step, a primitive rule, is the inverse of the first. -/
def Undoes (p p' : Primitive) : Prop := ∃ r, p.reverse? = some r ∧ r.eqv p'

theorem prim_undoes (p : Primitive) (g : Arrow) (undone : (prim p).undoes g) :
    ∃ p', g = prim p' ∧ Undoes p p' := by
  unfold undoes at undone
  cases inverse : p.reverse? with
  | none => simp [reverse, inverse] at undone
  | some r =>
      have same : (prim r).eqv g := by
        simp only [reverse, inverse, Bool.and_eq_true] at undone
        exact undone.2
      cases g with
      | prim p' => exact ⟨p', rfl, r, inverse, same⟩
      | _ => cases same

theorem undoes_prim (p p' : Primitive) (undone : Undoes p p') : (prim p).undoes (prim p') := by
  obtain ⟨r, inverse, same⟩ := undone
  have outside : p.rule.isFunctorial = false := by cases p <;> rfl
  have equal : (prim r).eqv (prim p') := same
  simp [undoes, rule, outside, reverse, inverse, equal]

section

variable (next : Arrow → Arrow)

theorem merge?_identity_last (f : Arrow) (b : Formula) (proper : f.isId = false) :
    merge? next f (identity b) = some f := by
  cases f with
  | identity a => cases proper
  | _ => rfl

theorem merge?_inner {s t : Arrow} {F F' : Frame} {a b : Arrow × Arrow}
    (first : s.inner? = some (F, a)) (second : t.inner? = some (F', b)) :
    merge? next s t = if F = F' then some (F.wrap (F.follow next a b)) else none := by
  cases s <;> cases first <;> cases t <;> cases second <;>
    simp [merge?, mergeBeside, sides?, undoes, rule, Rule.isFunctorial, Frame.wrap, Frame.follow,
      Frame.variance, Variance.composite]

theorem merge?_prim (p p' : Primitive) (undone : Undoes p p') :
    merge? next (prim p) (prim p') = some (identity p.source) := by
  simp [merge?, mergeBeside, sides?, undoes_prim p p' undone, source]

/-- All ways in which two steps merge. -/
inductive Merged : Arrow → Arrow → Arrow → Prop where
  | first (a : Formula) (t : Arrow) : Merged (identity a) t t
  | last {s : Arrow} (b : Formula) (proper : s.isId = false) : Merged s (identity b) s
  | framed {s t : Arrow} {F : Frame} {a b : Arrow × Arrow} (inside : s.inner? = some (F, a))
      (inside' : t.inner? = some (F, b)) : Merged s t (F.wrap (F.follow next a b))
  | undone {p p' : Primitive} (undone : Undoes p p') :
      Merged (prim p) (prim p') (identity p.source)

theorem Merged.merge?_eq {s t h : Arrow} (merged : Merged next s t h) :
    merge? next s t = some h := by
  cases merged with
  | first a => rfl
  | last b proper => exact merge?_identity_last next s b proper
  | framed inside inside' => rw [merge?_inner next inside inside', if_pos rfl]
  | undone undone => exact merge?_prim next _ _ undone

theorem merged_of_merge? {s t h : Arrow} (step : s.IsStep) (step' : t.IsStep)
    (merged : merge? next s t = some h) : Merged next s t h := by
  rcases step.cases with ⟨c, rfl⟩ | ⟨p, rfl⟩ | ⟨F, a, inside⟩
  · cases merged
    exact .first c t
  · rcases step'.cases with ⟨c, rfl⟩ | ⟨p', rfl⟩ | ⟨F', b, inside'⟩
    · cases merged
      exact .last c rfl
    · have undone : (prim p).undoes (prim p') ∧ identity p.source = h := by
        simpa [merge?, mergeBeside, sides?, source] using merged
      obtain ⟨r, same, undone'⟩ := prim_undoes p (prim p') undone.1
      cases same
      exact undone.2 ▸ .undone undone'
    · have barred : (prim p).undoes t = false := by
        rw [Bool.eq_false_iff]
        intro undone
        obtain ⟨p', rfl, _⟩ := prim_undoes p t undone
        cases inside'
      cases t <;> cases inside' <;> simp [merge?, mergeBeside, sides?, barred] at merged
  · rcases step'.cases with ⟨c, rfl⟩ | ⟨p', rfl⟩ | ⟨F', b, inside'⟩
    · rw [merge?_identity_last next s c (isId_of_inner? inside)] at merged
      cases merged
      exact .last c (isId_of_inner? inside)
    · cases s <;> cases inside <;>
        simp [merge?, mergeBeside, sides?, undoes, rule, Rule.isFunctorial] at merged
    · rw [merge?_inner next inside inside'] at merged
      split at merged
      · rename_i same
        subst same
        cases merged
        exact .framed inside inside'
      · cases merged

theorem compressStep_inner (keeps : ∀ b, next (identity b) = identity b) {s : Arrow} {F : Frame}
    {a : Arrow × Arrow} (inside : s.inner? = some (F, a)) :
    compressStep next s = F.wrap (next a.1, next a.2) := by
  cases s <;> cases inside <;> simp only [compressStep, Frame.wrap]
  case onLeft.refl k f b =>
      have other : (next (identity b)).isId = true := by rw [keeps]; rfl
      cases plain : (next f).isId <;> simp only [lifted, beside, plain, other] <;>
        simp [keeps, source]
  case onRight.refl k a f =>
      have other : (next (identity a)).isId = true := by rw [keeps]; rfl
      cases plain : (next f).isId <;> simp only [lifted, beside, plain, other] <;>
        simp [keeps, source]

theorem isStep_compressStep (keeps : ∀ b, next (identity b) = identity b) (s : Arrow)
    (step : s.IsStep) : (compressStep next s).IsStep := by
  rcases step.cases with ⟨c, rfl⟩ | ⟨p, rfl⟩ | ⟨F, a, inside⟩
  · trivial
  · trivial
  · rw [compressStep_inner next keeps inside]
    exact wrap_isStep F _

theorem isStep_of_merged {s t h : Arrow} (merged : Merged next s t h) (step : s.IsStep)
    (step' : t.IsStep) : h.IsStep := by
  cases merged with
  | first a => exact step'
  | last b proper => exact step
  | framed inside inside' => exact wrap_isStep _ _
  | undone undone => trivial

theorem push_all {P : Arrow → Prop} (merging : ∀ s t h, P s → P t → merge? next s t = some h → P h)
    (stack : List Arrow) (g : Arrow) (all : ∀ s ∈ stack, P s) (top : P g) :
    ∀ s ∈ push next stack g, P s := by
  induction stack generalizing g with
  | nil => exact List.forall_mem_cons.mpr ⟨top, all⟩
  | cons f stack ih =>
      obtain ⟨here, below⟩ := List.forall_mem_cons.mp all
      unfold push
      cases merged : merge? next f g with
      | none => exact List.forall_mem_cons.mpr ⟨top, all⟩
      | some h => exact ih h below (merging f g h here top merged)

theorem push_steps_all {P : Arrow → Prop}
    (merging : ∀ s t h, P s → P t → merge? next s t = some h → P h) (steps stack : List Arrow)
    (all : ∀ s ∈ stack, P s) (new : ∀ s ∈ steps, P s) :
    ∀ s ∈ steps.foldl (push next) stack, P s := by
  induction steps generalizing stack with
  | nil => exact all
  | cons s steps ih =>
      obtain ⟨here, later⟩ := List.forall_mem_cons.mp new
      exact ih (push next stack s) (push_all next merging stack s all here) later

theorem push_isStep (stack : List Arrow) (g : Arrow) (all : ∀ s ∈ stack, s.IsStep)
    (top : g.IsStep) : ∀ s ∈ push next stack g, s.IsStep := by
  refine push_all next ?_ stack g all top
  intro s t h first second found
  exact isStep_of_merged next (merged_of_merge? next first second found) first second

theorem push_ne_nil (stack : List Arrow) (g : Arrow) : push next stack g ≠ [] := by
  induction stack generalizing g with
  | nil => simp [push]
  | cons f stack ih =>
      unfold push
      cases merge? next f g with
      | none => simp
      | some h => exact ih h

end

end Arrow

end LinearCalculus
