import LinearCalculus.Proofs.Arrow.Stack
import Mathlib.Data.List.Chain

namespace LinearCalculus.Arrow

/-- Every composite in the chain of steps has a single step in front. -/
def RightNested : Arrow → Prop
  | composite s g => s.IsStep ∧ g.RightNested
  | _ => True

/-- The steps are no identities, no two neighbours merge, and normal forms stand inside them. -/
inductive NormalForm : Arrow → Prop where
  | intro {f : Arrow} (nested : f.RightNested) (proper : ∀ s ∈ f.steps, s.isId = false)
      (apart : f.steps.IsChain (fun s t => merge? compress s t = none))
      (inside : ∀ s ∈ f.steps, ∀ g ∈ s.parts, NormalForm g) : NormalForm f

def Finished (f : Arrow) : Prop := (∃ a, f = identity a) ∨ f.NormalForm

theorem Finished.normalForm {f : Arrow} (finished : f.Finished) (proper : f.isId = false) :
    f.NormalForm := by
  rcases finished with ⟨a, rfl⟩ | normal
  · cases proper
  · exact normal

theorem rightNested_foldl (before : List Arrow) (last : Arrow) (all : ∀ s ∈ before, s.IsStep)
    (nested : last.RightNested) :
    (before.foldl (fun g f => composite f g) last).RightNested := by
  induction before generalizing last with
  | nil => exact nested
  | cons f before ih =>
      rcases List.forall_mem_cons.mp all with ⟨here, below⟩
      exact ih (composite f last) below ⟨here, nested⟩

theorem rightNested_of_isStep {s : Arrow} (step : s.IsStep) : s.RightNested := by
  cases s with
  | composite f g => exact step.elim
  | _ => trivial

theorem compress_rightNested (f : Arrow) : f.compress.RightNested := by
  rw [compress_eq_joined]
  have all := stack_isStep f
  cases known : f.stack with
  | nil => trivial
  | cons last before =>
      rw [known] at all
      rcases List.forall_mem_cons.mp all with ⟨top, below⟩
      exact rightNested_foldl before last below (rightNested_of_isStep top)

theorem reduced_iff_isChain (stack : List Arrow) :
    Reduced stack ↔ stack.IsChain (fun t s => merge? compress s t = none) := by
  induction stack with
  | nil => simp [Reduced]
  | cons t rest ih =>
      cases rest with
      | nil => simp [Reduced]
      | cons s rest => rw [Reduced, ih, List.isChain_cons_cons]

/-- An identity merges with whatever stands beside it, so it stands alone. -/
theorem eq_singleton_of_reduced {stack : List Arrow} {s : Arrow} (reduced : Reduced stack)
    (member : s ∈ stack) (plain : s.isId) : stack = [s] := by
  induction stack with
  | nil => cases member
  | cons t rest ih =>
      rcases List.mem_cons.mp member with rfl | below
      · rw [eq_identity_of_isId s plain] at reduced
        rw [eq_nil_of_reduced_identity _ rest reduced]
      · have alone := ih (reduced_tail reduced) below
        rw [alone, eq_identity_of_isId s plain] at reduced
        cases reduced.1

theorem wrap_parts_normal (F : Frame) (a : Arrow × Arrow) (first : a.1.Finished)
    (second : a.2.Finished) : ∀ g ∈ (F.wrap a).parts, g.NormalForm := by
  cases F with
  | not | always | quant q v =>
      simp only [Frame.wrap, lifted]
      split
      · exact List.forall_mem_nil _
      · rename_i proper
        simpa [parts] using first.normalForm (by simpa using proper)
  | conj k =>
      simp only [Frame.wrap, beside]
      split
      · exact List.forall_mem_nil _
      · rename_i proper
        simpa [parts] using second.normalForm proper
      · rename_i proper _
        simpa [parts] using first.normalForm proper
      · rename_i proper proper'
        simpa [parts] using ⟨first.normalForm proper, second.normalForm proper'⟩

def Tidy (d : Nat) (s : Arrow) : Prop := s.Shallow d ∧ ∀ g ∈ s.parts, g.NormalForm

section

-- compression has been shown to finish one frame deeper
variable {d : Nat} (finishes : ∀ g : Arrow, g.depth < d → g.compress.Finished)
include finishes

theorem tidy_merge? (s t h : Arrow) (first : Tidy d s) (second : Tidy d t)
    (merged : merge? compress s t = some h) : Tidy d h := by
  have shallow := shallow_merge? compress depth_compress_le d s t h first.1 second.1 merged
  refine ⟨shallow, ?_⟩
  cases merged_of_merge? compress first.1.1 second.1.1 merged with
  | first a => exact second.2
  | last b proper => exact first.2
  | @framed _ _ F a b inside inside' =>
      have left := first.1.2
      have right := second.1.2
      rw [depth_of_inner? inside] at left
      rw [depth_of_inner? inside'] at right
      apply wrap_parts_normal
      · apply finishes
        rw [depth_composite]
        omega
      · apply finishes
        rw [depth_composite]
        omega
  | undone undone => exact List.forall_mem_nil _

theorem tidy_compressStep (s : Arrow) (shallow : s.Shallow d) : Tidy d (compressStep compress s) := by
  refine ⟨shallow_compressStep compress compress_identity depth_compress_le d s shallow, ?_⟩
  rcases shallow.1.cases with ⟨c, rfl⟩ | ⟨p, rfl⟩ | ⟨F, a, inside⟩
  · exact List.forall_mem_nil _
  · exact List.forall_mem_nil _
  · have deep := shallow.2
    rw [depth_of_inner? inside] at deep
    rw [compressStep_inner compress compress_identity inside]
    exact wrap_parts_normal F _ (finishes a.1 (by omega)) (finishes a.2 (by omega))

theorem tidy_stack (f : Arrow) (deep : f.depth ≤ d) : ∀ s ∈ f.stack, Tidy d s := by
  apply push_steps_all compress (tidy_merge? finishes)
  · exact List.forall_mem_nil _
  · intro s member
    rcases List.mem_map.mp member with ⟨step, inside, rfl⟩
    have shallow := shallow_of_mem_steps f step inside
    exact tidy_compressStep finishes step ⟨shallow.1, Nat.le_trans shallow.2 deep⟩

end

theorem finished_of_stack (f : Arrow) (inside : ∀ s ∈ f.stack, ∀ g ∈ s.parts, g.NormalForm) :
    f.compress.Finished := by
  have reduced := stack_reduced f
  by_cases plain : ∃ s ∈ f.stack, s.isId
  · rcases plain with ⟨s, member, plain⟩
    left
    rw [compress_eq_joined, eq_singleton_of_reduced reduced member plain]
    exact ⟨_, eq_identity_of_isId s plain⟩
  · right
    refine .intro (compress_rightNested f) ?_ ?_ ?_
    · intro s member
      rw [steps_compress, List.mem_reverse] at member
      rw [Bool.eq_false_iff]
      exact fun identity => plain ⟨s, member, identity⟩
    · rw [steps_compress, List.isChain_reverse]
      exact (reduced_iff_isChain f.stack).mp reduced
    · intro s member
      rw [steps_compress, List.mem_reverse] at member
      exact inside s member

theorem compress_finished (f : Arrow) : f.compress.Finished := by
  -- what stands inside the steps is less deep
  suffices below : ∀ d, ∀ g : Arrow, g.depth < d → g.compress.Finished from
    below (f.depth + 1) f (Nat.lt_succ_self _)
  intro d
  induction d with
  | zero => exact fun g deep => absurd deep (Nat.not_lt_zero _)
  | succ d finishes =>
      intro g deep
      apply finished_of_stack
      intro s member
      exact (tidy_stack finishes g (Nat.le_of_lt_succ deep) s member).2

theorem NormalForm.isIdentity_eq_false {f : Arrow} (normal : f.NormalForm) :
    f.isIdentity = false := by
  induction normal with
  | @intro f nested proper apart inside ih =>
      cases f with
      | composite | prim => rfl
      | identity a => exact proper _ (List.mem_singleton_self _)
      | onConj k f g =>
          have left := ih _ (List.mem_singleton_self _) f (by simp [parts])
          rw [isIdentity, left, Bool.false_and]
      | onLeft k f b | onRight k a f | onNot f | onAlways f | onBody q v f =>
          exact ih _ (List.mem_singleton_self _) f (by simp [parts])

theorem NormalForm.isId_eq_false {f : Arrow} (normal : f.NormalForm) : f.isId = false := by
  cases f with
  | identity a => exact normal.isIdentity_eq_false
  | _ => rfl

theorem isId_iff_rule (f : Arrow) : f.isId ↔ f.rule = .identity := by
  cases f with
  | prim p => cases p <;> simp [isId, rule, Primitive.rule]
  | _ => simp [isId, rule]

theorem Finished.isIdentity_iff {f : Arrow} (finished : f.Finished) :
    f.isIdentity ↔ f.rule = .identity := by
  rw [← isId_iff_rule]
  rcases finished with ⟨a, rfl⟩ | normal
  · exact Iff.rfl
  · rw [normal.isIdentity_eq_false, normal.isId_eq_false]

theorem mem_nodes_cases {f n : Arrow} (member : n ∈ f.nodes) :
    (∃ g h, n = composite g h) ∨ n ∈ f.steps ∨ ∃ s ∈ f.steps, ∃ g ∈ s.parts, n ∈ g.nodes := by
  induction f with
  | composite f g first second =>
      simp only [nodes, List.mem_cons, List.mem_append] at member
      rcases member with rfl | member | member
      · exact .inl ⟨f, g, rfl⟩
      · rcases first member with chained | step | ⟨s, step, inside⟩
        · exact .inl chained
        · exact .inr (.inl (List.mem_append_left _ step))
        · exact .inr (.inr ⟨s, List.mem_append_left _ step, inside⟩)
      · rcases second member with chained | step | ⟨s, step, inside⟩
        · exact .inl chained
        · exact .inr (.inl (List.mem_append_right _ step))
        · exact .inr (.inr ⟨s, List.mem_append_right _ step, inside⟩)
  | _ => simp_all [nodes, steps, parts]

theorem NormalForm.of_onConj {f g h : Arrow} {k : Connective} (normal : f.NormalForm)
    (member : onConj k g h ∈ f.nodes) : g.NormalForm ∧ h.NormalForm := by
  induction normal with
  | @intro f nested proper apart inside ih =>
      rcases mem_nodes_cases member with ⟨_, _, chained⟩ | step | ⟨s, step, part, inner, node⟩
      · cases chained
      · exact ⟨inside _ step g (by simp [parts]), inside _ step h (by simp [parts])⟩
      · exact ih s step part inner node

theorem joined_concat (a : Formula) (stack : List Arrow) (s : Arrow) (started : stack ≠ []) :
    joined a (stack ++ [s]) = composite s (joined a stack) := by
  cases stack with
  | nil => exact absurd rfl started
  | cons last before => simp [joined]

theorem joined_steps (a : Formula) (f : Arrow) (nested : f.RightNested) :
    joined a f.steps.reverse = f := by
  induction f with
  | composite s g first second =>
      have started : g.steps.reverse ≠ [] := by simp [steps_ne_nil]
      rw [steps, steps_of_isStep s nested.1, List.reverse_append, List.reverse_singleton,
        joined_concat a _ s started, second nested.2]
  | _ => rfl

theorem compressStep_eq_self {s : Arrow} (inside : ∀ g ∈ s.parts, g.NormalForm)
    (same : ∀ g ∈ s.parts, g.compress = g) : compressStep compress s = s := by
  cases s with
  | identity a | composite f g | prim p => rfl
  | onConj k f g =>
      simp only [parts, List.forall_mem_cons] at inside same
      simp only [compressStep, beside, same, inside.1.isId_eq_false, inside.2.1.isId_eq_false]
  | onLeft k f b | onRight k a f | onNot f | onAlways f | onBody q v f =>
      simp only [parts, List.forall_mem_cons] at inside same
      simp [compressStep, lifted, same, inside.1.isId_eq_false]

theorem NormalForm.compress_eq_self {f : Arrow} (normal : f.NormalForm) : f.compress = f := by
  induction normal with
  | @intro f nested proper apart inside ih =>
      have steps : f.steps.map (compressStep compress) = f.steps := by
        conv_rhs => rw [← List.map_id f.steps]
        apply List.map_congr_left
        intro s member
        exact compressStep_eq_self (inside s member) (ih s member)
      have reduced : Reduced f.steps.reverse := by
        rw [reduced_iff_isChain, List.isChain_reverse]
        exact apart
      have stacked := push_steps_of_reduced f.steps.reverse reduced
      rw [List.reverse_reverse] at stacked
      rw [compress_eq_joined, stack, steps, stacked]
      exact joined_steps f.source f nested

theorem compress_eq_self_iff {f : Arrow} : f.compress = f ↔ f.Finished := by
  constructor
  · intro same
    rw [← same]
    exact compress_finished f
  · intro finished
    rcases finished with ⟨a, rfl⟩ | normal
    · exact compress_identity a
    · exact normal.compress_eq_self

/-- Compression reaches a normal form: it leaves an identity, or a right-nested composite of steps
that are no identities, of which no neighbours merge, with such arrows inside them. So nothing is
left that acts on both sides of a connective and is an identity on one, and the result is found to
be an identity only if that is its rule. The arrows of this form are those that stay as they are. -/
theorem compress_reaches_normal_form (f : Arrow) :
    ((∃ a, f.compress = identity a) ∨ f.compress.NormalForm) ∧
      (∀ k g h, onConj k g h ∈ f.compress.nodes → g.isIdentity = false ∧ h.isIdentity = false) ∧
      (f.compress.isIdentity ↔ f.compress.rule = .identity) ∧
      (f.compress = f ↔ (∃ a, f = identity a) ∨ f.NormalForm) := by
  have finished := compress_finished f
  refine ⟨finished, ?_, finished.isIdentity_iff, compress_eq_self_iff⟩
  intro k g h member
  rcases finished with ⟨a, plain⟩ | normal
  · rw [plain] at member
    cases List.mem_singleton.mp member
  · rcases normal.of_onConj member with ⟨left, right⟩
    exact ⟨left.isIdentity_eq_false, right.isIdentity_eq_false⟩

/-- Two steps on the left meet when the one on the right between them has been merged with the
first; below the negation they come in the other order. -/
theorem compress_reaches_normal_form_on_both_sides :
    let a : Formula := .holds ⟨0⟩ ⟨1⟩
    let b : Formula := .not (.not a)
    let p := prim (.introDoubleDual a)
    let q := prim (.introDoubleDual b)
    let f := composite (composite (onLeft .and (onNot q) a) (onRight .and (.not b) p))
      (onLeft .and (onNot p) b)
    f.WellTyped ∧ f.compress = onConj .and (onNot (composite p q)) p ∧
      onConj .and (onNot (composite p q)) p ∈ f.compress.nodes ∧ f.compress.NormalForm ∧
      (onNot (composite p q)).isIdentity = false ∧ p.isIdentity = false := by
  intro a b p q f
  have result : f.compress = onConj .and (onNot (composite p q)) p := by decide
  have member : onConj .and (onNot (composite p q)) p ∈ f.compress.nodes := by
    rw [result]
    exact List.mem_cons_self
  rcases compress_reaches_normal_form f with ⟨⟨c, plain⟩ | normal, sides, _⟩
  · rw [result] at plain
    cases plain
  · exact ⟨by decide, result, member, normal, sides _ _ _ member⟩

end LinearCalculus.Arrow
