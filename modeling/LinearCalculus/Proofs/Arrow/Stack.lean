import LinearCalculus.Proofs.Arrow.Outline

namespace LinearCalculus.Arrow

/-- The steps that compression leaves, the last one on top. -/
def stack (f : Arrow) : List Arrow :=
  (f.steps.map (compressStep compress)).foldl (push compress) []

theorem compress_eq_joined (f : Arrow) : f.compress = joined f.source f.stack :=
  compress_eq f

theorem push_steps_ne_nil (steps stack : List Arrow) (started : stack ≠ [] ∨ steps ≠ []) :
    steps.foldl (push compress) stack ≠ [] := by
  induction steps generalizing stack with
  | nil => simpa using started
  | cons s steps ih => exact ih (push compress stack s) (.inl (push_ne_nil compress stack s))

theorem stack_ne_nil (f : Arrow) : f.stack ≠ [] := by
  apply push_steps_ne_nil
  simp [steps_ne_nil]

theorem stack_isStep (f : Arrow) : ∀ s ∈ f.stack, s.IsStep := by
  intro s member
  exact (shallow_stack compress compress_identity depth_compress_le f s member).1

theorem joined_eq (a b : Formula) (stack : List Arrow) (proper : stack ≠ []) :
    joined a stack = joined b stack := by
  cases stack with
  | nil => exact absurd rfl proper
  | cons last before => rfl

theorem compress_congr_stack (f g : Arrow) (same : f.stack = g.stack) :
    f.compress = g.compress := by
  rw [compress_eq_joined, compress_eq_joined, same]
  exact joined_eq _ _ _ (stack_ne_nil g)

theorem steps_foldl_composite (before : List Arrow) (last : Arrow) (all : ∀ s ∈ before, s.IsStep) :
    (before.foldl (fun g f => composite f g) last).steps = before.reverse ++ last.steps := by
  induction before generalizing last with
  | nil => rfl
  | cons f before ih =>
      obtain ⟨here, below⟩ := List.forall_mem_cons.mp all
      rw [List.foldl_cons, ih (composite f last) below, steps, steps_of_isStep f here,
        List.reverse_cons, List.append_assoc]

theorem steps_compress (f : Arrow) : f.compress.steps = f.stack.reverse := by
  rw [compress_eq_joined]
  have all := stack_isStep f
  cases known : f.stack with
  | nil => exact absurd known (stack_ne_nil f)
  | cons last before =>
      rw [known] at all
      obtain ⟨top, below⟩ := List.forall_mem_cons.mp all
      rw [joined, steps_foldl_composite before last below, steps_of_isStep last top,
        List.reverse_cons]

theorem outline_foldl_composite (before before' : List Arrow) (last last' : Arrow)
    (same : before.map outline = before'.map outline) (top : last.outline = last'.outline) :
    (before.foldl (fun g f => composite f g) last).outline =
      (before'.foldl (fun g f => composite f g) last').outline := by
  induction before generalizing before' last last' with
  | nil =>
      cases before' with
      | nil => exact top
      | cons g before' => cases same
  | cons f before ih =>
      cases before' with
      | nil => cases same
      | cons g before' =>
          obtain ⟨here, below⟩ := List.cons.inj same
          have both : (composite f last).outline = (composite g last').outline := by
            rw [outline, outline, here, top]
          exact ih before' (composite f last) (composite g last') below both

theorem outline_compress_of_stack (f g : Arrow) (same : f.stack.map outline = g.stack.map outline) :
    f.compress.outline = g.compress.outline := by
  rw [compress_eq_joined, compress_eq_joined]
  cases first : f.stack with
  | nil => exact absurd first (stack_ne_nil f)
  | cons last before =>
      cases second : g.stack with
      | nil => exact absurd second (stack_ne_nil g)
      | cons last' before' =>
          rw [first, second] at same
          obtain ⟨top, below⟩ := List.cons.inj same
          exact outline_foldl_composite before before' last last' below top

/-- No step merges with the one below it. -/
def Reduced : List Arrow → Prop
  | [] | [_] => True
  | t :: s :: rest => merge? compress s t = none ∧ Reduced (s :: rest)

theorem reduced_tail {t : Arrow} {rest : List Arrow} (reduced : Reduced (t :: rest)) :
    Reduced rest := by
  cases rest with
  | nil => trivial
  | cons s rest => exact reduced.2

theorem push_reduced (stack : List Arrow) (g : Arrow) (reduced : Reduced stack) :
    Reduced (push compress stack g) := by
  induction stack generalizing g with
  | nil => trivial
  | cons f stack ih =>
      unfold push
      cases merged : merge? compress f g with
      | none => exact ⟨merged, reduced⟩
      | some h => exact ih h (reduced_tail reduced)

theorem push_steps_reduced (steps stack : List Arrow) (reduced : Reduced stack) :
    Reduced (steps.foldl (push compress) stack) := by
  induction steps generalizing stack with
  | nil => exact reduced
  | cons s steps ih => exact ih (push compress stack s) (push_reduced stack s reduced)

theorem stack_reduced (f : Arrow) : Reduced f.stack :=
  push_steps_reduced _ [] trivial

theorem push_of_reduced (t : Arrow) (rest : List Arrow) (reduced : Reduced (t :: rest)) :
    push compress rest t = t :: rest := by
  cases rest with
  | nil => rfl
  | cons s rest => rw [push, reduced.1]

theorem push_steps_of_reduced (stack : List Arrow) (reduced : Reduced stack) :
    stack.reverse.foldl (push compress) [] = stack := by
  induction stack with
  | nil => rfl
  | cons t rest ih =>
      rw [List.reverse_cons, List.foldl_append, ih (reduced_tail reduced)]
      exact push_of_reduced t rest reduced

theorem eq_nil_of_reduced_identity (a : Formula) (rest : List Arrow)
    (reduced : Reduced (identity a :: rest)) : rest = [] := by
  cases rest with
  | nil => rfl
  | cons s rest =>
      cases plain : s.isId with
      | true =>
          rw [eq_identity_of_isId s plain] at reduced
          cases reduced.1
      | false =>
          rw [Reduced, merge?_identity_last compress s a plain] at reduced
          cases reduced.1

theorem outlines_push_identity (stack : List Arrow) (b : Formula) (proper : stack ≠ [])
    (reduced : Reduced stack) :
    (push compress stack (identity b)).map outline = stack.map outline := by
  cases stack with
  | nil => exact absurd rfl proper
  | cons t rest =>
      cases plain : t.isId with
      | true =>
          rw [eq_identity_of_isId t plain] at reduced ⊢
          rw [eq_nil_of_reduced_identity _ rest reduced]
          rfl
      | false =>
          rw [push, merge?_identity_last compress t b plain]
          exact congrArg (List.map outline) (push_of_reduced t rest reduced)

theorem stack_composite (f g : Arrow) :
    (composite f g).stack =
      (g.steps.map (compressStep compress)).foldl (push compress) f.stack := by
  rw [stack, steps, List.map_append, List.foldl_append]
  rfl

theorem stack_two_steps (s t : Arrow) (step : s.IsStep) (step' : t.IsStep) :
    (composite s t).stack = push compress [compressStep compress s] (compressStep compress t) := by
  rw [stack_composite, stack, steps_of_isStep s step, steps_of_isStep t step']
  rfl

theorem compress_identity_first (a : Formula) (f : Arrow) :
    (composite (identity a) f).compress = f.compress := by
  apply compress_congr_stack
  rw [stack_composite]
  unfold stack
  cases known : f.steps with
  | nil => exact absurd known (steps_ne_nil f)
  | cons s steps => rfl

theorem outline_compress_identity_last (f : Arrow) (a : Formula) :
    (composite f (identity a)).compress.outline = f.compress.outline := by
  apply outline_compress_of_stack
  rw [stack_composite]
  exact outlines_push_identity f.stack a (stack_ne_nil f) (stack_reduced f)

theorem compress_assoc (f g h : Arrow) :
    (composite (composite f g) h).compress = (composite f (composite g h)).compress := by
  apply compress_congr_stack
  simp only [stack, steps, List.append_assoc]

theorem compress_of_isStep (s : Arrow) (step : s.IsStep) :
    s.compress = compressStep compress s := by
  rw [compress_eq_joined, stack, steps_of_isStep s step]
  rfl

theorem compress_of_inner? {s : Arrow} {F : Frame} {a : Arrow × Arrow}
    (inside : s.inner? = some (F, a)) : s.compress = F.wrap (a.1.compress, a.2.compress) := by
  rw [compress_of_isStep s (isStep_of_inner? inside),
    compressStep_inner compress compress_identity inside]

end LinearCalculus.Arrow
