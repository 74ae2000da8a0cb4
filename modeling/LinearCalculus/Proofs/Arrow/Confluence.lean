import LinearCalculus.Proofs.Arrow.Merging

/-! Confluence of compression.

Steps that merge may be merged before or after they come on a stack of settled steps. By
induction on the depth, the outline of a compressed arrow depends on the outline of the
arrow only, is not changed by a second compression, and is the same if the parts of a
composite are compressed first. -/

namespace LinearCalculus.Arrow

section

variable {d : Nat} (settles : Settles d)
include settles

theorem push_congr (stack stack' : List Arrow) (g g' : Arrow) (all : ∀ s ∈ stack, s.Shallow d)
    (top : g.Shallow d) (same : stack.map outline = stack'.map outline)
    (equal : g.outline = g'.outline) :
    (push compress stack g).map outline = (push compress stack' g').map outline := by
  induction stack generalizing stack' g g' with
  | nil =>
      cases stack' with
      | nil => simp [push, equal]
      | cons f' rest' => cases same
  | cons f rest ih =>
      cases stack' with
      | nil => cases same
      | cons f' rest' =>
          obtain ⟨here, below⟩ := List.forall_mem_cons.mp all
          obtain ⟨front, back⟩ := List.cons.inj same
          unfold push
          cases merged : merge? compress f g with
          | none =>
              rw [merge?_none_congr settles f f' g g' here top front equal merged]
              simp [equal, front, back]
          | some h =>
              obtain ⟨h', merged', alike⟩ :=
                merge?_congr settles f f' g g' h here top front equal merged
              rw [merged']
              have shallow := shallow_merge? compress depth_compress_le d f g h here top merged
              exact ih rest' h h' below shallow back alike

theorem push_steps_congr (steps steps' stack stack' : List Arrow)
    (all : ∀ s ∈ stack, s.Shallow d) (new : ∀ s ∈ steps, s.Shallow d)
    (same : stack.map outline = stack'.map outline)
    (equal : steps.map outline = steps'.map outline) :
    (steps.foldl (push compress) stack).map outline =
      (steps'.foldl (push compress) stack').map outline := by
  induction steps generalizing steps' stack stack' with
  | nil =>
      cases steps' with
      | nil => exact same
      | cons s' steps' => cases equal
  | cons s steps ih =>
      cases steps' with
      | nil => cases equal
      | cons s' steps' =>
          obtain ⟨here, later⟩ := List.forall_mem_cons.mp new
          obtain ⟨front, back⟩ := List.cons.inj equal
          have merging := shallow_merge? compress depth_compress_le d
          exact ih steps' (push compress stack s) (push compress stack' s')
            (push_all compress merging stack s all here) later
            (push_congr settles stack stack' s s' all here same front) back

/-- Two steps that merge can be pushed one after the other, or merged and then pushed. -/
theorem push_push (stack : List Arrow) (t s h : Arrow) (all : ∀ u ∈ stack, Settled d u)
    (reduced : Reduced stack) (first : Settled d t) (second : Settled d s)
    (merged : merge? compress t s = some h) :
    (push compress (push compress stack t) s).map outline =
      (push compress stack h).map outline := by
  induction stack generalizing t s h with
  | nil =>
      have pushed : push compress [t] s = [h] := by rw [push, merged]; rfl
      exact congrArg (List.map outline) pushed
  | cons u rest ih =>
      have shallow : ∀ v ∈ u :: rest, v.Shallow d := fun v member =>
        settled_shallow d v (all v member)
      cases plain : t.isId with
      | true =>
          -- an identity leaves the stack as it is, and merging leaves the step as it is
          rw [eq_identity_of_isId t plain] at merged ⊢
          cases merged
          have gone := outlines_push_identity (u :: rest) t.source (by simp) reduced
          have top := settled_shallow d s second
          exact (push_congr settles _ _ s s shallow top gone.symm rfl).symm
      | false =>
          obtain ⟨here, below⟩ := List.forall_mem_cons.mp all
          cases left : merge? compress u t with
          | none => simp only [push, left, merged]
          | some w =>
              obtain ⟨z, z', outer, outer', alike⟩ :=
                merge?_assoc settles u t s w h here first second plain left merged
              have whole := settled_merge? settles u t w here first left
              have shallow' : ∀ v ∈ rest, v.Shallow d := fun v member =>
                settled_shallow d v (below v member)
              have last := settled_merge? settles w s z whole second outer
              calc
                (push compress (push compress (u :: rest) t) s).map outline
                  = (push compress (push compress rest w) s).map outline := by rw [push, left]
                _ = (push compress rest z).map outline :=
                  ih w s z below (reduced_tail reduced) whole second outer
                _ = (push compress rest z').map outline :=
                  push_congr settles rest rest z z' shallow' (settled_shallow d z last) rfl alike
                _ = (push compress (u :: rest) h).map outline := by rw [push, outer']

theorem push_steps_push (base stack : List Arrow) (s : Arrow) (all : ∀ u ∈ base, Settled d u)
    (above : ∀ u ∈ stack, Settled d u) (top : Settled d s) (reduced : Reduced base) :
    ((push compress stack s).reverse.foldl (push compress) base).map outline =
      (push compress (stack.reverse.foldl (push compress) base) s).map outline := by
  induction stack generalizing s with
  | nil => rfl
  | cons t rest ih =>
      obtain ⟨here, below⟩ := List.forall_mem_cons.mp above
      cases merged : merge? compress t s with
      | none =>
          rw [push, merged, List.reverse_cons, List.foldl_append]
          rfl
      | some h =>
          have whole := settled_merge? settles t s h here top merged
          have ready : ∀ u ∈ rest.reverse, Settled d u := fun u member =>
            below u (List.mem_reverse.mp member)
          have lower := push_steps_all compress (settled_merge? settles) rest.reverse base all ready
          have pushed := push_push settles (rest.reverse.foldl (push compress) base) t s h lower
            (push_steps_reduced _ _ reduced) here top merged
          rw [push, merged, ih h below whole, List.reverse_cons, List.foldl_append]
          exact pushed.symm

theorem push_steps_push_steps (base stack steps : List Arrow) (all : ∀ u ∈ base, Settled d u)
    (above : ∀ u ∈ stack, Settled d u) (new : ∀ u ∈ steps, Settled d u)
    (reduced : Reduced base) :
    ((steps.foldl (push compress) stack).reverse.foldl (push compress) base).map outline =
      (steps.foldl (push compress) (stack.reverse.foldl (push compress) base)).map outline := by
  induction steps generalizing stack with
  | nil => rfl
  | cons s steps ih =>
      obtain ⟨here, later⟩ := List.forall_mem_cons.mp new
      have merging := settled_merge? settles
      have pushed := push_all compress merging stack s above here
      have ready : ∀ u ∈ (push compress stack s).reverse, Settled d u := fun u member =>
        pushed u (List.mem_reverse.mp member)
      have lower := push_steps_all compress merging _ base all ready
      rw [List.foldl_cons, List.foldl_cons, ih (push compress stack s) pushed later]
      apply push_steps_congr settles steps steps
      · exact fun u member => settled_shallow d u (lower u member)
      · exact fun u member => settled_shallow d u (later u member)
      · exact push_steps_push settles base stack s all above here reduced
      · rfl

theorem settled_steps (f : Arrow) (deep : f.depth < d + 1) :
    ∀ s ∈ f.steps.map (compressStep compress), Settled d s := by
  intro s member
  obtain ⟨t, inside, rfl⟩ := List.mem_map.mp member
  obtain ⟨step, within⟩ := shallow_of_mem_steps f t inside
  exact settled_compressStep settles t ⟨step, by omega⟩

theorem settled_stack (f : Arrow) (deep : f.depth < d + 1) : ∀ s ∈ f.stack, Settled d s :=
  push_steps_all compress (settled_merge? settles) _ []
    (List.forall_mem_nil _) (settled_steps settles f deep)

theorem outlines_compressStep (steps steps' : List Arrow) (shallow : ∀ s ∈ steps, s.Shallow d)
    (same : steps.map outline = steps'.map outline) :
    (steps.map (compressStep compress)).map outline =
      (steps'.map (compressStep compress)).map outline := by
  induction steps generalizing steps' with
  | nil =>
      cases steps' with
      | nil => rfl
      | cons t steps' => cases same
  | cons s steps ih =>
      cases steps' with
      | nil => cases same
      | cons t steps' =>
          obtain ⟨front, back⟩ := List.cons.inj same
          obtain ⟨here, later⟩ := List.forall_mem_cons.mp shallow
          simp only [List.map_cons]
          rw [compressStep_congr settles s t here front, ih steps' later back]

theorem outlines_stack_congr (f g : Arrow) (deep : f.depth < d + 1)
    (same : f.outline = g.outline) : f.stack.map outline = g.stack.map outline := by
  have new := settled_steps settles f deep
  apply push_steps_congr settles
  · exact List.forall_mem_nil _
  · exact fun s member => settled_shallow d s (new s member)
  · rfl
  · apply outlines_compressStep settles f.steps g.steps _ (steps_congr f g same)
    intro s member
    obtain ⟨step, within⟩ := shallow_of_mem_steps f s member
    exact ⟨step, by omega⟩

theorem outlines_steps_compress (f : Arrow) (deep : f.depth < d + 1) :
    (f.compress.steps.map (compressStep compress)).map outline =
      f.stack.reverse.map outline := by
  have settled := settled_stack settles f deep
  rw [steps_compress, List.map_map]
  apply List.map_congr_left
  intro s member
  exact compressStep_settled settles s (settled s (List.mem_reverse.mp member))

theorem outlines_stack_compress (f : Arrow) (deep : f.depth < d + 1) :
    f.compress.stack.map outline = f.stack.map outline := by
  have again : f.compress.depth < d + 1 := Nat.lt_of_le_of_lt (depth_compress_le f) deep
  have new := settled_steps settles f.compress again
  calc
    f.compress.stack.map outline
      = (f.stack.reverse.foldl (push compress) []).map outline := by
        apply push_steps_congr settles
        · exact List.forall_mem_nil _
        · exact fun s member => settled_shallow d s (new s member)
        · rfl
        · exact outlines_steps_compress settles f deep
    _ = f.stack.map outline := by rw [push_steps_of_reduced f.stack (stack_reduced f)]

theorem outlines_stack_parts (f g : Arrow) (left : f.depth < d + 1) (right : g.depth < d + 1) :
    (composite f.compress g.compress).stack.map outline = (composite f g).stack.map outline := by
  have left' : f.compress.depth < d + 1 := Nat.lt_of_le_of_lt (depth_compress_le f) left
  have right' : g.compress.depth < d + 1 := Nat.lt_of_le_of_lt (depth_compress_le g) right
  have lower := settled_stack settles f.compress left'
  have upper := settled_steps settles g.compress right'
  calc
    (composite f.compress g.compress).stack.map outline
      = (g.stack.reverse.foldl (push compress) f.stack).map outline := by
        rw [stack_composite]
        apply push_steps_congr settles
        · exact fun s member => settled_shallow d s (lower s member)
        · exact fun s member => settled_shallow d s (upper s member)
        · exact outlines_stack_compress settles f left
        · exact outlines_steps_compress settles g right
    _ = (composite f g).stack.map outline := by
        rw [stack_composite]
        exact push_steps_push_steps settles f.stack [] _ (settled_stack settles f left)
          (List.forall_mem_nil _) (settled_steps settles g right)
          (stack_reduced f)

/-- Compression behaves one level deeper as it does on all arrows inside. -/
theorem settles_succ : Settles (d + 1) where
  congr f g deep same := outline_compress_of_stack f g (outlines_stack_congr settles f g deep same)
  again f deep := outline_compress_of_stack _ _ (outlines_stack_compress settles f deep)
  parts f g left right :=
    (outline_compress_of_stack _ _ (outlines_stack_parts settles f g left right)).symm

end

theorem settles (d : Nat) : Settles d := by
  induction d with
  | zero =>
      exact ⟨fun f g deep => absurd deep (Nat.not_lt_zero _),
        fun f deep => absurd deep (Nat.not_lt_zero _),
        fun f g deep => absurd deep (Nat.not_lt_zero _)⟩
  | succ d ih => exact settles_succ ih

theorem outline_compress_congr (f g : Arrow) (same : f.outline = g.outline) :
    f.compress.outline = g.compress.outline :=
  (settles (f.depth + 1)).congr f g (Nat.lt_succ_self _) same

theorem outline_compress_composite (f g : Arrow) :
    (composite f g).compress.outline = (composite f.compress g.compress).compress.outline :=
  (settles (max f.depth g.depth + 1)).parts f g (by omega) (by omega)

end LinearCalculus.Arrow
