import LinearCalculus.Proofs.Arrow.Frame

namespace LinearCalculus.Arrow

theorem depth_composite (v : Variance) (f g : Arrow) :
    (v.composite f g).depth = max f.depth g.depth := by
  cases v with
  | covariant => rfl
  | contravariant => exact Nat.max_comm _ _

theorem depth_of_inner? {s : Arrow} {F : Frame} {a : Arrow × Arrow}
    (inside : s.inner? = some (F, a)) : s.depth = max a.1.depth a.2.depth + 1 := by
  cases s <;> cases inside <;> simp [depth, blank]

theorem depth_wrap_le (F : Frame) (a : Arrow × Arrow) :
    (F.wrap a).depth ≤ max a.1.depth a.2.depth + 1 := by
  cases F with
  | not | always | quant q v =>
      simp only [Frame.wrap, lifted]
      split <;> simp only [depth] <;> omega
  | conj k =>
      simp only [Frame.wrap, beside]
      split <;> simp only [depth] <;> omega

theorem depth_le_of_mem_steps (f s : Arrow) (member : s ∈ f.steps) : s.depth ≤ f.depth := by
  induction f with
  | composite f g first second =>
      rcases List.mem_append.mp member with before | after
      · exact Nat.le_trans (first before) (Nat.le_max_left _ _)
      · exact Nat.le_trans (second after) (Nat.le_max_right _ _)
  | identity a | onLeft k f b ih | onRight k a f ih | onConj k f g ih ih' | onNot f ih
  | onAlways f ih | onBody q v f ih | prim p =>
      exact Nat.le_of_eq (congrArg depth (List.mem_singleton.mp member))

theorem depth_joined_le (a : Formula) (stack : List Arrow) (d : Nat)
    (shallow : ∀ s ∈ stack, s.depth ≤ d) : (joined a stack).depth ≤ d := by
  cases stack with
  | nil => exact Nat.zero_le d
  | cons last before =>
      obtain ⟨top, rest⟩ := List.forall_mem_cons.mp shallow
      induction before generalizing last with
      | nil => exact top
      | cons f before ih =>
          obtain ⟨here, below⟩ := List.forall_mem_cons.mp rest
          have longer : (composite f last).depth ≤ d := Nat.max_le.mpr ⟨here, top⟩
          exact ih (composite f last) (List.forall_mem_cons.mpr ⟨longer, below⟩) longer below

/-- A step whose frames are nested no deeper than the bound. -/
def Shallow (d : Nat) (s : Arrow) : Prop := s.IsStep ∧ s.depth ≤ d

theorem shallow_of_mem_steps (f s : Arrow) (member : s ∈ f.steps) : s.Shallow f.depth :=
  ⟨isStep_of_mem_steps f s member, depth_le_of_mem_steps f s member⟩

section

variable (next : Arrow → Arrow) (keeps : ∀ b, next (identity b) = identity b)
  (shrinks : ∀ f, (next f).depth ≤ f.depth)

include shrinks in
theorem depth_follow_le (F : Frame) (a b : Arrow × Arrow) :
    max (F.follow next a b).1.depth (F.follow next a b).2.depth ≤
      max (max a.1.depth a.2.depth) (max b.1.depth b.2.depth) := by
  have first := shrinks (F.variance.composite a.1 b.1)
  have second := shrinks (F.variance.composite a.2 b.2)
  rw [depth_composite] at first second
  simp only [Frame.follow]
  omega

include shrinks in
theorem depth_merged_le {s t h : Arrow} (merged : Merged next s t h) :
    h.depth ≤ max s.depth t.depth := by
  cases merged with
  | first a => exact Nat.le_max_right _ _
  | last b proper => exact Nat.le_max_left _ _
  | @framed _ _ F a b inside inside' =>
      have outside := depth_wrap_le F (F.follow next a b)
      have within := depth_follow_le next shrinks F a b
      rw [depth_of_inner? inside, depth_of_inner? inside']
      omega
  | undone undone => exact Nat.zero_le _

include shrinks in
theorem shallow_merge? (d : Nat) (s t h : Arrow) (first : s.Shallow d) (second : t.Shallow d)
    (merged : merge? next s t = some h) : h.Shallow d := by
  have how := merged_of_merge? next first.1 second.1 merged
  have deep := depth_merged_le next shrinks how
  exact ⟨isStep_of_merged next how first.1 second.1,
    Nat.le_trans deep (Nat.max_le.mpr ⟨first.2, second.2⟩)⟩

include keeps shrinks in
theorem shallow_compressStep (d : Nat) (s : Arrow) (shallow : s.Shallow d) :
    (compressStep next s).Shallow d := by
  rcases shallow.1.cases with ⟨c, rfl⟩ | ⟨p, rfl⟩ | ⟨F, a, inside⟩
  · exact shallow
  · exact shallow
  · rw [compressStep_inner next keeps inside]
    have outside :
        (F.wrap (next a.1, next a.2)).depth ≤ max (next a.1).depth (next a.2).depth + 1 :=
      depth_wrap_le F (next a.1, next a.2)
    have left := shrinks a.1
    have right := shrinks a.2
    have whole := shallow.2
    rw [depth_of_inner? inside] at whole
    refine ⟨wrap_isStep F _, ?_⟩
    omega

include keeps shrinks in
theorem shallow_stack (f : Arrow) :
    ∀ s ∈ (f.steps.map (compressStep next)).foldl (push next) [], s.Shallow f.depth := by
  apply push_steps_all next (shallow_merge? next shrinks f.depth)
  · exact fun s member => absurd member List.not_mem_nil
  · intro s member
    obtain ⟨step, inside, rfl⟩ := List.mem_map.mp member
    exact shallow_compressStep next keeps shrinks f.depth step (shallow_of_mem_steps f step inside)

include keeps shrinks in
theorem depth_compressBy_le (f : Arrow) : (compressBy next f).depth ≤ f.depth := by
  apply depth_joined_le
  intro s member
  exact (shallow_stack next keeps shrinks f s member).2

end

theorem compressWithin_identity (bound : Nat) (b : Formula) :
    compressWithin bound (identity b) = identity b := by
  cases bound <;> rfl

theorem depth_compressWithin_le (bound : Nat) (f : Arrow) :
    (compressWithin bound f).depth ≤ f.depth := by
  induction bound generalizing f with
  | zero => exact Nat.le_refl _
  | succ bound ih =>
      exact depth_compressBy_le (compressWithin bound) (compressWithin_identity bound) ih f

section

-- two ways to compress arrows one frame deeper, which agree there
variable (next next' : Arrow → Arrow) (d : Nat) (agree : ∀ f, f.depth < d → next f = next' f)
include agree

theorem follow_agree (F : Frame) (a b : Arrow × Arrow) (left : max a.1.depth a.2.depth < d)
    (right : max b.1.depth b.2.depth < d) : F.follow next a b = F.follow next' a b := by
  have first := agree (F.variance.composite a.1 b.1) (by rw [depth_composite]; omega)
  have second := agree (F.variance.composite a.2 b.2) (by rw [depth_composite]; omega)
  rw [Frame.follow, Frame.follow, first, second]

theorem merge?_agree (s t : Arrow) (first : s.Shallow d) (second : t.Shallow d) :
    merge? next s t = merge? next' s t := by
  rcases first.1.cases with ⟨c, rfl⟩ | ⟨p, rfl⟩ | ⟨F, a, inside⟩
  · rfl
  · cases t <;> rfl
  · rcases second.1.cases with ⟨c, rfl⟩ | ⟨p, rfl⟩ | ⟨F', b, inside'⟩
    · cases s <;> rfl
    · cases s <;> cases inside <;> rfl
    · have left := first.2
      have right := second.2
      rw [depth_of_inner? inside] at left
      rw [depth_of_inner? inside'] at right
      rw [merge?_inner next inside inside', merge?_inner next' inside inside',
        follow_agree next next' d agree F a b left right]

theorem compressStep_agree (s : Arrow) (shallow : s.Shallow d)
    (keeps : ∀ b, next (identity b) = identity b) (keeps' : ∀ b, next' (identity b) = identity b) :
    compressStep next s = compressStep next' s := by
  rcases shallow.1.cases with ⟨c, rfl⟩ | ⟨p, rfl⟩ | ⟨F, a, inside⟩
  · rfl
  · rfl
  · have deep := shallow.2
    rw [depth_of_inner? inside] at deep
    rw [compressStep_inner next keeps inside, compressStep_inner next' keeps' inside,
      agree a.1 (by omega), agree a.2 (by omega)]

theorem push_agree (shrinks : ∀ f, (next f).depth ≤ f.depth) (stack : List Arrow) (g : Arrow)
    (all : ∀ s ∈ stack, s.Shallow d) (top : g.Shallow d) :
    push next stack g = push next' stack g := by
  induction stack generalizing g with
  | nil => rfl
  | cons f stack ih =>
      obtain ⟨here, below⟩ := List.forall_mem_cons.mp all
      rw [push, push, ← merge?_agree next next' d agree f g here top]
      cases merged : merge? next f g with
      | none => rfl
      | some h => exact ih h below (shallow_merge? next shrinks d f g h here top merged)

theorem push_steps_agree (shrinks : ∀ f, (next f).depth ≤ f.depth) (steps stack : List Arrow)
    (all : ∀ s ∈ stack, s.Shallow d) (new : ∀ s ∈ steps, s.Shallow d) :
    steps.foldl (push next) stack = steps.foldl (push next') stack := by
  induction steps generalizing stack with
  | nil => rfl
  | cons s steps ih =>
      obtain ⟨here, later⟩ := List.forall_mem_cons.mp new
      have pushed := push_all next (shallow_merge? next shrinks d) stack s all here
      rw [List.foldl_cons, List.foldl_cons,
        ← push_agree next next' d agree shrinks stack s all here]
      exact ih (push next stack s) pushed later

end

theorem compressBy_agree (next next' : Arrow → Arrow) (f : Arrow)
    (agree : ∀ g, g.depth < f.depth → next g = next' g)
    (shrinks : ∀ f, (next f).depth ≤ f.depth) (keeps : ∀ b, next (identity b) = identity b)
    (keeps' : ∀ b, next' (identity b) = identity b) : compressBy next f = compressBy next' f := by
  have same : f.steps.map (compressStep next) = f.steps.map (compressStep next') := by
    apply List.map_congr_left
    intro s member
    have shallow := shallow_of_mem_steps f s member
    exact compressStep_agree next next' f.depth agree s shallow keeps keeps'
  have shallow : ∀ s ∈ f.steps.map (compressStep next), s.Shallow f.depth := by
    intro s member
    obtain ⟨step, inside, rfl⟩ := List.mem_map.mp member
    exact shallow_compressStep next keeps shrinks f.depth step (shallow_of_mem_steps f step inside)
  rw [compressBy, compressBy, ← same,
    push_steps_agree next next' f.depth agree shrinks _ [] (by simp) shallow]

theorem compressWithin_agree (bound bound' : Nat) (f : Arrow) (enough : f.depth < bound)
    (enough' : f.depth < bound') : compressWithin bound f = compressWithin bound' f := by
  induction bound generalizing bound' f with
  | zero => omega
  | succ bound ih =>
      cases bound' with
      | zero => omega
      | succ bound' =>
          apply compressBy_agree
          · intro g deeper
            exact ih bound' g (by omega) (by omega)
          · exact depth_compressWithin_le bound
          · exact compressWithin_identity bound
          · exact compressWithin_identity bound'

@[simp] theorem compress_identity (b : Formula) : (identity b).compress = identity b := rfl

theorem depth_compress_le (f : Arrow) : f.compress.depth ≤ f.depth :=
  depth_compressWithin_le (f.depth + 1) f

theorem compress_eq (f : Arrow) : f.compress = compressBy compress f := by
  apply compressBy_agree
  · intro g deeper
    exact compressWithin_agree f.depth (g.depth + 1) g deeper (Nat.lt_succ_self _)
  · exact depth_compressWithin_le f.depth
  · exact compressWithin_identity f.depth
  · exact compress_identity

end LinearCalculus.Arrow
