import LinearCalculus.Proofs.Arrow.Depth

/-! Compression ends.

To compress an arrow, compression is applied to other arrows: to those inside its steps, and to
those that merging puts together from two steps. The latter are no parts of the arrow and may be
longer than both steps, but each is made of an arrow inside the one step and an arrow inside the
other, so it is less deep. `calls` lists all of them along the run over the stack. They settle the
result, and none of them is as deep as the arrow. -/

namespace LinearCalculus.Arrow

def handedBeside (s t : Arrow) : List Arrow :=
  match s.sides?, t.sides? with
  | some (k, f, f'), some (k', g, g') => if k = k' then [composite f g, composite f' g'] else []
  | _, _ => []

/-- The arrows that merging two steps hands to compression. -/
def handed : Arrow → Arrow → List Arrow
  | onAlways f, onAlways g => [composite f g]
  | onNot f, onNot g => [composite g f]
  | onBody q v f, onBody q' v' g => if q = q' ∧ v = v' then [composite f g] else []
  | s, t => handedBeside s t

def pushCalls : List Arrow → Arrow → List Arrow
  | [], _ => []
  | s :: stack, t =>
    s.handed t ++
      match merge? compress s t with
      | some h => pushCalls stack h
      | none => []

/-- What is handed to compression while steps are compressed inside and pushed on a stack. -/
def runCalls : List Arrow → List Arrow → List Arrow
  | _, [] => []
  | stack, s :: steps =>
    s.parts ++ pushCalls stack (compressStep compress s) ++
      runCalls (push compress stack (compressStep compress s)) steps

/-- The arrows that compression is applied to in order to compress an arrow. -/
def calls (f : Arrow) : List Arrow := runCalls [] f.steps

section

variable (next : Arrow → Arrow)

theorem mergeBeside_handed (s t : Arrow) (agree : ∀ g ∈ s.handedBeside t, next g = g.compress) :
    mergeBeside next s t = mergeBeside compress s t := by
  unfold handedBeside at agree
  unfold mergeBeside
  split at agree
  · split
    · simp_all
    · rfl
  · simp_all

theorem merge?_handed (s t : Arrow) (agree : ∀ g ∈ s.handed t, next g = g.compress) :
    merge? next s t = merge? compress s t := by
  have beside := mergeBeside_handed next s t
  cases s with
  | identity a => simp only [merge?]
  | onAlways f =>
      cases t with
      | identity a => rfl
      | onAlways g => simp [merge?, agree (composite f g) (List.mem_singleton_self _)]
      | _ => exact beside agree
  | onNot f =>
      cases t with
      | identity a => rfl
      | onNot g => simp [merge?, agree (composite g f) (List.mem_singleton_self _)]
      | _ => exact beside agree
  | onBody q v f =>
      cases t with
      | identity a => rfl
      | onBody q' v' g =>
          rw [merge?, merge?]
          split
          · rename_i same
            rw [handed, if_pos same] at agree
            rw [agree (composite f g) (List.mem_singleton_self _)]
          · rfl
      | _ => exact beside agree
  | _ =>
      cases t with
      | identity a => rfl
      | _ => exact beside agree

theorem compressStep_parts (s : Arrow) (agree : ∀ g ∈ s.parts, next g = g.compress) :
    compressStep next s = compressStep compress s := by
  cases s <;> simp_all [parts, compressStep]

theorem push_calls (stack : List Arrow) (t : Arrow)
    (agree : ∀ g ∈ pushCalls stack t, next g = g.compress) :
    push next stack t = push compress stack t := by
  induction stack generalizing t with
  | nil => rfl
  | cons s stack ih =>
      rw [pushCalls, List.forall_mem_append] at agree
      rcases agree with ⟨here, below⟩
      unfold push
      rw [merge?_handed next s t here]
      cases merged : merge? compress s t with
      | none => rfl
      | some h =>
          rw [merged] at below
          exact ih h below

theorem run_calls (steps stack : List Arrow)
    (agree : ∀ g ∈ runCalls stack steps, next g = g.compress) :
    (steps.map (compressStep next)).foldl (push next) stack =
      (steps.map (compressStep compress)).foldl (push compress) stack := by
  induction steps generalizing stack with
  | nil => rfl
  | cons s steps ih =>
      rw [runCalls, List.forall_mem_append, List.forall_mem_append] at agree
      rcases agree with ⟨⟨inside, merging⟩, later⟩
      simp only [List.map_cons, List.foldl_cons]
      rw [compressStep_parts next s inside, push_calls next stack _ merging]
      exact ih _ later

/-- The calls settle the result: whatever compresses them as compression does will do. -/
theorem compressBy_calls (f : Arrow) (agree : ∀ g ∈ f.calls, next g = g.compress) :
    compressBy next f = f.compress := by
  rw [compress_eq, compressBy, compressBy, run_calls next f.steps [] agree]

end

theorem depth_sides? {s f f' : Arrow} {k : Connective} (sides : s.sides? = some (k, f, f')) :
    f.depth < s.depth ∧ f'.depth < s.depth := by
  cases s <;> cases sides <;> simp only [depth] <;> omega

theorem depth_handedBeside {s t g : Arrow} (member : g ∈ s.handedBeside t) :
    ∃ f f', g = composite f f' ∧ f.depth < s.depth ∧ f'.depth < t.depth := by
  unfold handedBeside at member
  split at member
  · rename_i left right
    have first := depth_sides? left
    have second := depth_sides? right
    split at member
    · simp only [List.mem_cons, List.not_mem_nil, or_false] at member
      rcases member with rfl | rfl
      · exact ⟨_, _, rfl, first.1, second.1⟩
      · exact ⟨_, _, rfl, first.2, second.2⟩
    · cases member
  · cases member

theorem depth_handed {s t g : Arrow} (member : g ∈ s.handed t) :
    ∃ v f f', g = Variance.composite v f f' ∧ f.depth < s.depth ∧ f'.depth < t.depth := by
  unfold handed at member
  split at member
  · rw [List.mem_singleton] at member
    exact ⟨.covariant, _, _, member, Nat.lt_succ_self _, Nat.lt_succ_self _⟩
  · rw [List.mem_singleton] at member
    exact ⟨.contravariant, _, _, member, Nat.lt_succ_self _, Nat.lt_succ_self _⟩
  · split at member
    · rw [List.mem_singleton] at member
      exact ⟨.covariant, _, _, member, Nat.lt_succ_self _, Nat.lt_succ_self _⟩
    · cases member
  · rcases depth_handedBeside member with ⟨f, f', rfl, first, second⟩
    exact ⟨.covariant, f, f', rfl, first, second⟩

theorem depth_lt_of_handed {s t g : Arrow} (member : g ∈ s.handed t) :
    g.depth < max s.depth t.depth := by
  rcases depth_handed member with ⟨v, f, f', rfl, first, second⟩
  rw [depth_composite]
  omega

theorem depth_lt_of_parts {s g : Arrow} (step : s.IsStep) (part : g ∈ s.parts) :
    g.depth < s.depth := by
  cases s with
  | identity a | prim p => cases part
  | composite f g => exact step.elim
  | onConj k f f' =>
      simp only [parts, List.mem_cons, List.not_mem_nil, or_false] at part
      rcases part with rfl | rfl <;> simp only [depth] <;> omega
  | onLeft k f b | onRight k a f | onNot f | onAlways f | onBody q v f =>
      rw [List.mem_singleton.mp part]
      exact Nat.lt_succ_self _

section

variable (d : Nat)

theorem depth_lt_of_pushCalls (stack : List Arrow) (t : Arrow) (all : ∀ s ∈ stack, s.Shallow d)
    (top : t.Shallow d) : ∀ g ∈ pushCalls stack t, g.depth < d := by
  induction stack generalizing t with
  | nil => exact List.forall_mem_nil _
  | cons s stack ih =>
      rcases List.forall_mem_cons.mp all with ⟨here, below⟩
      rw [pushCalls, List.forall_mem_append]
      constructor
      · intro g member
        have less := depth_lt_of_handed member
        exact Nat.lt_of_lt_of_le less (Nat.max_le.mpr ⟨here.2, top.2⟩)
      · cases merged : merge? compress s t with
        | none => exact List.forall_mem_nil _
        | some h =>
            have shallow := shallow_merge? compress depth_compress_le d s t h here top merged
            exact ih h below shallow

theorem depth_lt_of_runCalls (steps stack : List Arrow) (all : ∀ s ∈ stack, s.Shallow d)
    (new : ∀ s ∈ steps, s.Shallow d) : ∀ g ∈ runCalls stack steps, g.depth < d := by
  induction steps generalizing stack with
  | nil => exact List.forall_mem_nil _
  | cons s steps ih =>
      rcases List.forall_mem_cons.mp new with ⟨here, later⟩
      have top := shallow_compressStep compress compress_identity depth_compress_le d s here
      have merging := shallow_merge? compress depth_compress_le d
      rw [runCalls, List.forall_mem_append, List.forall_mem_append]
      refine ⟨⟨?_, depth_lt_of_pushCalls d stack _ all top⟩, ?_⟩
      · intro g part
        exact Nat.lt_of_lt_of_le (depth_lt_of_parts here.1 part) here.2
      · exact ih _ (push_all compress merging stack _ all top) later

end

theorem depth_lt_of_calls {f g : Arrow} (called : g ∈ f.calls) : g.depth < f.depth :=
  depth_lt_of_runCalls f.depth f.steps [] (List.forall_mem_nil _) (shallow_of_mem_steps f) g called

theorem calls_wellFounded : WellFounded (fun g f : Arrow => g ∈ f.calls) :=
  Subrelation.wf depth_lt_of_calls (measure depth).wf

/-- The equation by which compression calls itself has no other solution. -/
theorem eq_compress_of_equation (c : Arrow → Arrow) (equation : ∀ f, c f = compressBy c f)
    (f : Arrow) : c f = f.compress := by
  induction f using calls_wellFounded.induction with
  | h f ih =>
      rw [equation]
      exact compressBy_calls c f ih

/-- Compression ends on every arrow. Which arrow is compressed in order to compress which other
one is well-founded, and no other arrows are looked at; so the equation by which compression calls
itself has one solution. For compression makes no arrow deeper, and an arrow that merging hands
back to it is less deep than the deeper one of the two steps, each half of it less deep than its
own step. -/
theorem compress_terminates :
    WellFounded (fun g f : Arrow => g ∈ f.calls) ∧
      (∀ (f : Arrow) (next : Arrow → Arrow), (∀ g ∈ f.calls, next g = g.compress) →
        compressBy next f = f.compress) ∧
      (∀ c : Arrow → Arrow, (∀ f, c f = compressBy c f) ↔ c = compress) ∧
      (∀ f : Arrow, f.compress.depth ≤ f.depth) ∧
      ∀ s t g : Arrow, g ∈ s.handed t → g.depth < max s.depth t.depth ∧
        ∃ v f f', g = Variance.composite v f f' ∧ f.depth < s.depth ∧ f'.depth < t.depth := by
  refine ⟨calls_wellFounded, fun f next => compressBy_calls next f, ?_, depth_compress_le, ?_⟩
  · intro c
    constructor
    · intro equation
      exact funext (eq_compress_of_equation c equation)
    · rintro rfl f
      exact compress_eq f
  · intro s t g member
    exact ⟨depth_lt_of_handed member, depth_handed member⟩

/-- Two negations hand on an arrow that is found nowhere in them, and its parts in the other
order. -/
theorem compress_terminates_below_negations :
    let a : Formula := .holds ⟨0⟩ ⟨1⟩
    let p := onAlways (prim (.introDoubleDual a))
    let q := onAlways (prim (.introDoubleDual (.not (.not a))))
    let f := composite (onNot q) (onNot p)
    let g := composite p q
    g ∈ (onNot q).handed (onNot p) ∧ g ∉ f.nodes ∧ f.calls = [q, p, g] ∧
      g.depth < max (onNot q).depth (onNot p).depth ∧
      (∀ h ∈ f.calls, compressWithin 2 h = h.compress) ∧
      compressBy (compressWithin 2) f = f.compress := by
  intro a p q f g
  rcases compress_terminates with ⟨_, settled, _, _, less⟩
  have handed : g ∈ (onNot q).handed (onNot p) := by decide
  have agree : ∀ h ∈ f.calls, compressWithin 2 h = h.compress := by decide
  exact ⟨handed, by decide, by decide, (less _ _ g handed).1, agree, settled f _ agree⟩

end LinearCalculus.Arrow
