import LinearCalculus.Proofs.Arrow.Stack
import Mathlib.Algebra.GroupWithZero.Nat

/-! How large compression leaves an arrow.

A measure of arrows adds up if a step with a frame measures as much as the arrows in the places
of the frame together, where the identity beside an arrow on one side counts, and so does the one
given for a missing place. Measured like this, one step in place of two is never larger than the
two, and a measure with this property does not grow along the whole run over the stack. The size
of arrows adds up; the number of steps is another measure that the run does not make larger. -/

namespace LinearCalculus.Arrow

/-- The measure adds up over composites and over the places of frames, and nothing measures less
than an identity. -/
structure Additive (measure : Arrow → Nat) : Prop where
  composite : ∀ f g, measure (composite f g) = measure f + measure g
  framed : ∀ {s : Arrow} {F : Frame} {a : Arrow × Arrow}, s.inner? = some (F, a) →
    measure s = measure a.1 + measure a.2
  identity : ∀ c f, measure (identity c) ≤ measure f

namespace Additive

variable {measure : Arrow → Nat} (additive : Additive measure)
include additive

theorem variance (v : Variance) (f g : Arrow) :
    measure (v.composite f g) = measure f + measure g := by
  cases v with
  | covariant => exact additive.composite f g
  | contravariant => exact (additive.composite g f).trans (Nat.add_comm _ _)

theorem steps (f : Arrow) : (f.steps.map measure).sum = measure f := by
  induction f with
  | composite f g first second =>
      rw [Arrow.steps, List.map_append, List.sum_append, first, second, additive.composite]
  | _ => simp [Arrow.steps]

theorem lifted_le {F : Frame} {context : Arrow → Arrow}
    (around : ∀ f, (context f).inner? = some (F, f, blank)) (f g : Arrow) :
    measure (lifted context f) ≤ measure f + measure g := by
  unfold lifted
  split
  · exact Nat.le_trans (additive.identity _ f) (Nat.le_add_right _ _)
  · rw [additive.framed (around f)]
    exact Nat.add_le_add_left (additive.identity _ g) _

theorem beside_le (k : Connective) (f g : Arrow) :
    measure (beside k f g) ≤ measure f + measure g := by
  unfold beside
  split
  · exact Nat.le_trans (additive.identity _ f) (Nat.le_add_right _ _)
  · rw [additive.framed (s := onRight k f.source g) rfl]
    exact Nat.add_le_add_right (additive.identity _ f) _
  · rw [additive.framed (s := onLeft k f g.source) rfl]
    exact Nat.add_le_add_left (additive.identity _ g) _
  · exact Nat.le_of_eq (additive.framed (s := onConj k f g) rfl)

theorem wrap_le (F : Frame) (a : Arrow × Arrow) :
    measure (F.wrap a) ≤ measure a.1 + measure a.2 := by
  cases F with
  | not => exact additive.lifted_le (F := .not) (fun _ => rfl) a.1 a.2
  | always => exact additive.lifted_le (F := .always) (fun _ => rfl) a.1 a.2
  | quant q v => exact additive.lifted_le (F := .quant q v) (fun _ => rfl) a.1 a.2
  | conj k => exact additive.beside_le k a.1 a.2

theorem foldl_composite (before : List Arrow) (last : Arrow) :
    measure (before.foldl (fun g f => Arrow.composite f g) last) =
      measure last + (before.map measure).sum := by
  induction before generalizing last with
  | nil => rfl
  | cons f before ih =>
      rw [List.foldl_cons, ih, List.map_cons, List.sum_cons, additive.composite]
      omega

end Additive

section

variable (next : Arrow → Arrow) (keeps : ∀ b, next (Arrow.identity b) = Arrow.identity b)
  (measure : Arrow → Nat)

/-- Neither one step in place of two nor a step compressed inside measures more than before. -/
structure Contracts : Prop where
  merged : ∀ {s t h}, Merged next s t h → measure h ≤ measure s + measure t
  inside : ∀ s, IsStep s → measure (compressStep next s) ≤ measure s

variable {measure} (contracts : Contracts next measure)

include contracts in
theorem sum_push_le (stack : List Arrow) (g : Arrow) (all : ∀ s ∈ stack, s.IsStep)
    (top : g.IsStep) :
    ((push next stack g).map measure).sum ≤ (stack.map measure).sum + measure g := by
  induction stack generalizing g with
  | nil => simp [push]
  | cons f stack ih =>
      rcases List.forall_mem_cons.mp all with ⟨here, below⟩
      unfold push
      cases found : merge? next f g with
      | none =>
          simp only [List.map_cons, List.sum_cons]
          omega
      | some h =>
          have merged := merged_of_merge? next here top found
          have rest := ih h below (isStep_of_merged next merged here top)
          have less := contracts.merged merged
          simp only [List.map_cons, List.sum_cons]
          omega

include keeps contracts in
theorem sum_push_steps_le (steps stack : List Arrow) (all : ∀ s ∈ stack, s.IsStep)
    (new : ∀ s ∈ steps, s.IsStep) :
    (((steps.map (compressStep next)).foldl (push next) stack).map measure).sum ≤
      (stack.map measure).sum + (steps.map measure).sum := by
  induction steps generalizing stack with
  | nil => exact Nat.le_refl _
  | cons s steps ih =>
      rcases List.forall_mem_cons.mp new with ⟨here, later⟩
      have step := isStep_compressStep next keeps s here
      have one := sum_push_le next contracts stack _ all step
      have inner := contracts.inside s here
      have rest := ih _ (push_isStep next stack _ all step) later
      simp only [List.map_cons, List.foldl_cons, List.sum_cons]
      omega

variable (additive : Additive measure) (shrinks : ∀ f, measure (next f) ≤ measure f)
include additive shrinks

theorem Additive.merged_le {s t h : Arrow} (merged : Merged next s t h) :
    measure h ≤ measure s + measure t := by
  cases merged with
  | first a => exact Nat.le_add_left _ _
  | last b proper => exact Nat.le_add_right _ _
  | @framed _ _ F a b inside inside' =>
      have outside := additive.wrap_le F (F.follow next a b)
      have first := shrinks (F.variance.composite a.1 b.1)
      have second := shrinks (F.variance.composite a.2 b.2)
      rw [additive.variance] at first second
      rw [additive.framed inside, additive.framed inside']
      simp only [Frame.follow] at outside ⊢
      omega
  | @undone p p' undone => exact Nat.le_trans (additive.identity _ (prim p)) (Nat.le_add_right _ _)

include keeps in
theorem Additive.compressStep_le (s : Arrow) (step : s.IsStep) :
    measure (compressStep next s) ≤ measure s := by
  rcases step.cases with ⟨c, rfl⟩ | ⟨p, rfl⟩ | ⟨F, a, inside⟩
  · exact Nat.le_refl _
  · exact Nat.le_refl _
  · calc
      measure (compressStep next s)
        = measure (F.wrap (next a.1, next a.2)) := by rw [compressStep_inner next keeps inside]
      _ ≤ measure (next a.1) + measure (next a.2) := additive.wrap_le F _
      _ ≤ measure a.1 + measure a.2 := Nat.add_le_add (shrinks a.1) (shrinks a.2)
      _ = measure s := (additive.framed inside).symm

include keeps in
theorem Additive.compressBy_le (f : Arrow) : measure (compressBy next f) ≤ measure f := by
  have contracts : Contracts next measure :=
    ⟨additive.merged_le next shrinks, additive.compressStep_le next keeps shrinks⟩
  have run := sum_push_steps_le next keeps contracts f.steps [] (by simp) (isStep_of_mem_steps f)
  rw [additive.steps, List.map_nil, List.sum_nil, Nat.zero_add] at run
  unfold compressBy
  cases known : (f.steps.map (compressStep next)).foldl (push next) [] with
  | nil => exact additive.identity _ f
  | cons last before =>
      rw [known] at run
      exact Nat.le_trans (Nat.le_of_eq (additive.foldl_composite before last)) run

end

theorem Additive.compressWithin_le {measure : Arrow → Nat} (additive : Additive measure)
    (bound : Nat) (f : Arrow) : measure (compressWithin bound f) ≤ measure f := by
  induction bound generalizing f with
  | zero => exact Nat.le_refl _
  | succ bound ih =>
      exact additive.compressBy_le (compressWithin bound) (compressWithin_identity bound) ih f

theorem size_pos (f : Arrow) : 0 < f.size := by
  induction f with
  | identity a | prim p => exact Nat.one_pos
  | composite f g first second | onConj k f g first second => exact Nat.add_pos_left first _
  | onLeft k f b ih | onRight k a f ih | onNot f ih | onAlways f ih | onBody q v f ih =>
      exact Nat.add_pos_left Nat.one_pos _

theorem size_of_inner? {s : Arrow} {F : Frame} {a : Arrow × Arrow}
    (inside : s.inner? = some (F, a)) : s.size = a.1.size + a.2.size := by
  cases s <;> cases inside <;> simp only [size, blank] <;> omega

theorem size_additive : Additive size where
  composite _ _ := rfl
  framed := size_of_inner?
  identity _ f := size_pos f

theorem size_compressWithin_le (bound : Nat) (f : Arrow) :
    (compressWithin bound f).size ≤ f.size :=
  size_additive.compressWithin_le bound f

theorem length_stack_le (f : Arrow) : f.stack.length ≤ f.steps.length := by
  have contracts : Contracts compress (fun _ => 1) :=
    ⟨fun _ => Nat.le_add_right 1 1, fun _ _ => Nat.le_refl 1⟩
  have run := sum_push_steps_le compress compress_identity contracts f.steps [] (by simp)
    (isStep_of_mem_steps f)
  simpa [stack, List.map_const', List.sum_replicate_nat] using run

/-- Compression never grows an arrow: it leaves no more rules, counted at every depth, and no
more steps. -/
theorem compress_never_grows (f : Arrow) :
    f.compress.size ≤ f.size ∧ f.compress.steps.length ≤ f.steps.length := by
  refine ⟨size_compressWithin_le (f.depth + 1) f, ?_⟩
  rw [steps_compress, List.length_reverse]
  exact length_stack_le f

-- both identities beside the two arrows have gone
example :
    let a : Formula := .holds ⟨0⟩ ⟨1⟩
    let f := composite (onLeft .and (prim (.introDoubleDual a)) a)
      (onRight .and (.not (.not a)) (prim (.introDoubleDual a)))
    f.size = 4 ∧ f.compress.size = 2 := by decide

end LinearCalculus.Arrow
