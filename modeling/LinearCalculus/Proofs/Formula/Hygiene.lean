import LinearCalculus.Proofs.Formula.Freeness
import LinearCalculus.Proofs.Formula.Replacement
import Mathlib.Data.List.Sort

namespace LinearCalculus

namespace Var

theorem ascending_insert (v : Var) (vars : List Var)
    (ascending : vars.Pairwise (fun u w => u.id < w.id)) :
    (v.insert vars).Pairwise (fun u w => u.id < w.id) := by
  induction vars with
  | nil => simp [insert]
  | cons u rest ih =>
      obtain ⟨least, tail⟩ := List.pairwise_cons.mp ascending
      unfold insert
      split
      · rename_i before
        refine List.pairwise_cons.mpr ⟨?_, ascending⟩
        intro w member
        rcases List.mem_cons.mp member with rfl | later
        · exact before
        · exact Nat.lt_trans before (least w later)
      · rename_i notBefore
        split
        · exact ascending
        · rename_i different
          refine List.pairwise_cons.mpr ⟨?_, ih tail⟩
          intro w member
          rcases mem_insert.mp member with rfl | later
          · have apart : w.id ≠ u.id := fun same => different (congrArg Var.mk same)
            omega
          · exact least w later

theorem ascending_sort (vars : List Var) :
    (Var.sort vars).Pairwise (fun u w => u.id < w.id) := by
  induction vars with
  | nil => exact List.Pairwise.nil
  | cons v rest ih => exact ascending_insert v _ ih

theorem sort_congr {vars vars' : List Var} (same : ∀ v, v ∈ vars ↔ v ∈ vars') :
    Var.sort vars = Var.sort vars' := by
  have : Std.Irrefl (fun u w : Var => u.id < w.id) := ⟨fun v => Nat.lt_irrefl v.id⟩
  have : Std.Antisymm (fun u w : Var => u.id < w.id) :=
    ⟨fun u w before after => absurd before (Nat.lt_asymm after)⟩
  apply (ascending_sort vars).eq_of_mem_iff (ascending_sort vars')
  intro v
  rw [mem_sort, mem_sort, same]

end Var

theorem Occurrence.name?_replace (old new : Var) (a : Occurrence) :
    (a.replace old new).name? = a.name?.map (old.replace new) := by
  cases a <;> rfl

theorem Nameless.names_replace (old new : Var) (f : Nameless) :
    (f.replace old new).names = f.names.map (old.replace new) := by
  induction f with
  | holds a b | identical a b =>
      simp only [replace, names, List.map_filterMap, ← Occurrence.name?_replace]
      rfl
  | unit value => rfl
  | not f ih | always f ih | quant q f ih => exact ih
  | conj k l r left right => rw [replace, names, names, left, right, List.map_append]

namespace Formula

def subformulas : Formula → List Formula
  | holds a b => [holds a b]
  | identical a b => [identical a b]
  | unit value => [unit value]
  | not f => not f :: f.subformulas
  | always f => always f :: f.subformulas
  | conj k l r => conj k l r :: (l.subformulas ++ r.subformulas)
  | quant q v f => quant q v f :: f.subformulas

def occurrences : Formula → List Var
  | holds a b | identical a b => [a, b]
  | unit _ => []
  | not f | always f | quant _ _ f => f.occurrences
  | conj _ l r => l.occurrences ++ r.occurrences

/-- An occurrence of `old` lies below a quantifier that binds `new`. -/
def Captures (old new : Var) (f : Formula) : Prop :=
  ∃ q body, quant q new body ∈ f.subformulas ∧ old ∈ body.occurrences

section

variable {old new : Var}

theorem captures_conj {k : Connective} {l r : Formula} :
    (conj k l r).Captures old new ↔ l.Captures old new ∨ r.Captures old new := by
  simp only [Captures, subformulas, List.mem_cons, reduceCtorEq, false_or, List.mem_append,
    or_and_right, exists_or]

theorem captures_quant {q : Quantifier} {v : Var} {f : Formula} :
    (quant q v f).Captures old new ↔ (v = new ∧ old ∈ f.occurrences) ∨ f.Captures old new := by
  simp only [Captures, subformulas, List.mem_cons, quant.injEq, or_and_right, exists_or]
  grind

end

/-- What a clash says: the flag stands for a binder of `new` above the formula, below which any
occurrence of `old` is captured. -/
theorem clash?_eq_some {old new : Var} {below : Bool} {f : Formula} {e : HygieneError}
    (found : f.clash? old new below = some e) :
    (e = .rebound old ∧ old ∈ f.binders) ∨
      (e = .captured new ∧ ((below ∧ old ∈ f.occurrences) ∨ f.Captures old new)) := by
  induction f generalizing below with
  | holds a b | identical a b =>
      simp only [clash?, Option.ite_none_right_eq_some, Bool.and_eq_true, Bool.or_eq_true,
        beq_iff_eq, Option.some.injEq] at found
      obtain ⟨⟨passed, here⟩, rfl⟩ := found
      exact .inr ⟨rfl, .inl ⟨passed, by simpa [occurrences, eq_comm] using here⟩⟩
  | unit value => cases found
  | not f ih | always f ih =>
      simpa [Captures, subformulas, binders, occurrences] using ih found
  | conj k l r left right =>
      rw [captures_conj, binders, occurrences, List.mem_append, List.mem_append]
      rcases Option.or_eq_some_iff.mp found with first | ⟨_, second⟩
      · have inside := left first
        grind
      · have inside := right second
        grind
  | quant q v f ih =>
      rw [captures_quant, binders, occurrences, List.mem_cons]
      by_cases rebound : v = old
      · simp only [clash?, rebound, if_true, Option.some.injEq] at found
        exact .inl ⟨found.symm, .inl rebound.symm⟩
      · simp only [clash?, rebound, if_false] at found
        have inside := ih found
        rw [Bool.or_eq_true, beq_iff_eq] at inside
        grind

theorem clash?_eq_none_iff {old new : Var} {below : Bool} {f : Formula} :
    f.clash? old new below = none ↔
      old ∉ f.binders ∧ (below → old ∉ f.occurrences) ∧ ¬ f.Captures old new := by
  induction f generalizing below with
  | holds a b | identical a b =>
      simp [clash?, binders, occurrences, Captures, subformulas, @eq_comm Var old]
  | unit value => simp [clash?, binders, occurrences, Captures, subformulas]
  | not f ih | always f ih =>
      simpa [clash?, Captures, subformulas, binders, occurrences] using ih
  | conj k l r left right =>
      rw [clash?_conj_eq_none, left, right, captures_conj, binders, occurrences, List.mem_append,
        List.mem_append]
      grind
  | quant q v f ih =>
      rw [clash?_quant_eq_none, ih, captures_quant, binders, occurrences, List.mem_cons,
        Bool.or_eq_true, beq_iff_eq]
      grind

theorem freeVars_replace (old new : Var) (f : Formula)
    (replaced : (f.replace old new).nameless = f.nameless.replace old new) :
    (f.replace old new).freeVars = Var.sort (f.freeVars.map (old.replace new)) := by
  have names : (f.replace old new).freeOccurrences [] =
      (f.freeOccurrences []).map (old.replace new) := by
    rw [← names_namelessIn, ← names_namelessIn, ← Nameless.names_replace]
    exact congrArg Nameless.names replaced
  rw [freeVars, names]
  apply Var.sort_congr
  intro v
  simp [freeVars]

theorem mem_boundVars {v : Var} {f : Formula} : v ∈ f.boundVars ↔ v ∈ f.binders :=
  Var.mem_sort

theorem exists_substitute_iff {old new : Var} (distinct : old ≠ new) (f : Formula) :
    (∃ g, f.substitute old new = .ok g) ↔ old ∉ f.boundVars ∧ ¬ f.Captures old new := by
  have clear : (∃ g, f.substitute old new = .ok g) ↔ f.clash? old new false = none := by
    simp [substitute_eq_ok_iff, Replaceable, distinct]
  rw [clear, clash?_eq_none_iff, mem_boundVars]
  simp

theorem substitute_eq_error {old new : Var} {f : Formula} {e : HygieneError}
    (failed : f.substitute old new = .error e) :
    (e = .rebound old ∧ old ∈ f.boundVars) ∨ (e = .captured new ∧ f.Captures old new) := by
  by_cases trivial : old = new
  · simp [substitute, trivial] at failed
  · cases found : f.clash? old new false with
    | none => simp [substitute, trivial, found] at failed
    | some e' =>
        simp only [substitute, trivial, found, if_false, Except.error.injEq] at failed
        simpa [failed, mem_boundVars] using clash?_eq_some found

/-- Substitution succeeds exactly if nothing forbids it, and then it replaces what is free and
nothing else. A failure says what forbids it. -/
theorem substitute_capture_free (old new : Var) (distinct : old ≠ new) (f : Formula) :
    ((∃ g, f.substitute old new = .ok g) ↔ old ∉ f.boundVars ∧ ¬ f.Captures old new) ∧
      (∀ g, f.substitute old new = .ok g →
        g.nameless = f.nameless.replace old new ∧
          g.freeVars = Var.sort (f.freeVars.map (old.replace new))) ∧
      (∀ e, f.substitute old new = .error e →
        (e = .rebound old ∧ old ∈ f.boundVars) ∨ (e = .captured new ∧ f.Captures old new)) ∧
      ∀ f' g g', f.alphaEq f' → f.substitute old new = .ok g → f'.substitute old new = .ok g' →
        g.alphaEq g' := by
  refine ⟨exists_substitute_iff distinct f, ?_, ?_, ?_⟩
  · intro g result
    obtain ⟨replaceable, rfl⟩ := (substitute_eq_ok_iff old new f g).mp result
    have replaced := namelessIn_replace old new f [] (replaceable.resolve_left distinct)
      List.not_mem_nil List.not_mem_nil
    exact ⟨replaced, freeVars_replace old new f replaced⟩
  · intro e failed
    exact substitute_eq_error failed
  · intro f' g g' same result result'
    obtain ⟨replaceable, rfl⟩ := (substitute_eq_ok_iff old new f g).mp result
    obtain ⟨replaceable', rfl⟩ := (substitute_eq_ok_iff old new f' g').mp result'
    exact alphaEq_replace old new f f' same replaceable replaceable'

/-- The replacing variable may be free, and bound elsewhere: only what lies below matters. -/
theorem substitute_capture_free_beside_binder :
    let a : Var := ⟨0⟩
    let b : Var := ⟨1⟩
    let x : Var := ⟨2⟩
    let y : Var := ⟨3⟩
    let f (bound : Var) : Formula := and (holds a x) (quant .ex bound (holds bound b))
    let g (bound : Var) : Formula := and (holds x x) (quant .ex bound (holds bound b))
    a ≠ x ∧ (f x).substitute a x = .ok (g x) ∧ a ∉ (f x).boundVars ∧ ¬ (f x).Captures a x ∧
      (g x).nameless = (f x).nameless.replace a x ∧ (g x).freeVars = [b, x] ∧
      (g x).alphaEq (g y) := by
  intro a b x y f g
  have distinct : a ≠ x := by decide
  have result : (f x).substitute a x = .ok (g x) := rfl
  have result' : (f y).substitute a x = .ok (g y) := rfl
  obtain ⟨domain, replaced, _, renamed⟩ := substitute_capture_free a x distinct (f x)
  obtain ⟨unbound, uncaptured⟩ := domain.mp ⟨_, result⟩
  obtain ⟨form, free⟩ := replaced (g x) result
  have same : (f x).alphaEq (f y) := by decide
  exact ⟨distinct, result, unbound, uncaptured, form, free.trans (by decide),
    renamed (f y) (g x) (g y) same result result'⟩

/-- A binder of the replaced variable is in the way even if the variable does not occur. -/
example :
    let a : Var := ⟨0⟩
    let x : Var := ⟨1⟩
    let f : Formula := quant .all x (holds a a)
    f.substitute x a = .error (.rebound x) ∧ f.substitute a x = .error (.captured x) :=
  ⟨rfl, rfl⟩

end Formula

end LinearCalculus
