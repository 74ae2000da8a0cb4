import LinearCalculus.Proofs.Exhaustion
import LinearCalculus.Proofs.Formula.Freeness
import LinearCalculus.Proofs.Variables
import Mathlib.Data.List.Nodup

namespace LinearCalculus.Formula

/-- The step at a quantifier draws one variable, whatever the binders above have become; the
walk over the whole formula draws them one after the other. -/
theorem binders_renameIn (env : List (Var × Var)) (f : Formula) (s : Supply) :
    (f.renameIn env s).1.binders.map Var.id = List.range' s.next f.binders.length ∧
      (f.renameIn env s).2 = ⟨s.next + f.binders.length⟩ := by
  induction f generalizing env s with
  | holds a b | identical a b => exact ⟨rfl, rfl⟩
  | unit value => exact ⟨rfl, rfl⟩
  | not f ih | always f ih => exact ih env s
  | conj k l r left right =>
      obtain ⟨first, between⟩ := left env s
      obtain ⟨second, after⟩ := right env ⟨s.next + l.binders.length⟩
      rw [renameIn_conj, between]
      constructor
      · rw [binders, binders, List.map_append, List.length_append, first, second,
          List.range'_append_1]
      · rw [after, binders, List.length_append, Nat.add_assoc]
  | quant q v f ih =>
      obtain ⟨inside, after⟩ := ih ((v, ⟨s.next⟩) :: env) ⟨s.next + 1⟩
      rw [renameIn_quant]
      constructor
      · rw [binders, binders, List.map_cons, List.length_cons, inside, List.range'_succ]
      · rw [after, binders, List.length_cons, Nat.add_assoc, Nat.add_comm 1]

theorem not_mem_vars_of_le {f : Formula} {s : Supply} {v : Var} (below : f.Below s)
    (later : s.next ≤ v.id) : v ∉ f.vars := by
  intro member
  have used : v.id < s.next := below_iff_among.mp below v member
  omega

/-- Renaming makes an equal formula whose binders are the next variables of the supply, each of
them once. If the supply has too few left, it makes nothing and uses the supply up, as if it had
failed at the first draw for which none was left. -/
theorem rename_fresh_copy (f : Formula) (s : Supply) (below : f.Below s) :
    (s.next + f.binders.length ≤ Supply.capacity →
      ∃ g, Fresh.bounded f.rename s = (some g, ⟨s.next + f.binders.length⟩) ∧
        g.alphaEq f ∧ g.freeVars = f.freeVars ∧
        g.binders.map Var.id = List.range' s.next f.binders.length ∧ g.binders.Nodup ∧
        ∀ v ∈ g.binders, v ∉ f.vars) ∧
      (Supply.capacity < s.next + f.binders.length →
        Fresh.bounded f.rename s = (none, ⟨Supply.capacity⟩)) ∧
      ∃ d : Drawing Formula, d.execute fresh = f.rename ∧ ∀ t : Supply,
        t.next ≤ Supply.capacity → (d.execute Fresh.take).run t = Fresh.bounded f.rename t := by
  obtain ⟨ids, after⟩ := binders_renameIn [] f s
  have same := alphaEq_symm (alphaEq_rename f s below)
  refine ⟨?_, ?_, f.stepwise_rename.execute_take⟩
  · intro fits
    have result : Fresh.bounded f.rename s = (some (f.rename s).1, (f.rename s).2) :=
      Fresh.bounded_of_le (after ▸ fits)
    refine ⟨(f.rename s).1, result.trans (congrArg _ after), same, freeVars_eq_of_alphaEq same, ids,
      ?_, ?_⟩
    · exact List.Nodup.of_map Var.id (ids ▸ List.nodup_range')
    · intro v member
      have drawn : v.id ∈ List.range' s.next f.binders.length :=
        ids ▸ List.mem_map_of_mem member
      exact not_mem_vars_of_le below (List.mem_range'_1.mp drawn).1
  · intro beyond
    exact Fresh.bounded_of_lt (after ▸ beyond)

/-- Two nested binders of one variable become two variables. A supply with two left suffices, and
one with a single variable left is used up. -/
theorem rename_fresh_copy_of_shadowed :
    let x : Var := ⟨0⟩
    let a : Var := ⟨1⟩
    let f : Formula := quant .all x (and (holds x a) (quant .ex x (holds x x)))
    let two : Supply := ⟨Supply.capacity - 2⟩
    let one : Supply := ⟨Supply.capacity - 1⟩
    (f.Below two ∧
      ∃ g, Fresh.bounded f.rename two = (some g, ⟨Supply.capacity⟩) ∧ g.alphaEq f ∧
        g.freeVars = [a] ∧ g.binders.map Var.id = [Supply.capacity - 2, Supply.capacity - 1] ∧
        ∀ v ∈ g.binders, v ∉ f.vars) ∧
      f.Below one ∧ Fresh.bounded f.rename one = (none, ⟨Supply.capacity⟩) := by
  intro x a f two one
  have below : f.Below two := by decide
  have below' : f.Below one := by decide
  obtain ⟨g, result, same, free, ids, _, unused⟩ := (rename_fresh_copy f two below).1 (by decide)
  exact ⟨⟨below, g, result, same, free.trans (by decide), ids, unused⟩, below',
    (rename_fresh_copy f one below').2.1 (by decide)⟩

end LinearCalculus.Formula
