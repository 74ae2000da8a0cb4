import LinearCalculus.Formula.Substitution
import LinearCalculus.Proofs.Formula.Nameless

namespace LinearCalculus.Formula

def Below (s : Supply) : Formula → Prop
  | holds a b | identical a b => a.id < s.next ∧ b.id < s.next
  | unit _ => True
  | not f | always f => f.Below s
  | conj _ l r => l.Below s ∧ r.Below s
  | quant _ v f => v.id < s.next ∧ f.Below s

instance Below.decide (s : Supply) : (f : Formula) → Decidable (f.Below s)
  | holds a b | identical a b => inferInstanceAs (Decidable (a.id < s.next ∧ b.id < s.next))
  | unit _ => inferInstanceAs (Decidable True)
  | not f | always f => decide s f
  | conj _ l r =>
    have := decide s l
    have := decide s r
    inferInstanceAs (Decidable (l.Below s ∧ r.Below s))
  | quant _ v f =>
    have := decide s f
    inferInstanceAs (Decidable (v.id < s.next ∧ f.Below s))

theorem Below.mono {s t : Supply} {f : Formula} (below : f.Below s) (later : s.next ≤ t.next) :
    f.Below t := by
  induction f with
  | holds a b | identical a b =>
      exact ⟨Nat.lt_of_lt_of_le below.1 later, Nat.lt_of_lt_of_le below.2 later⟩
  | unit value => trivial
  | not f ih | always f ih => exact ih below
  | conj k l r left right => exact ⟨left below.1, right below.2⟩
  | quant q v f ih => exact ⟨Nat.lt_of_lt_of_le below.1 later, ih below.2⟩

/-- Binders that have been renamed, innermost first, to variables drawn one after the other
from `first` on and before `limit`. -/
def Drawn (first : Nat) : Nat → List (Var × Var) → Prop
  | limit, [] => first ≤ limit
  | limit, (_, new) :: rest => new.id < limit ∧ Drawn first new.id rest

theorem drawn_mono (first limit more : Nat) (env : List (Var × Var)) (drawn : Drawn first limit env)
    (later : limit ≤ more) : Drawn first more env := by
  cases env with
  | nil => exact Nat.le_trans drawn later
  | cons pair rest => exact ⟨Nat.lt_of_lt_of_le drawn.1 later, drawn.2⟩

theorem renamed_lt (first limit : Nat) (env : List (Var × Var)) (drawn : Drawn first limit env)
    (v : Var) (below : v.id < first) : (renamed env v).id < limit := by
  induction env generalizing limit with
  | nil => exact Nat.lt_of_lt_of_le below drawn
  | cons pair rest ih =>
      by_cases here : v = pair.1
      · simpa [renamed, here] using drawn.1
      · have inner := ih pair.2.id drawn.2
        simp only [renamed, if_neg here]
        exact Nat.lt_trans inner drawn.1

theorem same_renamed (first limit : Nat) (env : List (Var × Var)) (drawn : Drawn first limit env)
    (v : Var) (below : v.id < first) : (Binders.ofPairs env).same v (renamed env v) := by
  induction env generalizing limit with
  | nil => simp [Binders.ofPairs, renamed]
  | cons pair rest ih =>
      by_cases here : v = pair.1
      · simp [Binders.ofPairs, Binders.same_bind, renamed, here]
      · have earlier := renamed_lt first pair.2.id rest drawn.2 v below
        have other : renamed rest v ≠ pair.2 := by
          intro same
          rw [same] at earlier
          exact Nat.lt_irrefl _ earlier
        simpa [Binders.ofPairs, Binders.same_bind, renamed, here, other] using
          ih pair.2.id drawn.2

theorem renameIn_conj (env : List (Var × Var)) (k : Connective) (l r : Formula) (s : Supply) :
    (conj k l r).renameIn env s =
      (conj k (l.renameIn env s).1 (r.renameIn env (l.renameIn env s).2).1,
        (r.renameIn env (l.renameIn env s).2).2) :=
  rfl

theorem renameIn_quant (env : List (Var × Var)) (q : Quantifier) (v : Var) (f : Formula)
    (s : Supply) :
    (quant q v f).renameIn env s =
      (quant q ⟨s.next⟩ (f.renameIn ((v, ⟨s.next⟩) :: env) ⟨s.next + 1⟩).1,
        (f.renameIn ((v, ⟨s.next⟩) :: env) ⟨s.next + 1⟩).2) :=
  rfl

theorem alphaEqIn_renameIn (first s : Supply) (env : List (Var × Var)) (f : Formula)
    (below : f.Below first) (drawn : Drawn first.next s.next env) :
    f.alphaEqIn (.ofPairs env) (f.renameIn env s).1 ∧ s.next ≤ (f.renameIn env s).2.next := by
  have atom (v : Var) (used : v.id < first.next) : (Binders.ofPairs env).same v (renamed env v) :=
    same_renamed first.next s.next env drawn v used
  induction f generalizing env s with
  | holds a b | identical a b =>
      have both := Bool.and_eq_true_iff.mpr ⟨atom a below.1, atom b below.2⟩
      exact ⟨both, Nat.le_refl _⟩
  | unit value => exact ⟨beq_self_eq_true value, Nat.le_refl _⟩
  | not f ih | always f ih => exact ih s env below drawn atom
  | conj k l r left right =>
      obtain ⟨same, more⟩ := left s env below.1 drawn atom
      have later := drawn_mono first.next s.next _ env drawn more
      obtain ⟨same', more'⟩ := right (l.renameIn env s).2 env below.2 later
        (same_renamed first.next _ env later)
      refine ⟨?_, Nat.le_trans more more'⟩
      simp [renameIn_conj, alphaEqIn, same, same']
  | quant q v f ih =>
      have extended : Drawn first.next (s.next + 1) ((v, ⟨s.next⟩) :: env) :=
        ⟨Nat.lt_succ_self _, drawn⟩
      obtain ⟨same, more⟩ := ih ⟨s.next + 1⟩ ((v, ⟨s.next⟩) :: env) below.2 extended
        (same_renamed first.next _ _ extended)
      refine ⟨?_, Nat.le_of_succ_le more⟩
      rw [Binders.ofPairs] at same
      simp [renameIn_quant, alphaEqIn, same]

theorem alphaEq_rename (f : Formula) (s : Supply) (below : f.Below s) :
    f.alphaEq (f.rename s).1 :=
  (alphaEqIn_renameIn s s [] f below (Nat.le_refl _)).1

theorem rename_later (f : Formula) (s : Supply) (below : f.Below s) :
    s.next ≤ (f.rename s).2.next :=
  (alphaEqIn_renameIn s s [] f below (Nat.le_refl _)).2

end LinearCalculus.Formula
