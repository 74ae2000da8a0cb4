import LinearCalculus.Proofs.Result
import LinearCalculus.Surface.Memo

namespace LinearCalculus.Surface

theorem Formula.expandList_eq_map (fs : List Formula) : expandList fs = fs.map expand := by
  induction fs with
  | nil => rfl
  | cons f fs ih => rw [expandList, ih, List.map_cons]

theorem Formula.expand_conj (k : Connective) (fs : List Formula) :
    (conj k fs).expand = .chain k (fs.map expand) := by
  rw [expand, expandList_eq_map]

theorem Formula.expand_iff (a b : Formula) : (iff a b).expand = (bothWays a b).expand := by
  simp only [bothWays, expand, expandList]

namespace Memo

variable {α β : Type}

def Sound (m : Memo) : Prop := ∀ f t, m.find? f = some t → t = f.expand

/-- From every sound table the computation gives the value, and it leaves a sound table. -/
def Computes (x : StateM Memo α) (a : α) : Prop := ∀ m, Sound m → (x m).1 = a ∧ Sound (x m).2

theorem computes_pure (a : α) : Computes (pure a) a := fun _ sound => ⟨rfl, sound⟩

theorem computes_bind {x : StateM Memo α} {next : α → StateM Memo β} {a : α} {b : β}
    (first : Computes x a) (second : Computes (next a) b) : Computes (x >>= next) b := by
  intro m sound
  obtain ⟨value, kept⟩ := first m sound
  have result : (x >>= next) m = next a (x m).2 := congrArg (next · (x m).2) value
  rw [result]
  exact second (x m).2 kept

theorem record_run (f : Formula) (compute : StateM Memo LinearCalculus.Formula) (m : Memo) :
    record f compute m = match m.find? f with
      | some t => (t, m)
      | none => ((compute m).1, (f, (compute m).1) :: (compute m).2) := by
  have unfolded : record f compute m = (match m.find? f with
      | some t => pure t
      | none => do
        let t ← compute
        modify ((f, t) :: ·)
        return t : StateM Memo LinearCalculus.Formula) m := rfl
  rw [unfolded]
  cases m.find? f <;> rfl

theorem computes_record (f : Formula) (compute : StateM Memo LinearCalculus.Formula)
    (right : Computes compute f.expand) : Computes (record f compute) f.expand := by
  intro m sound
  rw [record_run]
  cases found : m.find? f with
  | some t => exact ⟨sound f t found, sound⟩
  | none =>
      obtain ⟨value, kept⟩ := right m sound
      refine ⟨value, ?_⟩
      intro g t known
      unfold find? at known
      split at known
      · rename_i same
        cases known
        rw [← same, value]
      · exact kept g t known

mutual

/-- By recursion on the weight: an equivalence leads to a formula that is no part of it. -/
theorem computes_formula (f : Formula) : Computes (formula f) f.expand := by
  rw [formula.eq_def]
  apply computes_record
  match f with
  | .holds a b | .identical a b => exact computes_pure _
  | .not g => exact computes_bind (computes_formula g) (computes_pure _)
  | .conj k gs => exact computes_bind (computes_formulas gs) (computes_pure _)
  | .always g => exact computes_bind (computes_formula g) (computes_pure _)
  | .quant q vs g => exact computes_bind (computes_formula g) (computes_pure _)
  | .implies a b =>
      exact computes_bind (computes_formula a)
        (computes_bind (computes_formula b) (computes_pure _))
  | .iff a b =>
      rw [Formula.expand_iff]
      exact computes_formula (.bothWays a b)
  | .hidden _ g => exact computes_formula g
termination_by f.weight
decreasing_by
  all_goals simp only [Formula.bothWays, Formula.weight, Formula.weightList]; omega

theorem computes_formulas (fs : List Formula) : Computes (formulas fs) (Formula.expandList fs) := by
  match fs with
  | [] =>
      rw [formulas]
      exact computes_pure _
  | f :: fs =>
      rw [formulas]
      exact computes_bind (computes_formula f)
        (computes_bind (computes_formulas fs) (computes_pure _))
termination_by Formula.weightList fs
decreasing_by
  all_goals simp only [Formula.weightList]; omega

end

theorem computes_map_expand (fs : List Formula) : Computes (formulas fs) (fs.map Formula.expand) :=
  Formula.expandList_eq_map fs ▸ computes_formulas fs

/-- The same of computations that can fail: also a fault leaves a sound table. -/
def Expands (x : ExceptT ExpandError (StateM Memo) α) (r : Except ExpandError α) : Prop :=
  Computes x.run r

theorem expands_pure (a : α) : Expands (pure a) (.ok a) := computes_pure _

theorem expands_except (r : Except ExpandError α) : Expands (liftM r) r := by
  cases r <;> exact computes_pure _

theorem expands_bind {x : ExceptT ExpandError (StateM Memo) α}
    {next : α → ExceptT ExpandError (StateM Memo) β} {r : Except ExpandError α}
    {k : α → Except ExpandError β} (first : Expands x r) (rest : ∀ a, Expands (next a) (k a)) :
    Expands (x >>= next) (r >>= k) := by
  unfold Expands
  rw [ExceptT.run_bind]
  refine computes_bind first ?_
  cases r with
  | error e => exact computes_pure _
  | ok a => exact rest a

theorem expands_after {x : StateM Memo α} {next : α → ExceptT ExpandError (StateM Memo) β} {a : α}
    {r : Except ExpandError β} (first : Computes x a) (rest : Expands (next a) r) :
    Expands (liftM x >>= next) r := by
  change Computes (x >>= fun b => (next b).run) r
  exact computes_bind first rest

theorem expands_arrow (a : Arrow) : Expands (arrow a) a.expand := by
  induction a with
  | identity a | hide name a | reveal name a =>
      exact expands_after (computes_formula a) (expands_pure _)
  | unfold a b | fold a b => exact expands_after (computes_formula _) (expands_pure _)
  | composite f g left right =>
      exact expands_bind left fun f' => expands_bind right fun g' => expands_except _
  | onElement k values i f ih =>
      exact expands_after (computes_map_expand values) (expands_bind ih fun _ => expands_pure _)
  | onNot f ih | onAlways f ih | onBody q vars f ih => exact expands_bind ih fun _ => expands_pure _
  | shift k values start stop | group k values start stop | forget values i =>
      exact expands_after (computes_map_expand values) (expands_except _)
  | ungroup k values i =>
      rw [arrow, Arrow.expand]
      cases nested? k values i with
      | none => exact expands_except (.error _)
      | some inner =>
          simp only [spliced, List.map_append]
          exact expands_after (computes_map_expand _) (expands_after (computes_map_expand inner)
            (expands_after (computes_map_expand _) (expands_except _)))
  | widen values i x =>
      exact expands_after (computes_map_expand values)
        (expands_after (computes_formula x) (expands_except _))
  | lifted f a b => exact expands_pure f

theorem computes_arrow (a : Arrow) : Computes (arrow a) a.expand := expands_arrow a

/-- The tables that expansions leave, one after the other. -/
inductive Reached : Memo → Prop where
  | empty : Reached []
  | formula (f : Formula) {m : Memo} (reached : Reached m) : Reached (formula f m).2
  | arrow (a : Arrow) {m : Memo} (reached : Reached m) : Reached (arrow a m).2

theorem Reached.sound {m : Memo} (reached : Reached m) : Sound m := by
  induction reached with
  | empty => exact fun f t found => nomatch found
  | @formula f m reached ih => exact (computes_formula f m ih).2
  | @arrow a m reached ih => exact (computes_arrow a m ih).2

/-- Whatever was expanded before, with whatever results, formulas and arrows are expanded as they
are from an empty table, and as they are without any table. -/
theorem reached_invisible {m : Memo} (reached : Reached m) :
    (∀ f : Formula, (formula f m).1 = (formula f []).1 ∧ (formula f m).1 = f.expand) ∧
      ∀ a : Arrow, (arrow a m).1 = (arrow a []).1 ∧ (arrow a m).1 = a.expand := by
  constructor
  · intro f
    have here := (computes_formula f m reached.sound).1
    have alone := (computes_formula f [] Reached.empty.sound).1
    exact ⟨here.trans alone.symm, here⟩
  · intro a
    have here := (computes_arrow a m reached.sound).1
    have alone := (computes_arrow a [] Reached.empty.sound).1
    exact ⟨here.trans alone.symm, here⟩

/-- The two sides of an equivalence were expanded in the other order, and then unfolded. -/
theorem reached_invisible_after_unfold :
    let p : Formula := .holds ⟨0⟩ ⟨1⟩
    let q : Formula := .hidden "Q" (.identical ⟨0⟩ ⟨1⟩)
    let m := (arrow (.unfold p q) (formula (.iff q p) []).2).2
    let both := LinearCalculus.Formula.chain .and
      [Formula.expandImplies p.expand q.expand, Formula.expandImplies q.expand p.expand]
    Reached m ∧ (formula (.iff p q) m).1 = (formula (.iff p q) []).1 ∧
      (formula (.iff p q) m).1 = both ∧ (arrow (.fold p q) m).1 = .ok (.identity both) := by
  intro p q m both
  have reached : Reached m := .arrow (.unfold p q) (.formula (.iff q p) .empty)
  obtain ⟨formulas, arrows⟩ := reached_invisible reached
  exact ⟨reached, (formulas (.iff p q)).1, (formulas (.iff p q)).2, (arrows (.fold p q)).2⟩

end Memo

end LinearCalculus.Surface
