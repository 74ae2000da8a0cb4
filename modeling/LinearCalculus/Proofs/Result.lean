import LinearCalculus.Var

/-! What is known of the results of computations that can fail.

`Gives x s P` says that whenever `x`, run from the state `s`, has a result, then `P`
holds of the result and of the state that is left. A failure makes it true. `Yields x s P`
says the same and that there is a result. -/

namespace LinearCalculus

variable {ε σ α β : Type}

theorem bind_eq_ok {x : Except ε α} {next : α → Except ε β} {b : β} :
    (x >>= next) = .ok b ↔ ∃ a, x = .ok a ∧ next a = .ok b := by
  cases x <;> simp [bind, Except.bind]

theorem bind_eq_error {x : Except ε α} {next : α → Except ε β} {e : ε} :
    (x >>= next) = .error e ↔ x = .error e ∨ ∃ a, x = .ok a ∧ next a = .error e := by
  cases x <;> simp [bind, Except.bind]

theorem pure_eq_ok {a b : α} : (pure a : Except ε α) = .ok b ↔ a = b := by
  simp [pure, Except.pure]

theorem guarded_eq_ok {c : Prop} [Decidable c] {e : ε} {a b : α} :
    (if c then pure a else throw e : Except ε α) = .ok b ↔ c ∧ a = b := by
  by_cases holds : c
  · rw [if_pos holds, pure_eq_ok]
    exact ⟨fun same => ⟨holds, same⟩, And.right⟩
  · rw [if_neg holds]
    constructor
    · intro result
      cases result
    · intro both
      exact absurd both.1 holds

theorem mapError_eq_ok {ε' : Type} {x : Except ε α} {change : ε → ε'} {a : α} :
    x.mapError change = .ok a ↔ x = .ok a := by
  cases x with
  | error e => exact ⟨nofun, nofun⟩
  | ok b =>
      constructor <;>
      · intro same
        cases same
        rfl

theorem toOption_eq_some {x : Except ε α} {a : α} : x.toOption = some a ↔ x = .ok a := by
  cases x <;> simp [Except.toOption]

def Gives (x : ExceptT ε (StateM σ) α) (s : σ) (P : α → σ → Prop) : Prop :=
  ∀ a t, x.run s = (.ok a, t) → P a t

theorem gives_mono {x : ExceptT ε (StateM σ) α} {s : σ} {P Q : α → σ → Prop}
    (gives : Gives x s P) (weaker : ∀ a t, P a t → Q a t) : Gives x s Q := by
  intro a t result
  exact weaker a t (gives a t result)

theorem gives_pure {a : α} {s : σ} {P : α → σ → Prop} (holds : P a s) :
    Gives (pure a : ExceptT ε (StateM σ) α) s P := by
  intro b t result
  cases result
  exact holds

theorem gives_throw (e : ε) (s : σ) (P : α → σ → Prop) :
    Gives (throw e : ExceptT ε (StateM σ) α) s P := by
  intro b t result
  cases result

theorem gives_bind {x : ExceptT ε (StateM σ) α} {next : α → ExceptT ε (StateM σ) β} {s : σ}
    {P : α → σ → Prop} {Q : β → σ → Prop} (first : Gives x s P)
    (rest : ∀ a t, P a t → Gives (next a) t Q) : Gives (x >>= next) s Q := by
  intro b u result
  rw [ExceptT.run_bind] at result
  simp only [bind, StateT.bind] at result
  rcases outcome : x.run s with ⟨(e | a), t⟩
  · rw [outcome] at result
    cases result
  · rw [outcome] at result
    exact rest a t (first a t outcome) b u result

theorem gives_after {x : ExceptT ε (StateM σ) α} {next : α → ExceptT ε (StateM σ) β} {s : σ}
    {Q : β → σ → Prop} (rest : ∀ a t, Gives (next a) t Q) : Gives (x >>= next) s Q :=
  gives_bind (P := fun _ _ => True) (fun _ _ _ => trivial) (fun a t _ => rest a t)

theorem gives_map {x : ExceptT ε (StateM σ) α} {change : α → β} {s : σ} {Q : β → σ → Prop}
    (gives : Gives x s (fun a t => Q (change a) t)) : Gives (change <$> x) s Q := by
  rw [map_eq_pure_bind]
  exact gives_bind gives (fun a t holds => gives_pure holds)

theorem gives_except {x : Except ε α} {s : σ} {P : α → σ → Prop}
    (holds : ∀ a, x = .ok a → P a s) : Gives (liftM x : ExceptT ε (StateM σ) α) s P := by
  intro a t result
  cases x with
  | error e => cases result
  | ok b =>
      cases result
      exact holds a rfl

theorem gives_bind_except {x : Except ε α} {next : α → ExceptT ε (StateM σ) β} {s : σ}
    {P : α → Prop} {Q : β → σ → Prop} (first : ∀ a, x = .ok a → P a)
    (rest : ∀ a, P a → Gives (next a) s Q) :
    Gives ((liftM x : ExceptT ε (StateM σ) α) >>= next) s Q := by
  refine gives_bind (P := fun a t => P a ∧ t = s) (gives_except ?_) ?_
  · intro a result
    exact ⟨first a result, rfl⟩
  · rintro a t ⟨holds, rfl⟩
    exact rest a holds

theorem gives_state {x : StateM σ α} {s : σ} {P : α → σ → Prop} (holds : P (x s).1 (x s).2) :
    Gives (liftM x : ExceptT ε (StateM σ) α) s P := by
  intro a t result
  cases result
  exact holds

/-- The computation, run from the state, has a result, and `P` holds of it. -/
def Yields (x : ExceptT ε (StateM σ) α) (s : σ) (P : α → σ → Prop) : Prop :=
  ∃ a t, x.run s = (.ok a, t) ∧ P a t

theorem yields_pure {a : α} {s : σ} {P : α → σ → Prop} (holds : P a s) :
    Yields (pure a : ExceptT ε (StateM σ) α) s P :=
  ⟨a, s, rfl, holds⟩

theorem run_bind_of_ok {x : ExceptT ε (StateM σ) α} {next : α → ExceptT ε (StateM σ) β} {s t : σ}
    {a : α} (outcome : x.run s = (.ok a, t)) : (x >>= next).run s = (next a).run t := by
  rw [ExceptT.run_bind]
  simp only [bind, StateT.bind, outcome]

theorem run_bind_of_error {x : ExceptT ε (StateM σ) α} {next : α → ExceptT ε (StateM σ) β} {s t : σ}
    {e : ε} (outcome : x.run s = (.error e, t)) : (x >>= next).run s = (.error e, t) := by
  rw [ExceptT.run_bind]
  simp only [bind, StateT.bind, outcome]
  rfl

theorem run_adapt {ε' : Type} (x : ExceptT ε (StateM σ) α) (change : ε → ε') (s : σ) :
    (x.adapt change).run s = ((x.run s).1.mapError change, (x.run s).2) :=
  rfl

theorem yields_bind {x : ExceptT ε (StateM σ) α} {next : α → ExceptT ε (StateM σ) β} {s : σ}
    {P : α → σ → Prop} {Q : β → σ → Prop} (first : Yields x s P)
    (rest : ∀ a t, P a t → Yields (next a) t Q) : Yields (x >>= next) s Q := by
  obtain ⟨a, t, outcome, holds⟩ := first
  obtain ⟨b, u, result, holds'⟩ := rest a t holds
  exact ⟨b, u, (run_bind_of_ok outcome).trans result, holds'⟩

theorem yields_except {x : Except ε α} {s : σ} {P : α → σ → Prop} (holds : ∃ a, x = .ok a ∧ P a s) :
    Yields (liftM x : ExceptT ε (StateM σ) α) s P := by
  obtain ⟨a, rfl, holds⟩ := holds
  exact ⟨a, s, rfl, holds⟩

theorem yields_state {x : StateM σ α} {s : σ} {P : α → σ → Prop} (holds : P (x s).1 (x s).2) :
    Yields (liftM x : ExceptT ε (StateM σ) α) s P :=
  ⟨(x s).1, (x s).2, rfl, holds⟩

/-- A condition that every result proves and from which a result follows is the domain of the
computation, and what is known of that result holds of every result. -/
theorem domain_of_gives_yields {x : ExceptT ε (StateM σ) α} {s : σ} {D : Prop} {P : α → σ → Prop}
    (needed : Gives x s (fun _ _ => D)) (enough : D → Yields x s P) :
    ((∃ a t, x.run s = (.ok a, t)) ↔ D) ∧ Gives x s P := by
  constructor
  · constructor
    · intro succeeds
      rcases succeeds with ⟨a, t, result⟩
      exact needed a t result
    · intro holds
      rcases enough holds with ⟨a, t, result, _⟩
      exact ⟨a, t, result⟩
  · intro a t result
    rcases enough (needed a t result) with ⟨a', t', result', holds⟩
    cases result.symm.trans result'
    exact holds

def attempt (x : ExceptT ε (StateM σ) α) : StateM σ (Option α) :=
  fun s => ((x.run s).1.toOption, (x.run s).2)

theorem attempt_eq_some {x : ExceptT ε (StateM σ) α} {s : σ} {a : α} {P : α → Prop}
    (gives : Gives x s (fun a _ => P a)) (result : (attempt x s).1 = some a) : P a := by
  rcases outcome : x.run s with ⟨(e | b), t⟩
  · simp [attempt, outcome, Except.toOption] at result
  · simp only [attempt, outcome, Except.toOption, Option.some.injEq] at result
    exact result ▸ gives b t outcome

end LinearCalculus
