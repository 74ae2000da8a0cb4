import LinearCalculus.Context.Candidates
import LinearCalculus.Proofs.Context.Typing

/-! Supplies that run out.

A computation that draws variables one after the other can be carried out by any way of drawing
them. To fail at the draw for which no identity is left comes to the same as to draw without a
limit and to cut the computation off at its end. All operations are such computations. -/

namespace LinearCalculus

/-- A draw that fails if no identity is left, and then leaves the supply as it is. -/
def Fresh.take : OptionT Fresh Var := OptionT.mk fun s =>
  if s.next < Supply.capacity then (some ⟨s.next⟩, ⟨s.next + 1⟩) else (none, s)

/-- A computation by what it does with each variable that it draws. -/
inductive Drawing (α : Type) where
  | done (a : α)
  | draw (next : Var → Drawing α)

namespace Drawing

variable {α β : Type}

def execute {m : Type → Type} [Monad m] (sample : m Var) : Drawing α → m α
  | done a => pure a
  | draw next => do (next (← sample)).execute sample

def bind (next : α → Drawing β) : Drawing α → Drawing β
  | done a => next a
  | draw rest => draw fun v => (rest v).bind next

theorem execute_bind {m : Type → Type} [Monad m] [LawfulMonad m] (sample : m Var) (d : Drawing α)
    (next : α → Drawing β) :
    (d.bind next).execute sample = d.execute sample >>= fun a => (next a).execute sample := by
  induction d with
  | done a => simp only [bind, execute, pure_bind]
  | draw rest ih => simp only [bind, execute, bind_assoc, ih]

theorem execute_later (d : Drawing α) (s : Supply) : s.next ≤ (d.execute fresh s).2.next := by
  induction d generalizing s with
  | done a => exact Nat.le_refl _
  | draw rest ih => exact Nat.le_trans (Nat.le_succ _) (ih ⟨s.next⟩ ⟨s.next + 1⟩)

theorem execute_draw_take (rest : Var → Drawing α) (s : Supply) :
    ((draw rest).execute Fresh.take).run s =
      if s.next < Supply.capacity then ((rest ⟨s.next⟩).execute Fresh.take).run ⟨s.next + 1⟩
      else (none, s) := by
  have drawn : Fresh.take.run s =
      if s.next < Supply.capacity then (some ⟨s.next⟩, ⟨s.next + 1⟩) else (none, s) := rfl
  rw [execute, OptionT.run_bind]
  simp only [Option.elimM, Bind.bind, StateT.bind, drawn]
  split <;> rfl

theorem execute_take (d : Drawing α) (s : Supply) (bounded : s.next ≤ Supply.capacity) :
    (d.execute Fresh.take).run s = Fresh.bounded (d.execute fresh) s := by
  induction d generalizing s with
  | done a => exact (Fresh.bounded_of_le (x := pure a) bounded).symm
  | draw rest ih =>
      rw [execute_draw_take]
      split
      · rename_i left
        exact ih ⟨s.next⟩ ⟨s.next + 1⟩ left
      · rename_i nothing
        have used : s.next = Supply.capacity :=
          Nat.le_antisymm bounded (Nat.le_of_not_lt nothing)
        have later := (rest ⟨s.next⟩).execute_later ⟨s.next + 1⟩
        have beyond : Supply.capacity < ((draw rest).execute fresh s).2.next :=
          Nat.lt_of_lt_of_le (used ▸ Nat.lt_succ_self s.next) later
        rw [Fresh.bounded_of_lt beyond, ← used]

end Drawing

def Stepwise {α : Type} (x : Fresh α) : Prop := ∃ d : Drawing α, d.execute fresh = x

/-- A computation that fails at the draw does as the one that is cut off at its end. -/
theorem Stepwise.execute_take {α : Type} {x : Fresh α} (stepwise : Stepwise x) :
    ∃ d : Drawing α, d.execute fresh = x ∧
      ∀ s : Supply, s.next ≤ Supply.capacity → (d.execute Fresh.take).run s = x.bounded s := by
  rcases stepwise with ⟨d, rfl⟩
  exact ⟨d, rfl, d.execute_take⟩

section

variable {ε α β : Type}

theorem stepwise_pure (a : α) : Stepwise (pure a) := ⟨.done a, rfl⟩

theorem stepwise_fresh : Stepwise fresh := ⟨.draw .done, rfl⟩

theorem stepwise_bind {x : Fresh α} {next : α → Fresh β} (first : Stepwise x)
    (rest : ∀ a, Stepwise (next a)) : Stepwise (x >>= next) := by
  rcases first with ⟨d, rfl⟩
  have each : (fun a => (rest a).choose.execute fresh) = next :=
    funext fun a => (rest a).choose_spec
  exact ⟨d.bind fun a => (rest a).choose, by rw [Drawing.execute_bind, each]⟩

theorem stepwise_throw (e : ε) : Stepwise (throw e : ExceptT ε Fresh α).run :=
  stepwise_pure _

theorem stepwise_except (x : Except ε α) : Stepwise (liftM x : ExceptT ε Fresh α).run := by
  cases x <;> exact stepwise_pure _

theorem stepwise_lift {x : Fresh α} (first : Stepwise x) :
    Stepwise (liftM x : ExceptT ε Fresh α).run :=
  stepwise_bind first fun _ => stepwise_pure _

theorem stepwise_run_bind {x : ExceptT ε Fresh α} {next : α → ExceptT ε Fresh β}
    (first : Stepwise x.run) (rest : ∀ a, Stepwise (next a).run) : Stepwise (x >>= next).run := by
  rw [ExceptT.run_bind]
  refine stepwise_bind first fun outcome => ?_
  cases outcome with
  | error e => exact stepwise_pure _
  | ok a => exact rest a

theorem stepwise_except_bind {x : Except ε α} {next : α → ExceptT ε Fresh β}
    (rest : ∀ a, Stepwise (next a).run) :
    Stepwise ((liftM x : ExceptT ε Fresh α) >>= next).run :=
  stepwise_run_bind (stepwise_except x) rest

end

theorem Formula.stepwise_renameIn (env : List (Var × Var)) (f : Formula) :
    Stepwise (f.renameIn env) := by
  induction f generalizing env with
  | holds a b | identical a b | unit value => exact stepwise_pure _
  | not f ih | always f ih => exact stepwise_bind (ih env) fun _ => stepwise_pure _
  | conj k l r left right =>
      refine stepwise_bind (left env) fun _ => ?_
      exact stepwise_bind (right env) fun _ => stepwise_pure _
  | quant q v f ih =>
      refine stepwise_bind stepwise_fresh fun w => ?_
      exact stepwise_bind (ih ((v, w) :: env)) fun _ => stepwise_pure _

theorem Formula.stepwise_rename (f : Formula) : Stepwise f.rename := f.stepwise_renameIn []

theorem Arrow.stepwise_copy (a : Formula) : Stepwise (Arrow.copy a) :=
  stepwise_bind a.stepwise_rename fun _ => stepwise_pure _

theorem Layer.stepwise_importAt (l : Layer) (b x : Formula) : Stepwise (l.importAt b x).run := by
  fun_cases Layer.importAt l b x
  · refine stepwise_run_bind (stepwise_lift b.stepwise_rename) fun _ => ?_
    refine stepwise_run_bind (stepwise_lift x.stepwise_rename) fun _ => ?_
    exact stepwise_except _
  · exact stepwise_throw _
  · exact stepwise_except_bind fun _ => stepwise_except _
  · exact stepwise_pure _
  · exact stepwise_except _
  all_goals exact stepwise_throw _

namespace Context

theorem stepwise_importAt (c : Context) (b x : Formula) : Stepwise (c.importAt b x).run := by
  fun_induction importAt c b x with
  | case1 => exact stepwise_pure _
  | case2 x l => exact l.stepwise_importAt b x
  | case3 x inner outer _ _ first second =>
      refine stepwise_run_bind first fun _ => ?_
      exact stepwise_run_bind second fun _ => stepwise_except _
  | case4 x inner outer _ _ outer' inner' found ih =>
      exact stepwise_run_bind ih fun _ => stepwise_except _
  | case5 | case6 => exact stepwise_throw _

theorem stepwise_probe : Stepwise probe :=
  stepwise_bind stepwise_fresh fun _ => stepwise_bind stepwise_fresh fun _ => stepwise_pure _

end Context

namespace Transformation

theorem stepwise_arrowAt (t : Transformation) (x : Formula) : Stepwise (t.arrowAt x).run := by
  cases t with
  | importing c b => exact c.stepwise_importAt b x
  | lifting c b | exporting c b => exact stepwise_except _
  | extract outer b hole inner =>
      refine stepwise_run_bind (outer.stepwise_importAt b (inner.fill x)) fun _ => ?_
      cases hole with
      | right => exact stepwise_pure _
      | left => exact stepwise_except _
  | insert outer b hole inner =>
      refine stepwise_except_bind fun _ => ?_
      cases hole with
      | right => exact stepwise_pure _
      | left => exact stepwise_except_bind fun _ => stepwise_pure _

theorem stepwise_probed (t : Transformation) (expected : Except TransportError Unit) :
    Stepwise (do
      expected
      let x ← Context.probe
      let _ ← t.arrowAt x
      return t : ExceptT TransportError Fresh Transformation).run := by
  refine stepwise_except_bind fun _ => ?_
  refine stepwise_run_bind (stepwise_lift Context.stepwise_probe) fun x => ?_
  exact stepwise_run_bind (t.stepwise_arrowAt x) fun _ => stepwise_pure _

end Transformation

namespace TwoHole

theorem stepwise_import_push (l r : Context) (b x y : Formula)
    (join : Arrow → Arrow → Except TransportError Arrow) :
    Stepwise (do
      let pulled ← l.importAt b x
      let pushed ← r.pushAt false b y
      join pulled pushed : ExceptT TransportError Fresh Arrow).run := by
  refine stepwise_run_bind (l.stepwise_importAt b x) fun _ => ?_
  exact stepwise_except_bind fun _ => stepwise_except _

theorem stepwise_duplicateRight (l r : Context) (b₀ x y : Formula) :
    Stepwise (duplicateRight l r b₀ x y).run := by
  refine stepwise_run_bind (stepwise_lift b₀.stepwise_rename) fun _ => ?_
  refine stepwise_run_bind (l.stepwise_importAt (.always b₀) x) fun _ => ?_
  exact stepwise_except_bind fun _ => stepwise_except_bind fun _ => stepwise_except _

theorem stepwise_transport (h : TwoHole) (b : Formula) (d : Heading) (x y : Formula) :
    Stepwise (h.transport b d x y).run := by
  induction h generalizing d with
  | conj k l r =>
      cases k with
      | or => exact stepwise_throw _
      | and =>
          refine stepwise_except_bind fun _ => ?_
          cases d with
          | rightward => exact stepwise_import_push l r b x y _
          | leftward => exact stepwise_import_push r l b y x _
  | comp inner outer ih =>
      exact stepwise_run_bind (ih (d.under outer.variance)) fun _ => stepwise_pure _

theorem stepwise_transportDuplicating (h : TwoHole) (b x y : Formula) :
    Stepwise (h.transportDuplicating b x y).run := by
  induction h with
  | conj k l r =>
      unfold transportDuplicating
      split
      · exact stepwise_throw _
      · rename_i b₀ _
        cases k with
        | or => exact stepwise_throw _
        | and => exact stepwise_except_bind fun _ => stepwise_duplicateRight l r b₀ x y
  | comp inner outer ih =>
      unfold transportDuplicating
      split
      · exact stepwise_throw _
      · dsimp only
        split
        · exact stepwise_run_bind ih fun _ => stepwise_pure _
        · exact stepwise_except_bind fun _ => stepwise_pure _
        · exact stepwise_throw _

end TwoHole

namespace Search

theorem stepwise_transformation? (search : Search) (outer : Context) (b : Formula) (hole : Side)
    (inner : Context) (x : Formula) :
    Stepwise (search.transformation? outer b hole inner x).run := by
  cases search with
  | importing =>
      rw [transformation?]
      split
      · exact stepwise_run_bind (outer.stepwise_importAt b (inner.fill x)) fun _ => stepwise_pure _
      · exact stepwise_pure _
  | exporting =>
      rw [transformation?]
      split
      · exact stepwise_except_bind fun _ => stepwise_except_bind fun _ => stepwise_pure _
      · exact stepwise_pure _

theorem stepwise_candidate? (search : Search) (wanted : Formula → Bool) (outside : List Layer)
    (layer : Layer) (inside : List Layer) :
    Stepwise (search.candidate? wanted outside layer inside) := by
  unfold candidate?
  split
  · split
    · refine stepwise_bind Context.stepwise_probe fun x => ?_
      refine stepwise_bind (search.stepwise_transformation? _ _ _ _ x) fun outcome => ?_
      split <;> exact stepwise_pure _
    · exact stepwise_pure _
  · exact stepwise_pure _

theorem stepwise_amongLayers (search : Search) (wanted : Formula → Bool) (limit : Option Nat)
    (outside rest : List Layer) : Stepwise (search.amongLayers wanted limit outside rest) := by
  induction rest generalizing limit outside with
  | nil => exact stepwise_pure _
  | cons layer inside ih =>
      rw [amongLayers]
      split
      · exact stepwise_pure _
      · refine stepwise_bind (search.stepwise_candidate? wanted outside layer inside) fun found => ?_
        cases found with
        | none => exact ih _ _
        | some c => exact stepwise_bind (ih _ _) fun _ => stepwise_pure _

end Search

theorem Context.stepwise_candidates (c : Context) (search : Search) (wanted : Formula → Bool)
    (limit : Option Nat) : Stepwise (c.candidates search wanted limit) := by
  unfold candidates
  split
  · exact search.stepwise_amongLayers wanted limit [] c.layers
  · exact stepwise_pure _

end LinearCalculus
