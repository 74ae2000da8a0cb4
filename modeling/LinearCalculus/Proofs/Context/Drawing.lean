import LinearCalculus.Proofs.Variables

namespace LinearCalculus

open Formula (and)
open Arrow

/-- What is known after the supply has moved on: all that was drawn has been added. -/
def Extended (known : Var → Prop) (s t : Supply) (v : Var) : Prop :=
  known v ∨ s.next ≤ v.id ∧ v.id < t.next

section

variable {known : Var → Prop} {s t u : Supply} {vs : List Var}

theorem Among.extended (among : Among known vs) : Among (Extended known s t) vs :=
  among.mono fun _ => .inl

theorem Extended.step {v : Var} (later : s.next ≤ t.next)
    (extended : Extended (Extended known s t) t u v) (later' : t.next ≤ u.next) :
    Extended known s u v := by
  rcases extended with (old | ⟨lower, upper⟩) | ⟨lower, upper⟩
  · exact .inl old
  · exact .inr ⟨lower, Nat.lt_of_lt_of_le upper later'⟩
  · exact .inr ⟨Nat.le_trans later lower, upper⟩

end

/-- From this supply, the computation gives no identity back, and its result consists of known
variables and of those that it drew. -/
structure Draws {ε α : Type} (x : ExceptT ε Fresh α) (s : Supply) (known : Var → Prop)
    (vars : α → List Var) : Prop where
  later : s.next ≤ (x.run s).2.next
  among : Gives x s (fun a t => Among (Extended known s t) (vars a))

section

variable {ε α β : Type} {s : Supply} {known : Var → Prop} {V : α → List Var} {W : β → List Var}

theorem draws_pure {a : α} (among : Among known (V a)) :
    Draws (pure a : ExceptT ε Fresh α) s known V :=
  ⟨Nat.le_refl _, gives_pure among.extended⟩

theorem draws_throw (e : ε) : Draws (throw e : ExceptT ε Fresh α) s known V :=
  ⟨Nat.le_refl _, gives_throw e s _⟩

theorem draws_state {x : Fresh α} (later : s.next ≤ (x s).2.next)
    (among : Among (Extended known s (x s).2) (V (x s).1)) :
    Draws (liftM x : ExceptT ε Fresh α) s known V :=
  ⟨later, gives_state among⟩

theorem draws_except {x : Except ε α} (among : ∀ a, x = .ok a → Among known (V a)) :
    Draws (liftM x : ExceptT ε Fresh α) s known V := by
  refine ⟨?_, gives_except fun a result => (among a result).extended⟩
  cases x <;> exact Nat.le_refl _

theorem draws_bind {x : ExceptT ε Fresh α} {next : α → ExceptT ε Fresh β}
    (first : Draws x s known V)
    (rest : ∀ a t, Among (Extended known s t) (V a) → Draws (next a) t (Extended known s t) W) :
    Draws (x >>= next) s known W := by
  have later := first.later
  have among := first.among
  rw [Gives] at among
  rcases outcome : x.run s with ⟨(e | a), t⟩ <;> rw [outcome] at later
  · have run : (x >>= next).run s = (.error e, t) := by
      rw [ExceptT.run_bind]
      simp only [bind, StateT.bind, outcome]
      rfl
    refine ⟨run ▸ later, fun b u result => ?_⟩
    rw [run] at result
    cases result
  · have run : (x >>= next).run s = (next a).run t := by
      rw [ExceptT.run_bind]
      simp only [bind, StateT.bind, outcome]
    obtain ⟨later', among'⟩ := rest a t (among a t outcome)
    refine ⟨run ▸ Nat.le_trans later later', fun b u result => ?_⟩
    rw [run] at result
    rw [result] at later'
    exact (among' b u result).mono fun v extended => extended.step later later'

theorem draws_bind_except {x : Except ε α} {next : α → ExceptT ε Fresh β}
    (first : ∀ a, x = .ok a → Among known (V a))
    (rest : ∀ a, Among known (V a) → Draws (next a) s known W) :
    Draws ((liftM x : ExceptT ε Fresh α) >>= next) s known W := by
  cases x with
  | error e => exact draws_throw e
  | ok a => exact rest a (first a rfl)

end

namespace Formula

theorem renamed_known {known : Var → Prop} {env : List (Var × Var)} {v : Var}
    (bound : ∀ p ∈ env, known p.2) (here : known v) : known (renamed env v) := by
  induction env with
  | nil => exact here
  | cons p env ih =>
      obtain ⟨first, rest⟩ := List.forall_mem_cons.mp bound
      unfold renamed
      split
      · exact first
      · exact ih rest

theorem renameIn_draws (known : Var → Prop) (env : List (Var × Var)) (f : Formula) (s : Supply)
    (bound : ∀ p ∈ env, known p.2) (among : Among known f.vars) :
    s.next ≤ (f.renameIn env s).2.next ∧
      Among (Extended known s (f.renameIn env s).2) (f.renameIn env s).1.vars := by
  induction f generalizing known env s with
  | holds a b | identical a b =>
      obtain ⟨first, second⟩ := by simpa using among
      have pair : Among known [renamed env a, renamed env b] := by
        simp [renamed_known bound first, renamed_known bound second]
      exact ⟨Nat.le_refl _, pair.extended⟩
  | unit value => exact ⟨Nat.le_refl _, among_nil _⟩
  | not f ih | always f ih => exact ih known env s bound among
  | conj k l r left right =>
      obtain ⟨first, second⟩ := among_append.mp among
      obtain ⟨later, among'⟩ := left known env s bound first
      obtain ⟨later', among''⟩ := right (Extended known s (l.renameIn env s).2) env
        (l.renameIn env s).2 (fun p member => .inl (bound p member)) second.extended
      refine ⟨Nat.le_trans later later', among_append.mpr ⟨?_, ?_⟩⟩
      · exact among'.mono fun v extended => Extended.step later (.inl extended) later'
      · exact among''.mono fun v extended => extended.step later later'
  | quant q v f ih =>
      obtain ⟨_, inside⟩ := among_cons.mp among
      have drawn : Extended known s ⟨s.next + 1⟩ ⟨s.next⟩ :=
        .inr ⟨Nat.le_refl _, Nat.lt_succ_self _⟩
      obtain ⟨later, among'⟩ := ih (Extended known s ⟨s.next + 1⟩) ((v, ⟨s.next⟩) :: env)
        ⟨s.next + 1⟩ (List.forall_mem_cons.mpr ⟨drawn, fun p member => .inl (bound p member)⟩)
        inside.extended
      have first : s.next ≤ s.next + 1 := Nat.le_succ _
      refine ⟨Nat.le_trans first later, among_cons.mpr ⟨?_, ?_⟩⟩
      · exact Extended.step first (.inl drawn) later
      · exact among'.mono fun v extended => extended.step first later

theorem draws_rename {ε : Type} {known : Var → Prop} (f : Formula) (s : Supply)
    (among : Among known f.vars) : Draws (liftM f.rename : ExceptT ε Fresh Formula) s known vars :=
  have ⟨later, among'⟩ := renameIn_draws known [] f s (by simp) among
  draws_state later among'

end Formula

theorem Arrow.draws_copy {ε : Type} {known : Var → Prop} (a : Formula) (s : Supply)
    (among : Among known a.vars) :
    Draws (liftM (Arrow.copy a) : ExceptT ε Fresh Arrow) s known Arrow.vars := by
  obtain ⟨later, renamed⟩ := Formula.renameIn_draws known [] a s (by simp) among
  exact draws_state later (among_append.mpr ⟨among.extended, renamed⟩)

namespace Layer

variable {known : Var → Prop}

theorem exchange_among {l b x : Formula} {f : Arrow} (result : exchange l b x = .ok f)
    (other : Among known l.vars) (side : Among known b.vars) (content : Among known x.vars) :
    Among known f.vars :=
  among_joinAll result (by simp [other, side, content])

theorem importAlways_among {b x b' x' : Formula} {f : Arrow}
    (result : importAlways b x b' x' = .ok f) (side : Among known b.vars)
    (content : Among known x.vars) (side' : Among known b'.vars) (content' : Among known x'.vars) :
    Among known f.vars := by
  obtain ⟨copied, copy, result⟩ := bind_eq_ok.mp result
  obtain ⟨keepSide, kept, result⟩ := bind_eq_ok.mp result
  obtain ⟨keepContent, kept', result⟩ := bind_eq_ok.mp result
  obtain ⟨_, rfl⟩ := (checked_eq_ok_iff _ copied).mp (mapError_eq_ok.mp copy)
  have first : Among known keepSide.vars := among_joinAll kept (by simp [side', content'])
  have second : Among known keepContent.vars := among_joinAll kept' (by simp [side, content])
  exact among_joinAll result (by simp [side, content, side', content', first, second])

theorem pushAt_among {invertible : Bool} {l : Layer} {b x : Formula} {f : Arrow}
    (result : l.pushAt invertible b x = .ok f) (around : Among known l.vars)
    (side : Among known b.vars) (content : Among known x.vars) : Among known f.vars := by
  revert result
  fun_cases Layer.pushAt invertible l b x <;> intro result
  · rename_i b₀ exponential
    have shape : b = .always b₀ := by cases b <;> cases exponential; rfl
    subst shape
    have inner : Among known b₀.vars := side
    exact among_joinAll result (by simp [inner, content])
  · cases result
  · obtain ⟨_, _, result⟩ := bind_eq_ok.mp result
    obtain ⟨_, rfl⟩ := (checked_eq_ok_iff _ f).mp (mapError_eq_ok.mp result)
    simpa [Layer.vars, side, content] using around
  · cases result
    simpa [Layer.vars, side, content] using around
  · exact exchange_among result side around content
  all_goals cases result

theorem exportAt_among {l : Layer} {b x : Formula} {f : Arrow} (result : l.exportAt b x = .ok f)
    (side : Among known b.vars) (content : Among known x.vars) : Among known f.vars := by
  cases l with
  | not => exact among_joinAll result (by simp [side, content])
  | always | quant q v | conj k hole other => cases result

theorem draws_importAt (l : Layer) (b x : Formula) (s : Supply) (around : Among known l.vars)
    (side : Among known b.vars) (content : Among known x.vars) :
    Draws (l.importAt b x) s known Arrow.vars := by
  fun_cases Layer.importAt l b x
  · refine draws_bind (b.draws_rename s side) ?_
    intro b' t side'
    refine draws_bind (x.draws_rename t content.extended) ?_
    intro x' u content'
    refine draws_except (fun f result => ?_)
    exact importAlways_among result side.extended.extended content.extended.extended
      side'.extended content'
  · exact draws_throw _
  · refine draws_bind_except (V := fun _ => []) (by simp) (fun _ _ => ?_)
    refine draws_except (fun f result => ?_)
    obtain ⟨_, rfl⟩ := (checked_eq_ok_iff _ f).mp (mapError_eq_ok.mp result)
    simpa [Layer.vars, side, content] using around
  · exact draws_pure (by simpa [Layer.vars, side, content] using around)
  · exact draws_except (fun f result => exchange_among result around side content)
  all_goals exact draws_throw _

end Layer

namespace Context

variable {known : Var → Prop}

theorem among_bridge {inner outer inner' outer' : Context}
    (found : bridge? inner outer = some (outer', inner')) :
    Among known (comp inner outer).vars ↔ Among known outer'.vars ∧ Among known inner'.vars := by
  obtain ⟨around, inside⟩ := layers_of_bridge? found
  rw [among_comp]
  simp [vars, around, inside, Layer.vars]

theorem draws_importAt (c : Context) (b x : Formula) (s : Supply) (around : Among known c.vars)
    (side : Among known b.vars) (content : Among known x.vars) :
    Draws (c.importAt b x) s known Arrow.vars := by
  fun_induction importAt c b x generalizing s known with
  | case1 => exact draws_pure (by simp [side, content])
  | case2 x l => exact l.draws_importAt b x s (by simpa [vars, layers] using around) side content
  | case3 x inner outer _ _ first second =>
      obtain ⟨outside, within⟩ := among_comp.mp around
      refine draws_bind (first s within side content) ?_
      intro f t among
      have filled := among_fill.mpr ⟨within, content⟩
      refine draws_bind (second t outside.extended side.extended filled.extended) ?_
      intro g u among'
      refine draws_except (fun h result => among_joinAll result ?_)
      simp [outside.extended.extended, among.extended, among']
  | case4 x inner outer _ _ outer' inner' found ih =>
      obtain ⟨outside, within⟩ := (among_bridge found).mp around
      refine draws_bind (ih s (among_compose.mpr ⟨outside, within⟩) side content) ?_
      intro f t among
      refine draws_except (fun h result => among_joinAll result ?_)
      simp [outside.extended, within.extended, side.extended, content.extended, among]
  | case5 | case6 => exact draws_throw _

theorem pushAt_exportAt_among (b : Formula) (side : Among known b.vars) :
    (∀ invertible (c : Context) x f, c.pushAt invertible b x = .ok f →
        Among known c.vars → Among known x.vars → Among known f.vars) ∧
      ∀ (c : Context) x f, c.exportAt b x = .ok f →
        Among known c.vars → Among known x.vars → Among known f.vars := by
  apply pushAt_exportAt_success b
  case atHole =>
      intro _ x _ content
      simp [side, content]
  case atLayer =>
      intro invertible l x f result around content
      exact Layer.pushAt_among result (by simpa [vars, layers] using around) side content
  case exportLayer =>
      intro l x f result around content
      exact Layer.exportAt_among result side content
  case bridged =>
      intro _ _ _ _ _ x f h _ _ found through joined around content
      obtain ⟨outside, within⟩ := (among_bridge found).mp around
      have among := through (among_compose.mpr ⟨outside, within⟩) content
      exact among_joinAll joined (by simp [outside, within, side, content, among])
  case covariant =>
      intro _ _ _ x f g h _ _ outer inner joined around content
      obtain ⟨outside, within⟩ := among_comp.mp around
      have first := outer outside (among_fill.mpr ⟨within, content⟩)
      have second := inner within content
      exact among_joinAll joined (by simp [outside, first, second])
  case exportInner =>
      intro _ _ x f g h _ _ outer inner joined around content
      obtain ⟨outside, within⟩ := among_comp.mp around
      have first := outer outside (by simp [within, side, content])
      have second := inner within content
      exact among_joinAll joined (by simp [outside, first, second])
  case twice =>
      intro _ _ x f g h _ _ _ inner outer joined around content
      obtain ⟨outside, within⟩ := among_comp.mp around
      have first := inner within content
      have second := outer outside (by simp [within, side, content])
      exact among_joinAll joined (by simp [outside, first, second, side])
  case exportOuter =>
      intro _ _ x f g h _ _ inner outer joined around content
      obtain ⟨outside, within⟩ := among_comp.mp around
      have first := inner within content
      have second := outer outside (among_fill.mpr ⟨within, content⟩)
      exact among_joinAll joined (by simp [outside, first, second, side])

theorem pushAt_among {invertible : Bool} {c : Context} {b x : Formula} {f : Arrow}
    (result : c.pushAt invertible b x = .ok f) (around : Among known c.vars)
    (side : Among known b.vars) (content : Among known x.vars) : Among known f.vars :=
  (pushAt_exportAt_among b side).1 invertible c x f result around content

theorem exportAt_among {c : Context} {b x : Formula} {f : Arrow} (result : c.exportAt b x = .ok f)
    (around : Among known c.vars) (side : Among known b.vars) (content : Among known x.vars) :
    Among known f.vars :=
  (pushAt_exportAt_among b side).2 c x f result around content

theorem probe_run (s : Supply) :
    probe s = (.holds ⟨s.next⟩ ⟨s.next + 1⟩, ⟨s.next + 2⟩) := rfl

theorem draws_probe {ε : Type} (s : Supply) :
    Draws (liftM probe : ExceptT ε Fresh Formula) s known Formula.vars := by
  refine draws_state (Nat.le_add_right s.next 2) ?_
  rw [probe_run]
  simp [Extended]

end Context

namespace Transformation

variable {known : Var → Prop}

theorem draws_arrowAt (t : Transformation) (x : Formula) (s : Supply) (among : Among known t.vars)
    (content : Among known x.vars) : Draws (t.arrowAt x) s known Arrow.vars := by
  cases t with
  | importing c b =>
      obtain ⟨around, side⟩ := among_append.mp among
      exact c.draws_importAt b x s around side content
  | lifting c b =>
      obtain ⟨around, side⟩ := among_append.mp among
      exact draws_except (fun f result => Context.pushAt_among result around side content)
  | exporting c b =>
      obtain ⟨around, side⟩ := among_append.mp among
      exact draws_except (fun f result => Context.exportAt_among result around side content)
  | extract outer b hole inner =>
      obtain ⟨around, side, within⟩ := by simpa [vars] using among
      have filled := Context.among_fill.mpr ⟨within, content⟩
      refine draws_bind (outer.draws_importAt b (inner.fill x) s around side filled) ?_
      intro pulled u pulledAmong
      cases hole with
      | right => exact draws_pure pulledAmong
      | left =>
          refine draws_except (fun f result => among_joinAll result ?_)
          simp [around.extended, side.extended, within.extended, content.extended, pulledAmong]
  | insert outer b hole inner =>
      obtain ⟨around, side, within⟩ := by simpa [vars] using among
      refine draws_bind_except (V := Arrow.vars)
        (fun f result => Context.pushAt_among result within side content) ?_
      intro pushed pushedAmong
      cases hole with
      | right => exact draws_pure (by simp [around, pushedAmong])
      | left =>
          refine draws_bind_except (V := Arrow.vars)
            (fun f result => among_joinAll result ?_) ?_
          · simp [within, content, side, pushedAmong]
          · intro placed placedAmong
            exact draws_pure (by simp [around, placedAmong])

theorem draws_probed (t : Transformation) (expected : Except TransportError Unit) (s : Supply)
    (among : Among known t.vars) :
    Draws (do
      expected
      let x ← Context.probe
      let _ ← t.arrowAt x
      return t : ExceptT TransportError Fresh Transformation) s known vars := by
  refine draws_bind_except (V := fun _ => []) (by simp) (fun _ _ => ?_)
  refine draws_bind (Context.draws_probe s) ?_
  intro x u content
  refine draws_bind (t.draws_arrowAt x u among.extended content) ?_
  intro _ w _
  exact draws_pure among.extended.extended

end Transformation

namespace TwoHole

variable {known : Var → Prop}

theorem among_mapArrows {h : TwoHole} {f g : Arrow} (around : Among known h.vars)
    (first : Among known f.vars) (second : Among known g.vars) :
    Among known (h.mapArrows f g).vars := by
  induction h with
  | conj k l r =>
      obtain ⟨left, right⟩ := among_append.mp around
      simp [mapArrows, left, right, first, second]
  | comp inner outer ih =>
      obtain ⟨within, outside⟩ := among_append.mp around
      simp [mapArrows, outside, ih within]

section

variable {l r : Context} {b x y : Formula}

theorem draws_import_push (s : Supply) (left : Among known l.vars) (right : Among known r.vars)
    (side : Among known b.vars) (first : Among known x.vars) (second : Among known y.vars)
    {join : Arrow → Arrow → Except TransportError Arrow}
    (joined : ∀ (known' : Var → Prop) f g h, (∀ v, known v → known' v) → Among known' f.vars →
      Among known' g.vars → join f g = .ok h → Among known' h.vars) :
    Draws (do
      let pulled ← l.importAt b x
      let pushed ← r.pushAt false b y
      join pulled pushed : ExceptT TransportError Fresh Arrow) s known Arrow.vars := by
  refine draws_bind (l.draws_importAt b x s left side first) ?_
  intro pulled t pulledAmong
  refine draws_bind_except (V := Arrow.vars) (fun f result =>
    Context.pushAt_among result right.extended side.extended second.extended) ?_
  intro pushed pushedAmong
  exact draws_except (fun h result =>
    joined _ pulled pushed h (fun _ => .inl) pulledAmong pushedAmong result)

theorem draws_moveRight (s : Supply) (left : Among known l.vars) (right : Among known r.vars)
    (side : Among known b.vars) (first : Among known x.vars) (second : Among known y.vars) :
    Draws (moveRight l r b x y) s known Arrow.vars := by
  apply draws_import_push s left right side first second
  intro known' pulled pushed f more pulledAmong pushedAmong result
  refine among_joinAll result ?_
  simp [left.mono more, right.mono more, side.mono more, first.mono more, second.mono more,
    pulledAmong, pushedAmong]

theorem draws_moveLeft (s : Supply) (left : Among known l.vars) (right : Among known r.vars)
    (side : Among known b.vars) (first : Among known x.vars) (second : Among known y.vars) :
    Draws (moveLeft l r b x y) s known Arrow.vars := by
  apply draws_import_push s right left side second first
  intro known' pulled pushed f more pulledAmong pushedAmong result
  refine among_joinAll result ?_
  simp [left.mono more, right.mono more, side.mono more, first.mono more, second.mono more,
    pulledAmong, pushedAmong]

theorem draws_duplicateRight {b₀ : Formula} (s : Supply) (left : Among known l.vars)
    (right : Among known r.vars) (side : Among known b₀.vars) (first : Among known x.vars)
    (second : Among known y.vars) : Draws (duplicateRight l r b₀ x y) s known Arrow.vars := by
  refine draws_bind (b₀.draws_rename s side) ?_
  intro b₀' t copied
  have side' : Among (Extended known s t) (Formula.always b₀).vars := side.extended
  refine draws_bind (l.draws_importAt (.always b₀) x t left.extended side' first.extended) ?_
  intro pulled u pulledAmong
  have twice {vs : List Var} (among : Among known vs) :
      Among (Extended (Extended known s t) t u) vs := among.extended.extended
  have copied' : Among (Extended (Extended known s t) t u) (Formula.always b₀').vars :=
    copied.extended
  refine draws_bind_except (V := Arrow.vars) (fun f result =>
    Context.pushAt_among result (twice left) side'.extended (twice first)) ?_
  intro restored restoredAmong
  refine draws_bind_except (V := Arrow.vars) (fun f result =>
    Context.pushAt_among result (twice right) copied' (twice second)) ?_
  intro pushed pushedAmong
  refine draws_except (fun f result => among_joinAll result ?_)
  simp [twice left, twice right, twice first, twice second, twice side, copied.extended,
    pulledAmong, restoredAmong, pushedAmong]

end

theorem draws_transport (h : TwoHole) (b : Formula) (d : Heading) (x y : Formula) (s : Supply)
    (around : Among known h.vars) (side : Among known b.vars) (first : Among known x.vars)
    (second : Among known y.vars) : Draws (h.transport b d x y) s known Arrow.vars := by
  induction h generalizing d s with
  | conj k l r =>
      obtain ⟨left, right⟩ := among_append.mp around
      cases k with
      | or => exact draws_throw _
      | and =>
          refine draws_bind_except (V := fun _ => []) (by simp) (fun _ _ => ?_)
          cases d with
          | rightward => exact draws_moveRight s left right side first second
          | leftward => exact draws_moveLeft s left right side first second
  | comp inner outer ih =>
      obtain ⟨within, outside⟩ := among_append.mp around
      refine draws_bind (ih (d.under outer.variance) s within) ?_
      intro f t among
      exact draws_pure (by simp [outside.extended, among])

theorem draws_transportDuplicating (h : TwoHole) (b x y : Formula) (s : Supply)
    (around : Among known h.vars) (side : Among known b.vars) (first : Among known x.vars)
    (second : Among known y.vars) : Draws (h.transportDuplicating b x y) s known Arrow.vars := by
  cases b with
  | always b₀ =>
      have inside : Among known b₀.vars := side
      induction h generalizing s with
      | conj k l r =>
          obtain ⟨left, right⟩ := among_append.mp around
          cases k with
          | or => exact draws_throw _
          | and =>
              refine draws_bind_except (V := fun _ => []) (by simp) (fun _ _ => ?_)
              exact draws_duplicateRight s left right inside first second
      | comp inner outer ih =>
          obtain ⟨within, outside⟩ := among_append.mp around
          rw [transportDuplicating]
          simp only [Formula.always?]
          split
          · refine draws_bind (ih s within) ?_
            intro f t among
            exact draws_pure (by simp [outside.extended, among])
          · refine draws_bind_except (V := Arrow.vars) (fun f result => among_joinAll result ?_) ?_
            · simp [inside, second]
            · intro discard among
              have kept : Among known (Arrow.identity (and (.always b₀) x)).vars := by
                simp [inside, first]
              exact draws_pure (Context.among_mapArrow.mpr
                ⟨outside, among_mapArrows within kept among⟩)
          · exact draws_throw _
  | holds _ _ | identical _ _ | unit _ | not _ | conj _ _ _ | quant _ _ _ =>
      rw [transportDuplicating.eq_def]
      exact draws_throw _

end TwoHole

end LinearCalculus
