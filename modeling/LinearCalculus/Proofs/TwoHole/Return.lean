import LinearCalculus.Proofs.Context.Cancellation
import LinearCalculus.Proofs.TwoHole.Transport

/-! Moves between two holes that undo each other.

Where a formula can be lifted into both sides of the core, it can be moved in both directions.
What one move pulls out of a side, the other move pushes into it, and a push undoes a pull even
where it would be free to do more. The steps between are undone one by one, and the contexts
around the core carry both moves to the outside, a contravariant one in exchanged roles. -/

namespace LinearCalculus

open Formula (and)

namespace Arrow

structure Roundtrip (f g : Arrow) (a b : Formula) : Prop where
  typed : f.WellTyped
  leads : f.Leads a b
  undone : UndoneBy f g

namespace Roundtrip

variable {f g : Arrow} {a b : Formula}

theorem symm (trip : Roundtrip f g a b) : Roundtrip g f b a :=
  ⟨trip.undone.wellTyped, trip.undone.leads trip.leads, trip.undone.symm⟩

theorem mapArrow (trip : Roundtrip f g a b) {c : Context} (covariant : c.variance = .covariant) :
    Roundtrip (c.mapArrow f) (c.mapArrow g) (c.fill a) (c.fill b) :=
  ⟨(c.mapArrow_wellTyped f).mpr trip.typed, Context.leads_mapArrow covariant trip.leads,
    trip.undone.context c⟩

theorem mapArrow_back (trip : Roundtrip f g a b) {c : Context}
    (contravariant : c.variance = .contravariant) :
    Roundtrip (c.mapArrow g) (c.mapArrow f) (c.fill a) (c.fill b) :=
  ⟨(c.mapArrow_wellTyped g).mpr trip.undone.wellTyped,
    Context.leads_mapArrow_back contravariant trip.symm.leads, trip.undone.symm.context c⟩

theorem compress_identity (trip : Roundtrip f g a b) :
    ∃ h c, f.compose g = .ok h ∧ Congruent h (identity c) ∧ h.compress = identity c ∧
      c.alphaEq a :=
  (trip.undone.cancel trip.typed).1.compose_identity trip.leads.source

end Roundtrip

end Arrow

open Arrow

namespace Context

theorem pushAt_of_lifted (c : Context) (b x : Formula) (f : Arrow)
    (lifted : c.pushAt true b x = .ok f) : c.pushAt false b x = .ok f := by
  refine (@pushAt_exportAt_success b
    (fun invertible c x f => invertible = true → c.pushAt false b x = .ok f)
    (fun _ _ _ => True) ?atHole ?atLayer ?covariant ?bridged ?twice
    ?exportLayer ?exportInner ?exportOuter).1 true c x f lifted rfl
  case atHole =>
      intro _ x _
      rw [pushAt]
  case atLayer =>
      intro invertible l x f pushed strict
      subst strict
      have other : l ≠ .always := by
        intro exponential
        subst exponential
        cases pushed
      rw [pushAt, ← Layer.pushAt_invertible other]
      exact pushed
  case covariant =>
      intro _ inner outer x f g h within around outside inside joined strict
      rw [pushAt_covariant within around]
      exact bind_eq_ok.mpr ⟨f, outside strict, bind_eq_ok.mpr ⟨g, inside strict, joined⟩⟩
  case bridged =>
      intro _ inner outer inner' outer' x f h within around found through joined strict
      rw [pushAt_bridged within around found]
      exact bind_eq_ok.mpr ⟨f, through strict, joined⟩
  case twice =>
      intro inner outer x f g h within around missing _ _ joined strict
      cases strict
  all_goals intros; trivial

theorem roundtrip_of_lifted {c : Context} {b : Formula} (lifts : c.PushDefined true b)
    (x : Formula) (s : Supply) :
    ∃ pushed pulled, c.pushAt false b x = .ok pushed ∧
      (c.importAt b x).run s = (.ok pulled, s) ∧
      Roundtrip pushed pulled (and b (c.fill x)) (c.fill (and b x)) := by
  rcases lifts x with ⟨pushed, lifted, leads⟩
  rcases c.pushAt_undone b x pushed lifted s with ⟨pulled, t, imported, undone, same⟩
  subst same
  exact ⟨pushed, pulled, c.pushAt_of_lifted b x pushed lifted, imported,
    c.pushAt_wellTyped true b x pushed lifted, leads, undone⟩

end Context

namespace TwoHole

theorem run_pull_push {c d : Context} {b x y : Formula} {s : Supply} {f g h : Arrow}
    {join : Arrow → Arrow → Except TransportError Arrow}
    (pulled : (c.importAt b x).run s = (.ok f, s)) (pushed : d.pushAt false b y = .ok g)
    (joined : join f g = .ok h) :
    (do
      let pulled ← c.importAt b x
      let pushed ← d.pushAt false b y
      join pulled pushed : ExceptT TransportError Fresh Arrow).run s = (.ok h, s) := by
  rw [run_bind_of_ok pulled, pushed]
  change (liftM (join f g) : ExceptT TransportError Fresh Arrow).run s = _
  rw [joined]
  rfl

theorem moves_roundtrip {l r : Context} {b : Formula} (left : l.PushDefined true b)
    (right : r.PushDefined true b) (x y : Formula) (s s' : Supply) :
    ∃ f g, (moveRight l r b x y).run s = (.ok f, s) ∧
      (moveLeft l r b x y).run s' = (.ok g, s') ∧
      Roundtrip f g (and (l.fill (and b x)) (r.fill y)) (and (l.fill x) (r.fill (and b y))) := by
  rcases Context.roundtrip_of_lifted left x s with ⟨pushed, pulled, into, out, leftTrip⟩
  rcases Context.roundtrip_of_lifted right y s' with ⟨pushed', pulled', into', out', rightTrip⟩
  have forth := Linked.joinAll (leftTrip.symm.leads.onLeft .and (r.fill y))
    (.cons (f := onLeft .and (prim (.commute .and b (l.fill x))) (r.fill y)) (.of_eq rfl rfl)
      (.cons (f := prim (.associateA .and (l.fill x) b (r.fill y))) (.of_eq rfl rfl)
        (.cons (rightTrip.leads.onRight .and (l.fill x)) (.nil _))))
  have back := Linked.joinAll (rightTrip.symm.leads.onRight .and (l.fill x))
    (.cons (f := prim (.associateB .and (l.fill x) b (r.fill y))) (.of_eq rfl rfl)
      (.cons (f := onLeft .and (prim (.commute .and (l.fill x) b)) (r.fill y)) (.of_eq rfl rfl)
        (.cons (leftTrip.leads.onLeft .and (r.fill y)) (.nil _))))
  rcases forth with ⟨f, joined, leads⟩
  rcases back with ⟨g, joined', _⟩
  have typed : f.WellTyped := wellTyped_of_joinAll joined
    (by simp [WellTyped, Primitive.fault?, leftTrip.symm.typed, rightTrip.typed])
  refine ⟨f, g, run_pull_push out into' joined, run_pull_push out' into joined', typed, leads, ?_⟩
  have shape := joinAll_eq_foldl joined
  have shape' := joinAll_eq_foldl joined'
  subst shape shape'
  have swapped : UndoneBy (prim (.commute .and b (l.fill x))) (prim (.commute .and (l.fill x) b)) :=
    .of_inverse (.primitive rfl) rfl
  have regrouped : UndoneBy (prim (.associateA .and (l.fill x) b (r.fill y)))
      (prim (.associateB .and (l.fill x) b (r.fill y))) :=
    .of_inverse (.primitive rfl) rfl
  exact (leftTrip.undone.symm.layer (.conj .and .left (r.fill y))).comp_comp_comp
    (swapped.layer (.conj .and .left (r.fill y))) regrouped
    (rightTrip.undone.layer (.conj .and .right (l.fill x))) typed

theorem transport_comp_run {inner : TwoHole} {outer : Context} {b x y : Formula} {d : Heading}
    {s t : Supply} {f : Arrow}
    (moved : (inner.transport b (d.under outer.variance) x y).run s = (.ok f, t)) :
    ((comp inner outer).transport b d x y).run s = (.ok (outer.mapArrow f), t) :=
  run_bind_of_ok moved

theorem transports_roundtrip (h : TwoHole) {b : Formula} (x y : Formula) (s s' : Supply)
    (connective : h.core.connective = .and) (left : h.core.left.PushDefined true b)
    (right : h.core.right.PushDefined true b) :
    ∃ f g, (h.transport b .rightward x y).run s = (.ok f, s) ∧
      (h.transport b .leftward x y).run s' = (.ok g, s') ∧
      Roundtrip f g (h.fill (and b x) y) (h.fill x (and b y)) := by
  induction h generalizing s s' with
  | conj k l r =>
      cases k with
      | or => cases connective
      | and =>
          have covariant : expectCovariant l r b = .ok () := expectCovariant_eq_ok.mpr
            ⟨(Context.pushDefined_true_iff.mp left).covariant,
              (Context.pushDefined_true_iff.mp right).covariant⟩
          rcases moves_roundtrip left right x y s s' with ⟨f, g, forth, back, trip⟩
          refine ⟨f, g, ?_, ?_, trip⟩
          · rw [transport, covariant]
            exact forth
          · rw [transport, covariant]
            exact back
  | comp inner outer ih =>
      cases known : outer.variance with
      | covariant =>
          rcases ih s s' connective left right with ⟨f, g, forth, back, trip⟩
          refine ⟨_, _, transport_comp_run ?_, transport_comp_run ?_, trip.mapArrow known⟩
          · rw [known]
            exact forth
          · rw [known]
            exact back
      | contravariant =>
          rcases ih s' s connective left right with ⟨f, g, forth, back, trip⟩
          refine ⟨_, _, transport_comp_run ?_, transport_comp_run ?_, trip.mapArrow_back known⟩
          · rw [known]
            exact back
          · rw [known]
            exact forth

/-- Where a formula can be lifted into both sides of a conjunction, it can be moved there and
back, and in either order the two moves cancel by the laws and compress to an identity. -/
theorem transport_cancels (h : TwoHole) (b x y : Formula) (s s' t t' : Supply)
    (connective : h.core.connective = .and)
    (left : ∃ k u, (h.core.left.liftSide b).run t = (.ok k, u))
    (right : ∃ k u, (h.core.right.liftSide b).run t' = (.ok k, u)) :
    ∃ f g, (h.transport b .rightward x y).run s = (.ok f, s) ∧
      (h.transport b .leftward x y).run s' = (.ok g, s') ∧
      (∃ forth a, f.compose g = .ok forth ∧ Congruent forth (identity a) ∧
        forth.compress = identity a ∧ a.alphaEq (h.fill (and b x) y)) ∧
      ∃ back a, g.compose f = .ok back ∧ Congruent back (identity a) ∧
        back.compress = identity a ∧ a.alphaEq (h.fill x (and b y)) := by
  rw [Context.liftSide_succeeds_iff, ← Context.pushDefined_true_iff] at left right
  rcases h.transports_roundtrip x y s s' connective left right with ⟨f, g, forth, back, trip⟩
  exact ⟨f, g, forth, back, trip.compress_identity, trip.symm.compress_identity⟩

/-- Between a hole below a quantifier and one below a double negation, and all of it denied. -/
theorem denied_transport_cancels :
    let o : Formula := .holds ⟨0⟩ ⟨0⟩
    let b : Formula := .quant .all ⟨1⟩ (.holds ⟨1⟩ ⟨0⟩)
    let bound : Context := .comp (.layer (.conj .and .right o)) (.layer (.quant .ex ⟨2⟩))
    let doubled : Context := .comp (.layer .not) (.layer .not)
    let h : TwoHole := .comp (.conj .and bound doubled) (.layer .not)
    (∃ k u, (bound.liftSide b).run ⟨3⟩ = (.ok k, u)) ∧
      (∃ k u, (doubled.liftSide b).run ⟨3⟩ = (.ok k, u)) ∧
      ∃ f g, (h.transport b .rightward o o).run ⟨3⟩ = (.ok f, ⟨3⟩) ∧
        (h.transport b .leftward o o).run ⟨3⟩ = (.ok g, ⟨3⟩) ∧
        (∃ forth a, f.compose g = .ok forth ∧ Congruent forth (identity a) ∧
          forth.compress = identity a ∧ a.alphaEq (h.fill (and b o) o)) ∧
        ∃ back a, g.compose f = .ok back ∧ Congruent back (identity a) ∧
          back.compress = identity a ∧ a.alphaEq (h.fill o (and b o)) := by
  intro o b bound doubled h
  have open' : ∀ l ∈ bound.layers ++ doubled.layers, l ≠ .always ∧ l.Passes b := by decide
  rcases List.forall_mem_append.mp open' with ⟨admitted, admitted'⟩
  have left := (bound.liftSide_succeeds_iff b ⟨3⟩).mpr ⟨admitted, by decide⟩
  have right := (doubled.liftSide_succeeds_iff b ⟨3⟩).mpr ⟨admitted', by decide⟩
  exact ⟨left, right, transport_cancels h b o o ⟨3⟩ ⟨3⟩ ⟨3⟩ ⟨3⟩ rfl left right⟩

end TwoHole

end LinearCalculus
