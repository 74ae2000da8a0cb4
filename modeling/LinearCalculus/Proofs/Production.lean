import LinearCalculus.Proofs.Arrow.Inscription
import LinearCalculus.Proofs.Arrow.Moves
import LinearCalculus.Proofs.Surface.Typing
import Mathlib.Logic.Relation

/-! Every arrow that can be produced is well-typed.

A session holds the arrows that have been produced so far, with the endpoints that have been
written down at their nodes. Each operation of the library is a call that takes some of them, and
a run is any sequence of calls. Building an arrow of a run again, node by node, succeeds and gives
back the arrow with the endpoints that are written there. -/

namespace LinearCalculus

open Arrow

theorem Move.gives_applyTo (m : Move) (f : Formula) (s : Supply) (below : f.Below s) :
    Gives (m.applyTo f) s (fun g _ => g.WellTyped) := by
  refine gives_mono (m.gives_rule f s (fun _ => below)) ?_
  rintro g t ⟨p, _, _, typed, _⟩
  exact typed

inductive Call where
  | build (f : Arrow)
  | decode (form : Form) (levels : Nat) (j : Json)
  | move (m : Move) (a : Formula)
  | copy (a : Formula)
  | compose (f g : Arrow)
  | reverse (f : Arrow)
  | compress (f : Arrow)
  | fill (c : Context) (f : Arrow)
  | fillBoth (h : TwoHole) (f g : Arrow)
  | transform (t : Transformation) (x : Formula)
  | transport (h : TwoHole) (b : Formula) (d : Heading) (x y : Formula)
  | duplicate (h : TwoHole) (b x y : Formula)
  | expand (m : Surface.Memo) (f : Surface.Arrow)

namespace Call

def run : Call → Fresh (Option Arrow)
  | build f => pure f.checked.toOption
  | decode form levels j => attempt (Decoder.checked (Decoder.arrow form levels j))
  | move m a => attempt (m.applyTo a)
  | copy a => some <$> Arrow.copy a
  | compose f g => pure (f.compose g).toOption
  | reverse f => pure f.reverse.toOption
  | compress f => pure (some f.compress)
  | fill c f => pure (some (c.mapArrow f))
  | fillBoth h f g => pure (some (h.mapArrows f g))
  | transform t x => attempt (t.arrowAt x)
  | transport h b d x y => attempt (h.transport b d x y)
  | duplicate h b x y => attempt (h.transportDuplicating b x y)
  | expand m f => pure (Surface.Memo.arrow f m).1.toOption

def arguments : Call → List Arrow
  | build f => f.parts
  | compose f g | fillBoth _ f g => [f, g]
  | reverse f | compress f | fill _ f => [f]
  | expand _ f => f.liftedArrows
  | _ => []

/-- The formulas whose binders an operation may rename. -/
def renamed : Call → List Formula
  | move _ a | copy a | duplicate _ a _ _ => [a]
  | _ => []

theorem run_wellTyped (c : Call) (s : Supply) (f : Arrow)
    (typed : ∀ g ∈ c.arguments, g.WellTyped) (below : ∀ a ∈ c.renamed, a.Below s)
    (result : (c.run s).1 = some f) : f.WellTyped := by
  cases c with
  | build g =>
      obtain ⟨clear, rfl⟩ := (checked_eq_ok_iff g f).mp (toOption_eq_some.mp result)
      exact (wellTyped_iff f).mpr ⟨typed, clear⟩
  | decode form levels j =>
      exact attempt_eq_some (Decoder.gives_checked ((Decoder.gives_arrow form levels).1 j s)) result
  | move m a => exact attempt_eq_some (m.gives_applyTo a s (below a List.mem_cons_self)) result
  | copy a =>
      cases result
      exact Arrow.copy_wellTyped a s (below a List.mem_cons_self)
  | compose g h =>
      have first := typed g (by simp [arguments])
      have second := typed h (by simp [arguments])
      exact wellTyped_of_compose (toOption_eq_some.mp result) first second
  | reverse g =>
      exact g.reverse_wellTyped f (typed g List.mem_cons_self) (toOption_eq_some.mp result)
  | compress g =>
      cases result
      exact g.compress_wellTyped (typed g List.mem_cons_self)
  | fill c g =>
      cases result
      exact (c.mapArrow_wellTyped g).mpr (typed g List.mem_cons_self)
  | fillBoth h g k =>
      cases result
      have first := typed g (by simp [arguments])
      have second := typed k (by simp [arguments])
      exact h.mapArrows_wellTyped g k first second
  | transform t x => exact attempt_eq_some (t.gives_arrowAt x s) result
  | transport h b d x y => exact attempt_eq_some (h.gives_transport b d x y s) result
  | duplicate h b x y =>
      have used := below b List.mem_cons_self
      exact attempt_eq_some (h.gives_transportDuplicating b x y s used) result
  | expand m g => exact attempt_eq_some (Surface.Memo.gives_arrow g typed m) result

end Call

structure Session where
  supply : Supply
  arrows : List Inscribed

namespace Session

inductive Step : Session → Session → Prop where
  /-- The arguments have been produced before, and the supply has passed their variables. What the
  call gives is inscribed by what is in hand. -/
  | call {s : Session} (c : Call) (inHand : ∀ f ∈ c.arguments, f ∈ s.arrows.map Inscribed.arrow)
      (below : ∀ a ∈ c.renamed, a.Below s.supply) (given : Option Inscribed)
      (result : given.map Inscribed.arrow = (c.run s.supply).1)
      (made : ∀ r ∈ given, r.Made s.arrows) :
      Step s ⟨(c.run s.supply).2, given.toList ++ s.arrows⟩
  | part {s : Session} {r n : Inscribed} (inHand : r ∈ s.arrows) (inside : n ∈ r.nodes) :
      Step s ⟨s.supply, n :: s.arrows⟩
  | advance {s : Session} {t : Supply} (later : s.supply.next ≤ t.next) : Step s ⟨t, s.arrows⟩

def perform (s : Session) (c : Call) : Session :=
  ⟨(c.run s.supply).2, ((c.run s.supply).1.map Arrow.inscribed).toList ++ s.arrows⟩

theorem Step.perform {s : Session} (c : Call)
    (inHand : ∀ f ∈ c.arguments, f ∈ s.arrows.map Inscribed.arrow)
    (below : ∀ a ∈ c.renamed, a.Below s.supply) : Step s (s.perform c) := by
  refine .call c inHand below _ ?_ ?_
  · cases (c.run s.supply).1 <;> simp
  · intro r member
    rcases Option.map_eq_some_iff.mp member with ⟨f, _, rfl⟩
    exact f.inscribed_made s.arrows

/-- All arrows are well-typed, and all endpoints written down at them are their own. -/
def Sound (s : Session) : Prop := ∀ r ∈ s.arrows, r.arrow.WellTyped ∧ r.Faithful

theorem Step.sound {s t : Session} (step : Step s t) (sound : s.Sound) : t.Sound := by
  cases step with
  | call c inHand below given result made =>
      intro r member
      rcases List.mem_append.mp member with new | old
      · have inputs : ∀ f ∈ c.arguments, f.WellTyped := by
          intro f argument
          rcases List.mem_map.mp (inHand f argument) with ⟨r, here, rfl⟩
          exact (sound r here).1
        have new := Option.mem_toList.mp new
        have output : (c.run s.supply).1 = some r.arrow := by
          rw [← result, new]
          rfl
        exact ⟨c.run_wellTyped s.supply r.arrow inputs below output,
          (made r new).faithful fun r here => (sound r here).2⟩
      · exact sound r old
  | part inHand inside =>
      intro n member
      rcases List.mem_cons.mp member with rfl | old
      · rcases sound _ inHand with ⟨typed, faithful⟩
        exact ⟨faithful.wellTyped_node typed inside, faithful.of_mem_nodes inside⟩
      · exact sound n old
  | advance later => exact sound

theorem run_sound {s t : Session} (run : Relation.ReflTransGen Step s t)
    (start : s.arrows = []) : t.Sound := by
  induction run with
  | refl =>
      intro r member
      rw [start] at member
      cases member
  | tail _ step ih => exact step.sound ih

/-- Whatever a run produces can be built again from its leaves with all checks: the result is
the same arrow, at every node the endpoints written down there are the ones computed again, and
what is composed fits. -/
theorem produced_rebuilt {s t : Session} (run : Relation.ReflTransGen Step s t)
    (start : s.arrows = []) (r : Inscribed) (inHand : r ∈ t.arrows) :
    r.arrow.rebuild = .ok r.arrow ∧ r = r.arrow.inscribed ∧
      r.nodes.map Inscribed.arrow = r.arrow.nodes ∧
      ∀ n ∈ r.nodes, n.arrow.rebuild = .ok n.arrow ∧
        n.ends.source = n.arrow.source ∧ n.ends.target = n.arrow.target ∧
        (∀ f g e, n = .composite f g e → f.ends.target.alphaEq g.ends.source) ∧
        ∀ f g, n.arrow = composite f g → f.target.alphaEq g.source := by
  rcases run_sound run start r inHand with ⟨typed, faithful⟩
  refine ⟨(rebuild_eq_ok_iff _ _).mpr ⟨typed, rfl⟩, faithful, faithful.arrow_nodes, ?_⟩
  intro n inside
  have nodeTyped := faithful.wellTyped_node typed inside
  have ends := (faithful.of_mem_nodes inside).ends
  have fits (f g : Arrow) (composed : n.arrow = composite f g) : f.target.alphaEq g.source := by
    rw [composed] at nodeTyped
    exact (composite_wellTyped.mp nodeTyped).2.2
  refine ⟨(rebuild_eq_ok_iff _ _).mpr ⟨nodeTyped, rfl⟩, congrArg Ends.source ends,
    congrArg Ends.target ends, ?_, fits⟩
  rintro f g e rfl
  rcases Inscribed.composite.inj (faithful.of_mem_nodes inside) with ⟨first, second, _⟩
  rw [Inscribed.Faithful.ends first, Inscribed.Faithful.ends second]
  exact fits _ _ rfl

/-- A copy is made, its halves are exchanged by a reversed rule, which gets the endpoints of the
rule, and the composite is compressed. -/
theorem copied_rebuilt :
    let a : Formula := .quant .all ⟨0⟩ (.holds ⟨0⟩ ⟨1⟩)
    let a' : Formula := .quant .all ⟨2⟩ (.holds ⟨2⟩ ⟨1⟩)
    let copied := prim (.copy a a')
    let swapped := prim (.commute .and (.always a) (.always a'))
    let back := prim (.commute .and (.always a') (.always a))
    let both := composite copied back
    let reversed : Inscribed := .prim (.commute .and (.always a') (.always a)) swapped.ends.exchanged
    let s : Session := ⟨⟨2⟩, []⟩
    let t := (s.perform (.move .copy (.always a))).perform (.build swapped)
    let u : Session := ⟨t.supply, reversed :: t.arrows⟩
    let w := (u.perform (.compose copied back)).perform (.compress both)
    w.arrows.map Inscribed.arrow = [both, both, back, swapped, copied] ∧
      reversed = back.inscribed ∧ both.rebuild = .ok both := by
  intro a a' copied swapped back both reversed s t u w
  have reversing : Step t u := by
    refine .call (.reverse swapped) (by decide) nofun (some reversed) rfl ?_
    rintro r ⟨⟩
    have kept : swapped.inscribed.Made t.arrows :=
      .kept (r := swapped.inscribed) (by decide) List.mem_cons_self
    exact .exchanged rfl kept
  have run : Relation.ReflTransGen Step s w := by
    refine .tail (.tail (.tail (.tail (.single (.perform _ ?_ ?_)) (.perform _ ?_ ?_)) reversing)
      (.perform _ ?_ ?_)) (.perform _ ?_ ?_)
    all_goals decide
  have again := produced_rebuilt run rfl both.inscribed (by decide)
  have exchanged := produced_rebuilt run rfl reversed (by decide)
  exact ⟨by decide, exchanged.2.1, again.1⟩

end Session

end LinearCalculus
