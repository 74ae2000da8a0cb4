import LinearCalculus.Proofs.Context.Crossing
import LinearCalculus.Proofs.TwoHole.Filling

/-! Where a formula can be moved between two holes.

A move takes place at the core, in the direction that is left of the heading when every
contravariant context around the core has turned it around. There the formula is pulled out of
the one side and pushed into the other, and the contexts carry the arrow to the outside. -/

namespace LinearCalculus

open Formula (and)
open Arrow

namespace Heading

/-- What a move starts from, of what lies on the left and on the right. -/
def origin {α : Type} (d : Heading) (left right : α) : α :=
  match d with
  | rightward => left
  | leftward => right

def destination {α : Type} (d : Heading) (left right : α) : α :=
  match d with
  | rightward => right
  | leftward => left

/-- The heading inside of contexts, turned around once for every contravariant one. -/
def inside (d : Heading) (outers : List Context) : Heading :=
  Nat.repeat flip (outers.countP (·.variance = .contravariant)) d

theorem inside_cons (d : Heading) (c : Context) (cs : List Context) :
    d.inside (c :: cs) = (d.under c.variance).inside cs := by
  have inner (n : Nat) : Nat.repeat flip (n + 1) d = Nat.repeat flip n d.flip := by
    induction n with
    | zero => rfl
    | succ n ih => exact congrArg flip ih
  cases known : c.variance with
  | covariant => simp [inside, known, under]
  | contravariant => simp [inside, known, under, inner]

theorem leads_mapArrow (d : Heading) {c : Context} {f : Arrow} {l r : Formula}
    (leads : f.Leads ((d.under c.variance).origin l r) ((d.under c.variance).destination l r)) :
    (c.mapArrow f).Leads (d.origin (c.fill l) (c.fill r)) (d.destination (c.fill l) (c.fill r)) := by
  cases known : c.variance with
  | covariant =>
      rw [known] at leads
      cases d <;> exact Context.leads_mapArrow known leads
  | contravariant =>
      rw [known] at leads
      cases d <;> exact Context.leads_mapArrow_back known leads

end Heading

theorem Context.PushDefined.yields {invertible : Bool} {c : Context} {b : Formula}
    (pushes : c.PushDefined invertible b) (x : Formula) (s : Supply) :
    Yields (liftM (c.pushAt invertible b x) : ExceptT TransportError Fresh Arrow) s
      (fun f _ => f.Leads (and b (c.fill x)) (c.fill (and b x))) := by
  apply yields_except
  exact pushes x

namespace TwoHole

structure Core.Moves (core : Core) (b : Formula) (d : Heading) : Prop where
  connective : core.connective = .and
  left : core.left.variance = .covariant
  right : core.right.variance = .covariant
  pulled : (d.origin core.left core.right).ImportDefined b
  pushed : (d.destination core.left core.right).PushDefined false b

theorem expectCovariant_eq_ok {l r : Context} {b : Formula} :
    expectCovariant l r b = .ok () ↔ l.variance = .covariant ∧ r.variance = .covariant := by
  unfold expectCovariant Context.isCovariant
  cases l.variance <;> cases r.variance <;> simp

section

variable {c d : Context} {b x y : Formula} {s : Supply}
  {join : Arrow → Arrow → Except TransportError Arrow}

theorem gives_pull_push :
    Gives (do
      let pulled ← c.importAt b x
      let pushed ← d.pushAt false b y
      join pulled pushed : ExceptT TransportError Fresh Arrow) s
      (fun _ _ => c.ImportDefined b ∧ d.PushDefined false b) := by
  refine gives_bind (c.gives_importDefined b x s) ?_
  intro pulled t pulls
  refine gives_bind_except ((Context.pushDefined_exportDefined b).1 false d y) ?_
  intro pushed pushes
  exact gives_except fun _ _ => ⟨pulls, pushes⟩

theorem yields_pull_push (pulls : c.ImportDefined b) (pushes : d.PushDefined false b)
    (around : c.Below s) (side : b.Below s) (content : x.Below s) {a a' : Formula}
    (joins : ∀ f g, f.Leads (c.fill (and b x)) (and b (c.fill x)) →
      g.Leads (and b (d.fill y)) (d.fill (and b y)) → ∃ h, join f g = .ok h ∧ h.Leads a a') :
    Yields (do
      let pulled ← c.importAt b x
      let pushed ← d.pushAt false b y
      join pulled pushed : ExceptT TransportError Fresh Arrow) s (fun h _ => h.Leads a a') := by
  apply yields_bind (pulls x s around side content)
  intro f t pulled
  apply yields_bind (pushes.yields y t)
  intro g u pushed
  exact yields_except (joins f g pulled.1 pushed)

end

section

variable {l r : Context} {b x y : Formula} {s : Supply}

theorem yields_moveRight (pulls : l.ImportDefined b) (pushes : r.PushDefined false b)
    (around : l.Below s) (side : b.Below s) (content : x.Below s) :
    Yields (moveRight l r b x y) s (fun f _ =>
      f.Leads (and (l.fill (and b x)) (r.fill y)) (and (l.fill x) (r.fill (and b y)))) := by
  apply yields_pull_push pulls pushes around side content
  intro f g pulled pushed
  exact Linked.joinAll (pulled.onLeft .and (r.fill y))
    (.cons (.of_eq rfl rfl) (.cons (.of_eq rfl rfl) (.cons (pushed.onRight .and (l.fill x)) (.nil _))))

theorem yields_moveLeft (pulls : r.ImportDefined b) (pushes : l.PushDefined false b)
    (around : r.Below s) (side : b.Below s) (content : y.Below s) :
    Yields (moveLeft l r b x y) s (fun f _ =>
      f.Leads (and (l.fill x) (r.fill (and b y))) (and (l.fill (and b x)) (r.fill y))) := by
  apply yields_pull_push pulls pushes around side content
  intro f g pulled pushed
  exact Linked.joinAll (pulled.onRight .and (l.fill x))
    (.cons (.of_eq rfl rfl) (.cons (.of_eq rfl rfl) (.cons (pushed.onLeft .and (r.fill y)) (.nil _))))

end

theorem gives_moves (h : TwoHole) (b : Formula) (d : Heading) (x y : Formula) (s : Supply) :
    Gives (h.transport b d x y) s (fun _ _ => h.core.Moves b (d.inside h.outers)) := by
  induction h generalizing d s with
  | conj k l r =>
      cases k with
      | or => exact gives_throw _ _ _
      | and =>
          refine gives_bind_except (fun _ done => expectCovariant_eq_ok.mp done) ?_
          intro _ covariant
          cases d with
          | rightward =>
              exact gives_mono gives_pull_push fun _ _ both =>
                ⟨rfl, covariant.1, covariant.2, both.1, both.2⟩
          | leftward =>
              exact gives_mono gives_pull_push fun _ _ both =>
                ⟨rfl, covariant.1, covariant.2, both.1, both.2⟩
  | comp inner outer ih =>
      rw [outers, Heading.inside_cons]
      refine gives_bind (ih (d.under outer.variance) s) ?_
      intro f t moves
      exact gives_pure moves

theorem yields_transport (h : TwoHole) {b : Formula} (d : Heading) {x y : Formula} {s : Supply}
    (around : h.Below s) (side : b.Below s) (first : x.Below s) (second : y.Below s)
    (moves : h.core.Moves b (d.inside h.outers)) :
    Yields (h.transport b d x y) s (fun f _ =>
      f.Leads (d.origin (h.fill (and b x) y) (h.fill x (and b y)))
        (d.destination (h.fill (and b x) y) (h.fill x (and b y)))) := by
  induction h generalizing d with
  | conj k l r =>
      cases k with
      | or => cases moves.connective
      | and =>
          have covariant := expectCovariant_eq_ok (b := b).mpr ⟨moves.left, moves.right⟩
          apply yields_bind (yields_except (P := fun _ t => t = s) ⟨(), covariant, rfl⟩)
          intro _ t same
          subst same
          cases d with
          | rightward => exact yields_moveRight moves.pulled moves.pushed around.1 side first
          | leftward => exact yields_moveLeft moves.pulled moves.pushed around.2 side second
  | comp inner outer ih =>
      rw [outers, Heading.inside_cons] at moves
      apply yields_bind (ih (d.under outer.variance) around.1 moves)
      intro f t leads
      exact yields_pure (d.leads_mapArrow leads)

/-- A formula can be moved exactly if the core is a conjunction of covariant contexts, the one
where the move starts lets it out and the one where the move leads lets it in. Which one that
is, the contravariant contexts around the core decide. Seen from outside, the move leads from
the formula with `b` at the origin of the heading to the one with `b` at its destination. -/
theorem transport_domain (h : TwoHole) (b : Formula) (d : Heading) (x y z : Formula)
    (s s' : Supply) (around : h.Below s) (side : b.Below s) (first : x.Below s)
    (second : y.Below s) (around' : h.Below s') (side' : b.Below s') :
    ((∃ f t, (h.transport b d x y).run s = (.ok f, t)) ↔
      h.core.connective = .and ∧ h.core.left.variance = .covariant ∧
        h.core.right.variance = .covariant ∧
        (∃ t u, (((d.inside h.outers).origin h.core.left h.core.right).importSide b).run s' =
          (.ok t, u)) ∧
        ∃ g, ((d.inside h.outers).destination h.core.left h.core.right).pushAt false b z =
          .ok g) ∧
      ∀ f t, (h.transport b d x y).run s = (.ok f, t) →
        f.source.alphaEq (d.origin (h.fill (and b x) y) (h.fill x (and b y))) ∧
          f.target.alphaEq (d.destination (h.fill (and b x) y) (h.fill x (and b y))) := by
  have below : ((d.inside h.outers).origin h.core.left h.core.right).Below s' := by
    cases d.inside h.outers with
    | rightward => exact around'.core.1
    | leftward => exact around'.core.2
  have domain := domain_of_gives_yields (h.gives_moves b d x y s)
    (h.yields_transport d around side first second)
  rw [Context.importSide_succeeds_iff _ b s' below side', Context.pushAt_succeeds_iff, domain.1]
  constructor
  · constructor
    · intro moves
      have covariant : ((d.inside h.outers).origin h.core.left h.core.right).variance =
          .covariant := by
        cases d.inside h.outers with
        | rightward => exact moves.left
        | leftward => exact moves.right
      exact ⟨moves.connective, moves.left, moves.right, ⟨covariant, moves.pulled⟩, moves.pushed⟩
    · intro asked
      rcases asked with ⟨connective, left, right, ⟨_, pulled⟩, pushed⟩
      exact ⟨connective, left, right, pulled, pushed⟩
  · intro f t result
    have leads := domain.2 f t result
    exact ⟨leads.source, leads.target⟩

/-- Below a negation the formula enters the left hole on its way from left to right: there two
negations that are not adjacent let it in, but not out. -/
theorem transport_domain_below_negation :
    let o : Formula := .holds ⟨0⟩ ⟨0⟩
    let b : Formula := .always (.quant .ex ⟨1⟩ (.holds ⟨1⟩ ⟨0⟩))
    let lone : Context :=
      .comp (.comp (.layer .not) (.layer (.conj .and .left o))) (.layer .not)
    let h : TwoHole :=
      .comp (.comp (.conj .and lone (.layer .always)) (.layer (.conj .or .left o))) (.layer .not)
    h.Below ⟨2⟩ ∧ b.Below ⟨2⟩ ∧ o.Below ⟨2⟩ ∧
      (∃ f t, (h.transport b .rightward o o).run ⟨2⟩ = (.ok f, t) ∧
        f.source.alphaEq (h.fill (and b o) o) ∧ f.target.alphaEq (h.fill o (and b o))) ∧
      ¬ ∃ f t, (h.transport b .leftward o o).run ⟨2⟩ = (.ok f, t) := by
  intro o b lone h
  have around : h.Below ⟨2⟩ := by decide
  have side : b.Below ⟨2⟩ := by decide
  have content : o.Below ⟨2⟩ := by decide
  have forth := transport_domain h b .rightward o o o ⟨2⟩ ⟨2⟩ around side content content around side
  have back := transport_domain h b .leftward o o o ⟨2⟩ ⟨2⟩ around side content content around side
  refine ⟨around, side, content, ?_, ?_⟩
  · have pulled : ((Context.layer .always).importSide b).run ⟨2⟩ =
        (.ok (.importing (.layer .always) b), ⟨5⟩) := by
      simp only [Context.importSide, Context.importAt]
      rfl
    have passes : ∀ l ∈ lone.layers, l.Passes b := by decide
    have pushed := (Context.pushAt_succeeds_iff false lone b o).mpr
      ((lone.pushDefined_iff b).mpr ⟨rfl, passes⟩)
    rcases forth.1.mpr ⟨rfl, rfl, rfl, ⟨_, _, pulled⟩, pushed⟩ with ⟨f, t, result⟩
    exact ⟨f, t, result, forth.2 f t result⟩
  · intro moved
    have pulled := (back.1.mp moved).2.2.2.1
    have imports := ((lone.importSide_succeeds_iff b ⟨2⟩ (by decide) side).mp pulled).2
    have crossed := (Context.importDefined_iff (s := ⟨2⟩) (by decide) side).mp imports
    exact absurd crossed.paired (by decide)

end TwoHole

end LinearCalculus
