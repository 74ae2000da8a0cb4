import LinearCalculus.Proofs.Codec.Reading
import LinearCalculus.Proofs.Production

namespace LinearCalculus

open Json (Legible)

theorem Var.legible {v : Var} (small : v.id < Supply.capacity) : Legible v.toJson v.toJson :=
  Json.legible_ofNat small

theorem Connective.legible (k : Connective) : Legible k.toJson k.toJson := by
  cases k <;> exact Json.legible_ofString _

theorem Quantifier.legible (q : Quantifier) : Legible q.toJson q.toJson := by
  cases q <;> exact Json.legible_ofString _

theorem Orientation.legible (way : Orientation) : Legible way.toJson way.toJson := by
  cases way <;> exact Json.legible_ofString _

namespace Json

variable {a a' b b' c c' d d' : Json}

theorem legible_two (first : Legible a a') (second : Legible b b') :
    Legible (.array [a, b]) (.array [a', b']) :=
  legible_array (legibleItems_cons first (legibleItems_cons second legibleItems_nil))

theorem legible_three (first : Legible a a') (second : Legible b b') (third : Legible c c') :
    Legible (.array [a, b, c]) (.array [a', b', c']) :=
  legible_array (legibleItems_cons first (legibleItems_cons second (legibleItems_cons third
    legibleItems_nil)))

theorem legible_four (first : Legible a a') (second : Legible b b') (third : Legible c c')
    (fourth : Legible d d') : Legible (.array [a, b, c, d]) (.array [a', b', c', d']) :=
  legible_array (legibleItems_cons first (legibleItems_cons second (legibleItems_cons third
    (legibleItems_cons fourth legibleItems_nil))))

theorem legibleItems_map {α : Type} {encode : α → Json} {as : List α}
    (each : ∀ x ∈ as, Legible (encode x) (encode x)) :
    LegibleItems (as.map encode) (as.map encode) := by
  induction as with
  | nil => exact legibleItems_nil
  | cons x as ih =>
      obtain ⟨first, others⟩ := List.forall_mem_cons.mp each
      exact legibleItems_cons first (ih others)

end Json

open Json (legible_tagged legible_two legible_three legible_four)

theorem Formula.legible (f : Formula) (small : Among (fun v => v.id < Supply.capacity) f.vars) :
    Legible f.toJson f.toJson := by
  induction f with
  | holds a b | identical a b =>
      obtain ⟨first, others⟩ := among_cons.mp small
      exact legible_tagged rfl (legible_two (Var.legible first)
        (Var.legible (among_cons.mp others).1))
  | unit value => exact legible_tagged rfl (Json.legible_ofString _)
  | not f ih | always f ih => exact legible_tagged rfl (ih small)
  | conj k l r left right =>
      obtain ⟨first, second⟩ := among_append.mp small
      exact legible_tagged rfl (legible_three k.legible (left first) (right second))
  | quant q v f ih =>
      obtain ⟨first, second⟩ := among_cons.mp small
      exact legible_tagged rfl (legible_three q.legible (Var.legible first) (ih second))

theorem Primitive.legible (p : Primitive)
    (small : Among (fun v => v.id < Supply.capacity) p.vars) : Legible p.toJson p.toValue := by
  cases p with
  | commute k a b =>
      obtain ⟨first, second⟩ := among_append.mp small
      exact legible_tagged rfl (legible_three k.legible (a.legible first) (b.legible second))
  | associateA k a b c | associateB k a b c =>
      obtain ⟨both, third⟩ := among_append.mp small
      obtain ⟨first, second⟩ := among_append.mp both
      exact legible_tagged rfl
        (legible_four k.legible (a.legible first) (b.legible second) (c.legible third))
  | introUnit k a | removeUnit k a =>
      exact legible_tagged rfl (legible_two k.legible (a.legible small))
  | distribute a b c =>
      obtain ⟨both, third⟩ := among_append.mp small
      obtain ⟨first, second⟩ := among_append.mp both
      exact legible_tagged rfl
        (legible_three (a.legible first) (b.legible second) (c.legible third))
  | forget a b | widen a b | apply a b | copy a b | zip a b =>
      obtain ⟨first, second⟩ := among_append.mp small
      exact legible_tagged rfl (legible_two (a.legible first) (b.legible second))
  | introDoubleDual a | removeDoubleDual a | cojoin a | derelict a =>
      exact legible_tagged rfl (a.legible small)
  | removeExists x a | introForall x a =>
      obtain ⟨first, second⟩ := among_cons.mp small
      exact legible_tagged rfl (legible_two (Var.legible first) (a.legible second))
  | andPastExists a x b | existsPastAnd a x b =>
      obtain ⟨first, both⟩ := among_append.mp small
      obtain ⟨second, third⟩ := among_cons.mp both
      exact legible_tagged rfl
        (legible_three (a.legible first) (Var.legible second) (b.legible third))
  | introExists body witness bound =>
      obtain ⟨first, both⟩ := among_cons.mp small
      obtain ⟨second, third⟩ := among_cons.mp both
      exact legible_tagged rfl (Json.legible_object
        (Json.legibleMembers_cons rfl (body.legible third) (Json.legibleMembers_cons rfl
          (Var.legible first) (Json.legibleMembers_cons rfl (Var.legible second)
            Json.legibleMembers_nil))))
  | removeForall bound body witness =>
      obtain ⟨first, both⟩ := among_cons.mp small
      obtain ⟨second, third⟩ := among_cons.mp both
      exact legible_tagged rfl (Json.legible_object
        (Json.legibleMembers_cons rfl (Var.legible second) (Json.legibleMembers_cons rfl
          (body.legible third) (Json.legibleMembers_cons rfl (Var.legible first)
            Json.legibleMembers_nil))))
  | substitute l r body way =>
      obtain ⟨first, both⟩ := among_cons.mp small
      obtain ⟨second, third⟩ := among_cons.mp both
      exact legible_tagged rfl (Json.legible_object
        (Json.legibleMembers_cons rfl (Var.legible first) (Json.legibleMembers_cons rfl
          (Var.legible second) (Json.legibleMembers_cons rfl (body.legible third)
            (Json.legibleMembers_cons rfl way.legible Json.legibleMembers_nil)))))

theorem Arrow.legible (f : Arrow) (small : Among (fun v => v.id < Supply.capacity) f.vars) :
    Legible f.toJson (f.toJsonBy Primitive.toValue) := by
  induction f with
  | identity a => exact legible_tagged rfl (a.legible small)
  | prim p => exact p.legible small
  | onNot f ih | onAlways f ih => exact legible_tagged rfl (ih small)
  | composite f g left right =>
      obtain ⟨first, second⟩ := among_append.mp small
      exact legible_tagged rfl (legible_two (left first) (right second))
  | onConj k f g left right =>
      obtain ⟨first, second⟩ := among_append.mp small
      exact legible_tagged rfl (legible_three k.legible (left first) (right second))
  | onLeft k f b ih =>
      obtain ⟨first, second⟩ := among_append.mp small
      exact legible_tagged rfl (legible_three k.legible (ih first) (b.legible second))
  | onRight k a f ih =>
      obtain ⟨first, second⟩ := among_append.mp small
      exact legible_tagged rfl (legible_three k.legible (a.legible first) (ih second))
  | onBody q v f ih =>
      obtain ⟨first, second⟩ := among_cons.mp small
      exact legible_tagged rfl (legible_three q.legible (Var.legible first) (ih second))

theorem Surface.Formula.legible (f : Surface.Formula)
    (small : Among (fun v => v.id < Supply.capacity) f.vars) : Legible f.toJson f.toJson := by
  induction f using tree_induction with
  | atHolds a b | atIdentical a b =>
      obtain ⟨first, others⟩ := among_cons.mp small
      exact legible_tagged rfl (legible_two (Var.legible first)
        (Var.legible (among_cons.mp others).1))
  | atNot f ih | atAlways f ih => exact legible_tagged rfl (ih small)
  | atConj k fs ih =>
      rw [toJson, toJsonList_eq_map]
      have each := among_varsList.mp small
      have values := Json.legibleItems_map fun f member => ih f member (each f member)
      exact legible_tagged rfl (legible_two k.legible (Json.legible_array values))
  | atQuant q vs f ih =>
      obtain ⟨bound, inside⟩ := among_append.mp small
      have binders := Json.legibleItems_map fun v member => Var.legible (bound v member)
      exact legible_tagged rfl (legible_three q.legible (Json.legible_array binders) (ih inside))
  | atImplies a b left right | atIff a b left right =>
      obtain ⟨first, second⟩ := among_append.mp small
      exact legible_tagged rfl (legible_two (left first) (right second))
  | atHidden name f ih =>
      exact legible_tagged rfl (legible_two (Json.legible_ofString name) (ih small))

namespace Decoder

/-- Decoding gives the value back and leaves the supply as it was: from the document, from the
value that it denotes, and from its text up to the limit on brackets. -/
structure Restores {α : Type} (decode : Form → Nat → Json → Decoder α) (j : Json) (a : α)
    (s : Supply) : Prop where
  document : (fromValue decode j).run s = (.ok a, s)
  value : ∃ j', j.canonical? = some j' ∧ (fromValue decode j').run s = (.ok a, s) ∧
    Json.ofText? j.toText = if j.depth ≤ Json.textLevels then some j' else none
  text : j.depth ≤ Json.textLevels → (fromText decode j.toText).run s = (.ok a, s)

theorem reads_fromText {α : Type} {decode : Form → Nat → Json → Decoder α} {j : Json} {a : α}
    {s : Supply} (written : j.Written) (reads : Reads (decode .text Json.textLevels j) a s) :
    Reads (fromText decode j.toText) a s := by
  unfold fromText
  rw [Json.read_toText written]
  exact reads_bind reads rfl

theorem restores_of_reads {α : Type} {decode : Form → Nat → Json → Decoder α} {j j' : Json} {a : α}
    {s : Supply} (legible : Legible j j')
    (document : ∀ form levels, j.depth ≤ levels → Reads (decode form levels j) a s)
    (value : Reads (fromValue decode j') a s) : Restores decode j a s where
  document := document .value j.depth (Nat.le_refl _)
  value := ⟨j', legible.value, value, legible.ofText?⟩
  text shallow := reads_fromText legible.written (document .text Json.textLevels shallow)

section

variable {s : Supply} (bounded : s.next ≤ Supply.capacity)
include bounded

theorem among_capacity {vs : List Var} (below : Among (fun v => v.id < s.next) vs) :
    Among (fun v => v.id < Supply.capacity) vs :=
  below.mono fun _ here => Nat.lt_of_lt_of_le here bounded

theorem restores_formula (f : Formula) (below : Among (fun v => v.id < s.next) f.vars) :
    Restores formula f.toJson f s := by
  have reads (form : Form) := reads_formula bounded form f below
  exact restores_of_reads (f.legible (among_capacity bounded below)) reads
    (reads .value _ (Nat.le_refl _))

theorem restores_surface (f : Surface.Formula)
    (below : Among (fun v => v.id < s.next) f.vars) : Restores surfaceFormula f.toJson f s := by
  have reads (form : Form) := reads_surface form bounded f below
  exact restores_of_reads (f.legible (among_capacity bounded below)) reads
    (reads .value _ (Nat.le_refl _))

theorem reads_toJson (form : Form) (f : Arrow) (parts : ∀ g ∈ f.parts, g.WellTyped)
    (below : Among (fun v => v.id < s.next) f.vars) (levels : Nat)
    (room : f.toJson.depth ≤ levels) : Reads (arrow form levels f.toJson) f s := by
  rw [Arrow.toJson_eq] at room ⊢
  exact reads_arrow (reads_primitive bounded form) bounded f parts below levels room

theorem restores_arrow (f : Arrow) (typed : f.WellTyped)
    (below : Among (fun v => v.id < s.next) f.vars) : Restores typedArrow f.toJson f s := by
  rcases f.wellTyped_iff.mp typed with ⟨parts, clear⟩
  have value : Reads (fromValue arrow (f.toJsonBy Primitive.toValue)) f s :=
    reads_arrow (reads_primitive_value bounded .value) bounded f parts below _ (Nat.le_refl _)
  refine restores_of_reads (f.legible (among_capacity bounded below)) ?_ (reads_checked value clear)
  intro form levels room
  exact reads_checked (reads_toJson bounded form f parts below levels room) clear

/-- An arrow is found in its text, also if its root has a fault, unless the brackets are nested too
deep. -/
theorem reads_arrowText (f : Arrow) (parts : ∀ g ∈ f.parts, g.WellTyped)
    (below : Among (fun v => v.id < s.next) f.vars) (shallow : f.toJson.depth ≤ Json.textLevels) :
    Reads (arrowText f.toJson.toText) f s :=
  reads_fromText (f.legible (among_capacity bounded below)).written
    (reads_toJson bounded .text f parts below _ shallow)

end

/-- What is kept as JSON is found again: every formula, every surface formula and every
well-typed arrow, whatever produced it, with the same endpoints at every node. The supply stays
as it was. Conversely, an arrow that is accepted is well-typed at every node. -/
theorem restored_from_json (s : Supply) (bounded : s.next ≤ Supply.capacity) :
    (∀ f : Formula, Among (fun v => v.id < s.next) f.vars → Restores formula f.toJson f s) ∧
      (∀ f : Surface.Formula, Among (fun v => v.id < s.next) f.vars →
        Restores surfaceFormula f.toJson f s) ∧
      (∀ f : Arrow, f.WellTyped → Among (fun v => v.id < s.next) f.vars →
        Restores typedArrow f.toJson f s ∧
          (f.toJson.depth ≤ Json.textLevels →
            (checked (arrowText f.toJson.toText)).run s = (.ok f, s)) ∧
          ∀ r : Inscribed, r.Made [] ∧ r.arrow = f ↔ r = f.inscribed) ∧
      (∀ start finish : Session, Relation.ReflTransGen Session.Step start finish →
        start.arrows = [] → ∀ r ∈ finish.arrows, Among (fun v => v.id < s.next) r.arrow.vars →
          Restores typedArrow r.arrow.toJson r.arrow s ∧ r = r.arrow.inscribed) ∧
      ∀ (form : Form) (levels : Nat) (j : Json) (f : Arrow) (t : Supply),
        (checked (arrow form levels j)).run s = (.ok f, t) → ∀ g ∈ f.nodes, g.WellTyped := by
  refine ⟨restores_formula bounded, restores_surface bounded, ?_, ?_, ?_⟩
  · intro f typed below
    rcases f.wellTyped_iff.mp typed with ⟨parts, clear⟩
    refine ⟨restores_arrow bounded f typed below, fun shallow => ?_, fun r => r.made_iff f⟩
    exact reads_checked (reads_arrowText bounded f parts below shallow) clear
  · intro start finish run nothing r inHand below
    rcases Session.run_sound run nothing r inHand with ⟨typed, faithful⟩
    exact ⟨restores_arrow bounded r.arrow typed below, faithful⟩
  · intro form levels j f t accepted g inside
    have typed := gives_checked ((gives_arrow form levels).1 j s) f t accepted
    exact Arrow.wellTyped_of_mem_nodes f g typed inside

/-- An arrow with a record of fields below a composite, and a formula under a name with quotes on
two lines. -/
theorem renaming_restored_from_json :
    let x : Formula := .holds ⟨0⟩ ⟨1⟩
    let named : Surface.Formula := .hidden "the\n\"empty\" choice" (.conj .or [])
    let f : Arrow := .composite (.prim (.introExists x ⟨0⟩ ⟨2⟩))
      (.onBody .ex ⟨2⟩ (.prim (.introDoubleDual (.holds ⟨2⟩ ⟨1⟩))))
    f.WellTyped ∧ f.toJson.depth ≤ Json.textLevels ∧
      Restores surfaceFormula named.toJson named ⟨3⟩ ∧ Restores typedArrow f.toJson f ⟨3⟩ ∧
      (fromText typedArrow f.toJson.toText).run (⟨3⟩ : Supply) = (.ok f, ⟨3⟩) ∧
      (checked (arrowText f.toJson.toText)).run (⟨3⟩ : Supply) = (.ok f, ⟨3⟩) := by
  intro x named f
  have typed : f.WellTyped := by decide
  have shallow : f.toJson.depth ≤ Json.textLevels := by decide +kernel
  have below : Among (fun v => v.id < 3) f.vars := by simp [f, x]
  rcases restored_from_json ⟨3⟩ (by decide) with ⟨_, surface, arrows, _⟩
  rcases arrows f typed below with ⟨restored, text, _⟩
  exact ⟨typed, shallow, surface named (by simp [named, Surface.Formula.vars,
    Surface.Formula.varsList]), restored, restored.text shallow, text shallow⟩

end Decoder

end LinearCalculus
