import LinearCalculus.Proofs.Context.Search
import LinearCalculus.Proofs.Exhaustion
import LinearCalculus.Proofs.Record
import Mathlib.Data.List.Nodup
import Mathlib.Logic.Relation

/-! No identity is drawn twice.

A history holds the values that have been produced from one supply, the variables that
decoding has met, and the variables that have been drawn. It grows by requests that draw
variables, by decoding, whether it succeeds or not, and by building values from variables
that are at hand. Whatever the order of these steps, all variables lie below the supply, and
a variable that is drawn has not been there before. -/

namespace LinearCalculus

namespace Supply

def upTo (s t : Supply) : List Var := (List.range' s.next (t.next - s.next)).map Var.mk

theorem mem_upTo {s t : Supply} {v : Var} : v ∈ s.upTo t ↔ s.next ≤ v.id ∧ v.id < t.next := by
  obtain ⟨id⟩ := v
  simp only [upTo, List.mem_map, List.mem_range'_1, Var.mk.injEq, exists_eq_right]
  omega

theorem nodup_upTo (s t : Supply) : (s.upTo t).Nodup := by
  refine List.Nodup.map ?_ List.nodup_range'
  intro i j same
  cases same
  rfl

end Supply

inductive Value where
  | var (v : Var)
  | formula (f : Formula)
  | arrow (f : Arrow)
  | context (c : Context)
  | twoHole (h : TwoHole)
  | transformation (t : Transformation)
  | candidate (k : Candidate)

/-- All variables in a value; an arrow has those of its endpoints too. -/
def Value.vars : Value → List Var
  | var v => [v]
  | formula f => f.vars
  | arrow f => f.vars ++ (f.source.vars ++ f.target.vars)
  | context c => c.vars
  | twoHole h => h.vars
  | transformation t => t.vars
  | candidate k => k.vars

theorem Value.among_arrow (f : Arrow) (known : Var → Prop) (among : Among known f.vars) :
    Among known (Value.arrow f).vars := by
  have first : Among known f.source.vars := fun v member => among v (f.vars_ends.1 member)
  have second : Among known f.target.vars := fun v member => among v (f.vars_ends.2 member)
  simp [Value.vars, among, first, second]

inductive Request where
  | fresh
  | rename (f : Formula)
  | copy (a : Formula)
  | importSide (c : Context) (b : Formula)
  | liftSide (c : Context) (b : Formula)
  | exportSide (c : Context) (b : Formula)
  | arrowAt (t : Transformation) (x : Formula)
  | transport (h : TwoHole) (b : Formula) (d : Heading) (x y : Formula)
  | duplicate (h : TwoHole) (b x y : Formula)
  | candidates (c : Context) (search : Search) (wanted : Formula → Bool) (limit : Option Nat)
  | resume (outside rest : List Layer) (search : Search) (wanted : Formula → Bool)
      (limit : Option Nat)

namespace Request

def produce {α : Type} (make : α → Value) (x : ExceptT TransportError Fresh α) :
    Fresh (List Value) := do
  match ← x.run with
  | .ok a => return [make a]
  | .error _ => return []

def run : Request → Fresh (List Value)
  | fresh => do return [.var (← LinearCalculus.fresh)]
  | rename f => produce .formula (liftM f.rename)
  | copy a => produce .arrow (liftM (Arrow.copy a))
  | importSide c b => produce .transformation (c.importSide b)
  | liftSide c b => produce .transformation (c.liftSide b)
  | exportSide c b => produce .transformation (c.exportSide b)
  | arrowAt t x => produce .arrow (t.arrowAt x)
  | transport h b d x y => produce .arrow (h.transport b d x y)
  | duplicate h b x y => produce .arrow (h.transportDuplicating b x y)
  | candidates c search wanted limit => do
    return (← c.candidates search wanted limit).map .candidate
  | resume outside rest search wanted limit => do
    return (← search.amongLayers wanted limit outside rest).map .candidate

def vars : Request → List Var
  | fresh => []
  | rename f | copy f => f.vars
  | importSide c b | liftSide c b | exportSide c b => c.vars ++ b.vars
  | arrowAt t x => t.vars ++ x.vars
  | transport h b _ x y | duplicate h b x y => h.vars ++ (b.vars ++ (x.vars ++ y.vars))
  | candidates c _ _ _ => c.vars
  | resume outside rest _ _ _ => (outside ++ rest).flatMap Layer.vars

theorem stepwise_produce {α : Type} {make : α → Value} {x : ExceptT TransportError Fresh α}
    (stepwise : Stepwise x.run) : Stepwise (produce make x) := by
  refine stepwise_bind stepwise fun outcome => ?_
  cases outcome <;> exact stepwise_pure _

theorem stepwise_run (r : Request) : Stepwise r.run := by
  cases r with
  | fresh => exact stepwise_bind stepwise_fresh fun _ => stepwise_pure _
  | rename f => exact stepwise_produce (stepwise_lift f.stepwise_rename)
  | copy a => exact stepwise_produce (stepwise_lift (Arrow.stepwise_copy a))
  | importSide c b => exact stepwise_produce ((Transformation.importing c b).stepwise_probed _)
  | liftSide c b => exact stepwise_produce ((Transformation.lifting c b).stepwise_probed _)
  | exportSide c b => exact stepwise_produce ((Transformation.exporting c b).stepwise_probed _)
  | arrowAt t x => exact stepwise_produce (t.stepwise_arrowAt x)
  | transport h b d x y => exact stepwise_produce (h.stepwise_transport b d x y)
  | duplicate h b x y => exact stepwise_produce (h.stepwise_transportDuplicating b x y)
  | candidates c search wanted limit =>
      exact stepwise_bind (c.stepwise_candidates search wanted limit) fun _ => stepwise_pure _
  | resume outside rest search wanted limit =>
      exact stepwise_bind (search.stepwise_amongLayers wanted limit outside rest) fun _ =>
        stepwise_pure _

section

variable {known : Var → Prop} {s : Supply}

theorem produce_draws {α : Type} {V : α → List Var} {make : α → Value}
    {x : ExceptT TransportError Fresh α} (draws : Draws x s known V)
    (made : ∀ a (known' : Var → Prop), Among known' (V a) → Among known' (make a).vars) :
    s.next ≤ (produce make x s).2.next ∧
      Among (Extended known s (produce make x s).2) ((produce make x s).1.flatMap Value.vars) := by
  obtain ⟨later, among⟩ := draws
  have run : produce make x s = (match (x.run s).1 with
      | .ok a => pure [make a]
      | .error _ => pure [] : Fresh (List Value)) (x.run s).2 := rfl
  rw [run]
  rcases outcome : x.run s with ⟨(e | a), t⟩ <;> rw [outcome] at later
  · exact ⟨later, among_nil _⟩
  · refine ⟨later, ?_⟩
    have whole := made a _ (among a t outcome)
    change Among (Extended known s t) ((make a).vars ++ [])
    simpa using whole

theorem among_candidates {t : Supply} {ks : List Candidate} (each : ∀ k ∈ ks, Among known k.vars) :
    Among (Extended known s t) ((ks.map Value.candidate).flatMap Value.vars) := by
  intro v member
  obtain ⟨value, present, inside⟩ := List.mem_flatMap.mp member
  obtain ⟨k, found, rfl⟩ := List.mem_map.mp present
  exact .inl (each k found v inside)

theorem run_draws (r : Request) (known : Var → Prop) (among : Among known r.vars)
    (below : Among (fun v => v.id < s.next) r.vars) :
    s.next ≤ (r.run s).2.next ∧
      Among (Extended known s (r.run s).2) ((r.run s).1.flatMap Value.vars) := by
  cases r with
  | fresh =>
      refine ⟨Nat.le_succ _, ?_⟩
      have drawn : Extended known s ⟨s.next + 1⟩ ⟨s.next⟩ :=
        .inr ⟨Nat.le_refl _, Nat.lt_succ_self _⟩
      exact among_cons.mpr ⟨drawn, among_nil _⟩
  | rename f => exact produce_draws (f.draws_rename s among) (fun _ _ here => here)
  | copy a => exact produce_draws (Arrow.draws_copy a s among) Value.among_arrow
  | importSide c b =>
      exact produce_draws ((Transformation.importing c b).draws_probed _ s among)
        (fun _ _ here => here)
  | liftSide c b =>
      exact produce_draws ((Transformation.lifting c b).draws_probed _ s among)
        (fun _ _ here => here)
  | exportSide c b =>
      exact produce_draws ((Transformation.exporting c b).draws_probed _ s among)
        (fun _ _ here => here)
  | arrowAt t x =>
      obtain ⟨family, content⟩ := among_append.mp among
      exact produce_draws (t.draws_arrowAt x s family content) Value.among_arrow
  | transport h b d x y =>
      obtain ⟨around, side, first, second⟩ := by simpa [vars] using among
      exact produce_draws (h.draws_transport b d x y s around side first second) Value.among_arrow
  | duplicate h b x y =>
      obtain ⟨around, side, first, second⟩ := by simpa [vars] using among
      exact produce_draws (h.draws_transportDuplicating b x y s around side first second)
        Value.among_arrow
  | candidates c search wanted limit =>
      refine ⟨c.candidates_later search wanted limit s, among_candidates ?_⟩
      exact Context.candidates_among search wanted limit (Context.below_iff_among.mpr below) among
  | resume outside rest search wanted limit =>
      refine ⟨search.amongLayers_later wanted limit outside rest s, among_candidates ?_⟩
      exact search.amongLayers_among wanted limit outside rest s
        (Layer.below_iff_among.mpr below) among

end

end Request

inductive Decoding where
  | var (j : Json)
  | formula (form : Form) (levels : Nat) (j : Json)
  /-- An arrow whose root is left unchecked. -/
  | rule (form : Form) (levels : Nat) (j : Json)
  | arrow (form : Form) (levels : Nat) (j : Json)
  | text (content : String)

namespace Decoding

def decoder {σ : Type} [Notes σ] : Decoding → DecoderOver σ Value
  | var j => .var <$> Decoder.var j
  | formula form levels j => .formula <$> Decoder.formula form levels j
  | rule form levels j => .arrow <$> Decoder.arrow form levels j
  | arrow form levels j => .arrow <$> Decoder.checked (Decoder.arrow form levels j)
  | text content => .arrow <$> Decoder.arrowText content

/-- The variables that decoding meets, also before a fault. -/
def met (d : Decoding) : List Var := (d.decoder.run ([] : List Var)).2

theorem recorded (d : Decoding) :
    Decoder.Recorded d.decoder d.decoder (fun _ => False) Value.vars := by
  cases d with
  | var j => exact Decoder.recorded_map (Decoder.recorded_var j _) (fun _ _ here => here)
  | formula form levels j =>
      exact Decoder.recorded_map (Decoder.records_formula form levels j _) (fun _ _ here => here)
  | rule form levels j =>
      exact Decoder.recorded_map ((Decoder.records_arrows form levels).1 j _) Value.among_arrow
  | arrow form levels j =>
      exact Decoder.recorded_map
        (Decoder.recorded_checked ((Decoder.records_arrows form levels).1 j _)) Value.among_arrow
  | text content =>
      exact Decoder.recorded_map (Decoder.recorded_arrowText content _) Value.among_arrow

theorem run_eq (d : Decoding) (s : Supply) :
    ∃ outcome, d.decoder.run s = (outcome, s.reserveAll d.met) ∧
      (∀ v ∈ d.met, v.id < Supply.capacity) ∧
      ∀ value, outcome = .ok value → value.vars ⊆ d.met := by
  obtain ⟨outcome, met, supply, record, small, among⟩ := d.recorded
  have same : d.met = met := by rw [Decoding.met, record, List.append_nil]
  rw [same]
  refine ⟨outcome, supply s, small, fun value result v member => ?_⟩
  exact (among value result v member).resolve_right id

end Decoding

structure History where
  supply : Supply
  values : List Value
  decoded : List Var
  drawn : List Var

namespace History

def empty : History := ⟨.empty, [], [], []⟩

def used (h : History) : List Var := h.values.flatMap Value.vars

/-- A request produces nothing if the supply runs out in the middle of it. -/
def perform (h : History) (r : Request) : History :=
  let (result, t) := r.run.bounded h.supply
  ⟨t, result.getD [] ++ h.values, h.decoded, h.supply.upTo t ++ h.drawn⟩

def decode (h : History) (d : Decoding) : History :=
  let (result, t) := d.decoder.run h.supply
  ⟨t, result.toOption.toList ++ h.values, d.met ++ h.decoded, h.drawn⟩

inductive Step : History → History → Prop where
  | request {h : History} (r : Request) (atHand : r.vars ⊆ h.used) : Step h (h.perform r)
  | decode {h : History} (d : Decoding) : Step h (h.decode d)
  | build {h : History} (value : Value) (atHand : value.vars ⊆ h.used) :
      Step h { h with values := value :: h.values }

structure Sound (h : History) : Prop where
  bounded : h.supply.next ≤ Supply.capacity
  used : ∀ v ∈ h.used, v.id < h.supply.next
  decoded : ∀ v ∈ h.decoded, v.id < h.supply.next
  drawn : ∀ v ∈ h.drawn, v.id < h.supply.next
  distinct : h.drawn.Nodup

theorem sound_empty : empty.Sound where
  bounded := Nat.zero_le _
  used := nofun
  decoded := nofun
  drawn := nofun
  distinct := .nil

/-- How a history grows in one step: by the variables that are drawn and by those that decoding
meets, and by values that consist of these and of what was at hand. -/
structure Grown (h h' : History) (drawn decoded : List Var) : Prop where
  later : h.supply.next ≤ h'.supply.next
  bounded : h'.supply.next ≤ Supply.capacity
  allDrawn : h'.drawn = drawn ++ h.drawn
  allDecoded : h'.decoded = decoded ++ h.decoded
  distinct : drawn.Nodup
  fresh : ∀ v ∈ drawn, h.supply.next ≤ v.id ∧ v.id < h'.supply.next
  reserved : ∀ v ∈ decoded, v.id < h'.supply.next
  used : ∀ v ∈ h'.used, v ∈ h.used ∨ v ∈ drawn ∨ v ∈ decoded

theorem perform_grown {h : History} (sound : h.Sound) (r : Request) (atHand : r.vars ⊆ h.used) :
    Grown h (h.perform r) (h.supply.upTo (h.perform r).supply) [] := by
  have below : Among (fun v => v.id < h.supply.next) r.vars :=
    fun v member => sound.used v (atHand member)
  obtain ⟨later, among⟩ := r.run_draws (· ∈ h.used) (fun _ member => atHand member) below
  have drawn (t : Supply) : ∀ v ∈ h.supply.upTo t, h.supply.next ≤ v.id ∧ v.id < t.next :=
    fun v member => Supply.mem_upTo.mp member
  by_cases fits : (r.run h.supply).2.next ≤ Supply.capacity
  · have performed : h.perform r = ⟨(r.run h.supply).2, (r.run h.supply).1 ++ h.values, h.decoded,
        h.supply.upTo (r.run h.supply).2 ++ h.drawn⟩ := by
      simp [perform, Fresh.bounded_of_le fits]
    rw [performed]
    refine ⟨later, fits, rfl, rfl, Supply.nodup_upTo _ _, drawn _, nofun, fun v member => ?_⟩
    simp only [used, List.flatMap_append, List.mem_append] at member
    rcases member with new | old
    · rcases among v new with known | between
      · exact .inl known
      · exact .inr (.inl (Supply.mem_upTo.mpr between))
    · exact .inl old
  · -- the supply ran out in the middle: no value, and no identity is left
    have performed : h.perform r = ⟨⟨Supply.capacity⟩, h.values, h.decoded,
        h.supply.upTo ⟨Supply.capacity⟩ ++ h.drawn⟩ := by
      simp [perform, Fresh.bounded_of_lt (Nat.lt_of_not_le fits)]
    rw [performed]
    exact ⟨sound.bounded, Nat.le_refl _, rfl, rfl, Supply.nodup_upTo _ _, drawn _, nofun,
      fun v member => .inl member⟩

theorem decode_grown {h : History} (sound : h.Sound) (d : Decoding) :
    Grown h (h.decode d) [] d.met := by
  obtain ⟨outcome, run, small, parts⟩ := d.run_eq h.supply
  have decoded : h.decode d = ⟨h.supply.reserveAll d.met, outcome.toOption.toList ++ h.values,
      d.met ++ h.decoded, h.drawn⟩ := by
    simp [decode, run]
  rw [decoded]
  refine ⟨h.supply.le_reserveAll _, Supply.reserveAll_le sound.bounded small, rfl, rfl, .nil,
    nofun, fun v member => Supply.lt_reserveAll member, fun v member => ?_⟩
  simp only [used, List.flatMap_append, List.mem_append] at member
  rcases member with new | old
  · obtain ⟨value, present, inside⟩ := List.mem_flatMap.mp new
    exact .inr (.inr (parts value (toOption_eq_some.mp (Option.mem_toList.mp present)) inside))
  · exact .inl old

theorem Step.grown {h h' : History} (step : Step h h') (sound : h.Sound) :
    ∃ drawn decoded, Grown h h' drawn decoded := by
  cases step with
  | request r atHand => exact ⟨_, _, perform_grown sound r atHand⟩
  | decode d => exact ⟨_, _, decode_grown sound d⟩
  | build value atHand =>
      refine ⟨[], [], Nat.le_refl _, sound.bounded, rfl, rfl, .nil, nofun, nofun, ?_⟩
      intro v member
      simp only [used, List.flatMap_cons, List.mem_append] at member
      rcases member with new | old
      · exact .inl (atHand new)
      · exact .inl old

/-- The variables that have ever been seen: in a value, in decoding, or when they were drawn. -/
def seen (h : History) : List Var := h.used ++ (h.decoded ++ h.drawn)

theorem Sound.seen_lt {h : History} (sound : h.Sound) : ∀ v ∈ h.seen, v.id < h.supply.next := by
  intro v member
  simp only [seen, List.mem_append] at member
  rcases member with inside | inside | inside
  · exact sound.used v inside
  · exact sound.decoded v inside
  · exact sound.drawn v inside

theorem Grown.unseen {h h' : History} {drawn decoded : List Var} (grown : Grown h h' drawn decoded)
    (sound : h.Sound) : ∀ v ∈ drawn, v ∉ h.seen := by
  intro v new old
  have above := (grown.fresh v new).1
  have below := sound.seen_lt v old
  omega

theorem Grown.sound {h h' : History} {drawn decoded : List Var} (grown : Grown h h' drawn decoded)
    (sound : h.Sound) : h'.Sound := by
  have old {v : Var} (below : v.id < h.supply.next) : v.id < h'.supply.next :=
    Nat.lt_of_lt_of_le below grown.later
  refine ⟨grown.bounded, fun v member => ?_, ?_, ?_, ?_⟩
  · rcases grown.used v member with here | new | met
    · exact old (sound.used v here)
    · exact (grown.fresh v new).2
    · exact grown.reserved v met
  · rw [grown.allDecoded]
    exact List.forall_mem_append.mpr ⟨grown.reserved, fun v member => old (sound.decoded v member)⟩
  · rw [grown.allDrawn]
    exact List.forall_mem_append.mpr
      ⟨fun v member => (grown.fresh v member).2, fun v member => old (sound.drawn v member)⟩
  · rw [grown.allDrawn]
    refine List.Nodup.append grown.distinct sound.distinct ?_
    intro v new before
    exact grown.unseen sound v new (by simp [seen, before])

theorem Sound.fresh_unseen {h : History} (sound : h.Sound) {v : Var} {t : Supply}
    (result : fresh.bounded h.supply = (some v, t)) : v ∉ h.seen ∧ t.next = v.id + 1 := by
  by_cases fits : h.supply.next + 1 ≤ Supply.capacity
  · rw [Fresh.bounded_of_le (x := fresh) fits] at result
    cases result
    exact ⟨fun old => Nat.lt_irrefl _ (sound.seen_lt _ old), rfl⟩
  · rw [Fresh.bounded_of_lt (x := fresh) (Nat.lt_of_not_le fits)] at result
    cases result

theorem Sound.fresh_exhausted {h : History} (sound : h.Sound) {t : Supply}
    (result : fresh.bounded h.supply = (none, t)) :
    h.supply.next = Supply.capacity ∧ t.next = Supply.capacity := by
  by_cases fits : h.supply.next + 1 ≤ Supply.capacity
  · rw [Fresh.bounded_of_le (x := fresh) fits] at result
    cases result
  · rw [Fresh.bounded_of_lt (x := fresh) (Nat.lt_of_not_le fits)] at result
    cases result
    exact ⟨Nat.le_antisymm sound.bounded (Nat.le_of_lt_succ (Nat.lt_of_not_le fits)), rfl⟩

theorem run_sound {h h' : History} (run : Relation.ReflTransGen Step h h') (sound : h.Sound) :
    h'.Sound ∧ h.supply.next ≤ h'.supply.next := by
  induction run with
  | refl => exact ⟨sound, Nat.le_refl _⟩
  | tail _ step ih =>
      obtain ⟨sound', later⟩ := ih
      obtain ⟨drawn, decoded, grown⟩ := step.grown sound'
      exact ⟨grown.sound sound', Nat.le_trans later grown.later⟩

/-- In every run from the empty supply, all variables lie below the supply, which grows up to
the capacity; what is drawn has not been seen before; and a supply that is used up stays so. A
request might as well fail at the draw for which nothing is left. -/
theorem identities_never_reused {h : History} (run : Relation.ReflTransGen Step empty h) :
    h.supply.next ≤ Supply.capacity ∧
      (∀ v ∈ h.seen, v.id < h.supply.next ∧ v.id ≠ Supply.capacity) ∧
      h.drawn.Nodup ∧
      (∀ h', Relation.ReflTransGen Step h h' → h.supply.next ≤ h'.supply.next) ∧
      (∀ h', Step h h' → ∃ drawn decoded, h'.drawn = drawn ++ h.drawn ∧
        h'.decoded = decoded ++ h.decoded ∧ (∀ v ∈ drawn, v ∉ h.seen) ∧
        ∀ v ∈ h'.used, v ∈ h.used ∨ v ∈ drawn ∨ v ∈ decoded) ∧
      (∀ v t, fresh.bounded h.supply = (some v, t) → v ∉ h.seen ∧ t.next = v.id + 1) ∧
      (∀ t, fresh.bounded h.supply = (none, t) →
        h.supply.next = Supply.capacity ∧ t.next = Supply.capacity) ∧
      ∀ r : Request, ∃ d : Drawing (List Value), d.execute fresh = r.run ∧
        (d.execute Fresh.take).run h.supply = r.run.bounded h.supply := by
  obtain ⟨sound, _⟩ := run_sound run sound_empty
  refine ⟨sound.bounded, fun v member => ?_, sound.distinct, ?_, ?_, ?_, ?_, ?_⟩
  · have below := sound.seen_lt v member
    exact ⟨below, Nat.ne_of_lt (Nat.lt_of_lt_of_le below sound.bounded)⟩
  · intro h' more
    exact (run_sound more sound).2
  · intro h' step
    obtain ⟨drawn, decoded, grown⟩ := step.grown sound
    exact ⟨drawn, decoded, grown.allDrawn, grown.allDecoded, grown.unseen sound, grown.used⟩
  · intro v t result
    exact sound.fresh_unseen result
  · intro t result
    exact sound.fresh_exhausted result
  · intro r
    rcases r.stepwise_run.execute_take with ⟨d, drawing, taken⟩
    exact ⟨d, drawing, taken h.supply sound.bounded⟩

/-- A formula breaks off after its first variable; the next variable that is drawn is another
one. -/
theorem drawn_after_fault :
    let faulty : Decoding := .formula .value 4 (.tagged "Holds" (.array [.number ['5']]))
    let h : History := (empty.decode faulty).perform .fresh
    Relation.ReflTransGen Step empty h ∧ h.decoded = [⟨5⟩] ∧ h.drawn = [⟨6⟩] ∧
      h.supply.next ≤ Supply.capacity ∧
      (∀ v ∈ h.seen, v.id < h.supply.next ∧ v.id ≠ Supply.capacity) ∧ h.drawn.Nodup := by
  intro faulty h
  have run : Relation.ReflTransGen Step empty h :=
    .tail (.tail .refl (.decode faulty)) (.request .fresh nofun)
  obtain ⟨bounded, below, distinct, _⟩ := identities_never_reused run
  exact ⟨run, rfl, rfl, bounded, below, distinct⟩

end History

end LinearCalculus
