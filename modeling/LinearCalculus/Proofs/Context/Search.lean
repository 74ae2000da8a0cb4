import LinearCalculus.Proofs.Context.Drawing
import LinearCalculus.Proofs.Context.Passage

namespace LinearCalculus

open Formula (and)
open Arrow

namespace Context

theorem below_ofLayers {ls : List Layer} {s : Supply} :
    (ofLayers ls).Below s ↔ ∀ l ∈ ls, l.Below s := by
  unfold Below
  rw [layers_ofLayers]

theorem probe_later (s : Supply) : s.next ≤ (probe s).2.next := Nat.le_add_right s.next 2

theorem probe_below (s : Supply) : (probe s).1.Below (probe s).2 := by
  rw [probe_run]
  exact ⟨Nat.lt_add_of_pos_right Nat.two_pos, Nat.lt_succ_self _⟩

end Context

namespace Search

def mover : Search → Context → Formula → Side → Context → Transformation
  | importing => .extract
  | exporting => .insert

def Movable (search : Search) (outer : Context) (b : Formula) (inner : Context) : Prop :=
  match search with
  | importing => outer.variance = .covariant ∧ outer.ImportDefined b
  | exporting =>
    outer.variance = .contravariant ∧ inner.variance = .covariant ∧ outer.Passes b ∧ inner.Passes b

theorem Movable.exportDefined {outer inner : Context} {b : Formula}
    (movable : exporting.Movable outer b inner) : (inner.compose outer).ExportDefined b := by
  obtain ⟨contravariant, covariant, outside, inside⟩ := movable
  have joint : (inner.compose outer).variance = .contravariant := by
    rw [Context.variance_compose, covariant, contravariant]
    rfl
  exact (Context.exportDefined_iff _ b).mpr
    ⟨joint, Context.passes_compose.mpr ⟨outside, inside⟩⟩

section

variable {outer inner : Context} {b x : Formula} {s : Supply}

theorem gives_transformation? (search : Search) (hole : Side) :
    Gives (search.transformation? outer b hole inner x) s (fun found _ =>
      ∀ t, found = some t →
        t = search.mover outer b hole inner ∧ search.Movable outer b inner) := by
  cases search with
  | importing =>
      simp only [transformation?]
      split
      · rename_i covariant
        refine gives_bind (outer.gives_importDefined b _ s) ?_
        intro _ u everywhere
        refine gives_pure ?_
        rintro t ⟨⟩
        exact ⟨rfl, by simpa [Context.isCovariant] using covariant, everywhere⟩
      · exact gives_pure (by simp)
  | exporting =>
      simp only [transformation?]
      split
      · refine gives_bind_except ((Context.passes_of_pushAt_exportAt b).1 false inner x) ?_
        rintro _ ⟨covariant, within⟩
        refine gives_bind_except
          ((Context.passes_of_pushAt_exportAt b).2 (inner.compose outer) x) ?_
        rintro _ ⟨contravariant, passes⟩
        refine gives_pure ?_
        rintro t ⟨⟩
        rw [Context.variance_compose, covariant] at contravariant
        have around : outer.variance = .contravariant := by
          cases known : outer.variance with
          | covariant => rw [known] at contravariant; cases contravariant
          | contravariant => rfl
        exact ⟨rfl, around, covariant, (Context.passes_compose.mp passes).1, within⟩
      · exact gives_pure (by simp)

theorem yields_transformation? (search : Search) (hole : Side)
    (movable : search.Movable outer b inner) (around : outer.Below s) (within : inner.Below s)
    (side : b.Below s) (content : x.Below s) :
    Yields (search.transformation? outer b hole inner x) s (fun found _ =>
      found = some (search.mover outer b hole inner)) := by
  cases search with
  | importing =>
      obtain ⟨covariant, everywhere⟩ := movable
      rw [transformation?, if_pos (by simp [Context.isCovariant, covariant])]
      refine yields_bind (everywhere _ s around side (Context.fill_below within content)) ?_
      intro _ u _
      exact yields_pure rfl
  | exporting =>
      obtain ⟨g, exported, _⟩ := movable.exportDefined x
      obtain ⟨contravariant, covariant, _, inside⟩ := movable
      obtain ⟨f, pushed, _⟩ := (inner.pushDefined_iff b).mpr ⟨covariant, inside⟩ x
      rw [transformation?, if_pos (by simp [Context.isCovariant, covariant, contravariant])]
      refine yields_bind (yields_except (P := fun _ _ => True) ⟨f, pushed, trivial⟩) ?_
      intro _ _ _
      refine yields_bind (yields_except (P := fun _ _ => True) ⟨g, exported, trivial⟩) ?_
      intro _ _ _
      exact yields_pure rfl

theorem draws_transformation? (search : Search) (hole : Side) :
    Draws (search.transformation? outer b hole inner x) s (fun _ => True) (fun _ => []) := by
  have any (vs : List Var) : Among (fun _ => True) vs := fun _ _ => trivial
  cases search with
  | importing =>
      simp only [transformation?]
      split
      · refine draws_bind (outer.draws_importAt b _ s (any _) (any _) (any _)) ?_
        intro _ _ _
        exact draws_pure (among_nil _)
      · exact draws_pure (among_nil _)
  | exporting =>
      simp only [transformation?]
      split
      · refine draws_bind_except (V := fun _ => []) (by simp) (fun _ _ => ?_)
        refine draws_bind_except (V := fun _ => []) (by simp) (fun _ _ => ?_)
        exact draws_pure (among_nil _)
      · exact draws_pure (among_nil _)

end

inductive Selects (search : Search) (wanted : Formula → Bool) (outside inside : List Layer) :
    Layer → Candidate → Prop where
  | conj (hole : Side) (b : Formula) (chosen : wanted b = true)
      (movable : search.Movable (.ofLayers outside) b (.ofLayers inside)) :
      Selects search wanted outside inside (.conj .and hole b)
        ⟨b, search.mover (.ofLayers outside) b hole (.ofLayers inside),
          (Context.ofLayers inside).compose (.ofLayers outside)⟩

theorem candidate?_conj (search : Search) (wanted : Formula → Bool) (outside inside : List Layer)
    (hole : Side) (b : Formula) (chosen : wanted b = true) (s : Supply) :
    let tried := (search.transformation? (.ofLayers outside) b hole (.ofLayers inside)
      (Context.probe s).1).run (Context.probe s).2
    search.candidate? wanted outside (.conj .and hole b) inside s =
      ((tried.1.toOption.getD none).map fun t =>
        ⟨b, t, (Context.ofLayers inside).compose (.ofLayers outside)⟩, tried.2) := by
  intro tried
  rcases outcome : tried with ⟨(e | (_ | t)), u⟩ <;>
  · simp only [tried, Context.probe_run] at outcome
    simp only [candidate?, chosen, if_true, bind, StateT.bind, Context.probe_run, outcome]
    rfl

theorem candidate?_eq_none (search : Search) (wanted : Formula → Bool) (outside inside : List Layer)
    (layer : Layer) (unwanted : ∀ hole b, layer = .conj .and hole b → wanted b = false) :
    search.candidate? wanted outside layer inside = pure none := by
  unfold candidate?
  split
  · rw [unwanted _ _ rfl]
    rfl
  · rfl

theorem candidate?_later (search : Search) (wanted : Formula → Bool) (outside inside : List Layer)
    (layer : Layer) (s : Supply) :
    s.next ≤ (search.candidate? wanted outside layer inside s).2.next := by
  by_cases conjunction : ∃ hole b, layer = .conj .and hole b ∧ wanted b = true
  · obtain ⟨hole, b, rfl, chosen⟩ := conjunction
    rw [candidate?_conj search wanted outside inside hole b chosen s]
    exact Nat.le_trans (Context.probe_later s) (search.draws_transformation? hole).later
  · rw [candidate?_eq_none search wanted outside inside layer (by simpa using conjunction)]
    exact Nat.le_refl _

theorem candidate?_eq_some (search : Search) (wanted : Formula → Bool)
    {outside inside : List Layer} {layer : Layer} {s : Supply}
    (around : ∀ l ∈ outside, l.Below s) (here : layer.Below s) (within : ∀ l ∈ inside, l.Below s)
    (k : Candidate) :
    (search.candidate? wanted outside layer inside s).1 = some k ↔
      search.Selects wanted outside inside layer k := by
  by_cases conjunction : ∃ hole b, layer = .conj .and hole b ∧ wanted b = true
  · obtain ⟨hole, b, rfl, chosen⟩ := conjunction
    have drawn := Context.probe_later s
    rw [candidate?_conj search wanted outside inside hole b chosen s]
    constructor
    · intro found
      obtain ⟨t, present, rfl⟩ := Option.map_eq_some_iff.mp found
      rcases outcome : (search.transformation? (.ofLayers outside) b hole (.ofLayers inside)
        (Context.probe s).1).run (Context.probe s).2 with ⟨(e | t'), u⟩ <;> rw [outcome] at present
      · cases present
      · obtain ⟨rfl, movable⟩ := search.gives_transformation? hole _ u outcome t present
        exact .conj hole b chosen movable
    · rintro ⟨_, _, _, movable⟩
      obtain ⟨_, u, result, rfl⟩ := search.yields_transformation? hole movable
        ((Context.below_ofLayers.mpr around).mono drawn)
        ((Context.below_ofLayers.mpr within).mono drawn) (Formula.Below.mono here drawn)
        (Context.probe_below s)
      rw [result]
      rfl
  · rw [candidate?_eq_none search wanted outside inside layer (by simpa using conjunction)]
    refine ⟨(nomatch ·), ?_⟩
    rintro ⟨hole, b, chosen, _⟩
    exact (conjunction ⟨hole, b, rfl, chosen⟩).elim

theorem take_append_drop_at {ls : List Layer} {i : Nat} {l : Layer} (here : ls[i]? = some l) :
    ls.take i ++ l :: ls.drop (i + 1) = ls := by
  obtain ⟨inside, rfl⟩ := List.getElem?_eq_some_iff.mp here
  rw [List.getElem_cons_drop inside, List.take_append_drop]

/-- The candidate at a position of a list of layers. -/
def FoundAt (search : Search) (wanted : Formula → Bool) (ls : List Layer) (i : Nat)
    (k : Candidate) : Prop :=
  ∃ l, ls[i]? = some l ∧ search.Selects wanted (ls.take i) (ls.drop (i + 1)) l k

theorem FoundAt.unique {search : Search} {wanted : Formula → Bool} {ls : List Layer} {i : Nat}
    {k k' : Candidate} (first : search.FoundAt wanted ls i k)
    (second : search.FoundAt wanted ls i k') : k = k' := by
  obtain ⟨l, here, selected⟩ := first
  obtain ⟨l', here', selected'⟩ := second
  obtain rfl : l = l' := by simpa [here] using here'
  cases selected
  cases selected'
  rfl

theorem exists_foundAt_iff {search : Search} {wanted : Formula → Bool} {ls : List Layer} {i : Nat} :
    (∃ k, search.FoundAt wanted ls i k) ↔
      ∃ hole b, ls[i]? = some (.conj .and hole b) ∧ wanted b = true ∧
        search.Movable (.ofLayers (ls.take i)) b (.ofLayers (ls.drop (i + 1))) := by
  constructor
  · rintro ⟨k, l, here, hole, b, chosen, movable⟩
    exact ⟨hole, b, here, chosen, movable⟩
  · rintro ⟨hole, b, here, chosen, movable⟩
    exact ⟨_, _, here, .conj hole b chosen movable⟩

theorem FoundAt.among {search : Search} {wanted : Formula → Bool} {ls : List Layer} {i : Nat}
    {k : Candidate} (found : search.FoundAt wanted ls i k) {known : Var → Prop}
    (around : Among known (ls.flatMap Layer.vars)) : Among known k.vars := by
  obtain ⟨l, here, selected⟩ := found
  rw [← take_append_drop_at here] at around
  cases selected with
  | conj hole b chosen movable =>
      obtain ⟨outside, side, inside⟩ := by simpa [Layer.vars] using around
      cases search <;>
        simp [Candidate.vars, Transformation.vars, mover, Context.vars, Context.layers_compose,
          outside, side, inside]

/-- The candidates from a position on: one for each position that has one, in order. -/
def Enumerates (search : Search) (wanted : Formula → Bool) (ls : List Layer) (start : Nat)
    (found : List (Nat × Candidate)) : Prop :=
  found.Pairwise (fun p q => p.1 < q.1) ∧
    ∀ i k, (i, k) ∈ found ↔ start ≤ i ∧ search.FoundAt wanted ls i k

section

variable {search : Search} {wanted : Formula → Bool} {ls : List Layer} {start : Nat}
  {found : List (Nat × Candidate)}

theorem enumerates_end : search.Enumerates wanted ls ls.length [] := by
  refine ⟨.nil, fun i k => ⟨(nomatch ·), ?_⟩⟩
  rintro ⟨beyond, l, here, _⟩
  rw [List.getElem?_eq_none beyond] at here
  cases here

theorem enumerates_skip (absent : ∀ k, ¬ search.FoundAt wanted ls start k)
    (rest : search.Enumerates wanted ls (start + 1) found) :
    search.Enumerates wanted ls start found := by
  refine ⟨rest.1, fun i k => (rest.2 i k).trans ⟨?_, ?_⟩⟩
  · rintro ⟨beyond, here⟩
    exact ⟨Nat.le_of_lt beyond, here⟩
  · rintro ⟨beyond, here⟩
    refine ⟨Nat.lt_of_le_of_ne beyond ?_, here⟩
    rintro rfl
    exact absent k here

theorem enumerates_cons {k : Candidate} (here : search.FoundAt wanted ls start k)
    (rest : search.Enumerates wanted ls (start + 1) found) :
    search.Enumerates wanted ls start ((start, k) :: found) := by
  constructor
  · refine List.pairwise_cons.mpr ⟨?_, rest.1⟩
    rintro ⟨i, k'⟩ member
    exact ((rest.2 i k').mp member).1
  · intro i k'
    rw [List.mem_cons, rest.2 i k', Prod.mk.injEq]
    constructor
    · rintro (⟨rfl, rfl⟩ | ⟨beyond, there⟩)
      · exact ⟨Nat.le_refl _, here⟩
      · exact ⟨Nat.le_of_lt beyond, there⟩
    · rintro ⟨beyond, there⟩
      rcases Nat.eq_or_lt_of_le beyond with rfl | beyond
      · exact .inl ⟨rfl, there.unique here⟩
      · exact .inr ⟨beyond, there⟩

end

theorem amongLayers_cons (search : Search) (wanted : Formula → Bool) (limit : Option Nat)
    (more : limit ≠ some 0) (outside inside : List Layer) (layer : Layer) (s : Supply) :
    search.amongLayers wanted limit outside (layer :: inside) s =
      match search.candidate? wanted outside layer inside s with
      | (some k, t) =>
        let rest := search.amongLayers wanted (limit.map (· - 1)) (outside ++ [layer]) inside t
        (k :: rest.1, rest.2)
      | (none, t) => search.amongLayers wanted limit (outside ++ [layer]) inside t := by
  rw [amongLayers, if_neg more]
  simp only [bind, StateT.bind]
  rcases search.candidate? wanted outside layer inside s with ⟨(_ | k), t⟩ <;> rfl

theorem foundAt_length {search : Search} {wanted : Formula → Bool} {outside inside : List Layer}
    {layer : Layer} {k : Candidate} :
    search.FoundAt wanted (outside ++ layer :: inside) outside.length k ↔
      search.Selects wanted outside inside layer k := by
  simp [FoundAt]

/-- The whole search, by induction on the layers that are left. All variables stay below the
supply, since a step gives nothing back. -/
theorem amongLayers_enumerates (search : Search) (wanted : Formula → Bool)
    (outside rest : List Layer) (s : Supply) (below : ∀ l ∈ outside ++ rest, l.Below s) :
    ∃ found, (search.amongLayers wanted none outside rest s).1 = found.map Prod.snd ∧
      search.Enumerates wanted (outside ++ rest) outside.length found := by
  induction rest generalizing outside s with
  | nil => exact ⟨[], rfl, by simpa using enumerates_end⟩
  | cons layer inside ih =>
      obtain ⟨around, here, within⟩ := by simpa [or_imp, forall_and] using below
      have later := candidate?_later search wanted outside inside layer s
      have selects := candidate?_eq_some search wanted around here within
      rcases step : search.candidate? wanted outside layer inside s with ⟨selected, t⟩
      rw [step] at later selects
      obtain ⟨found, result, rest⟩ := ih (outside ++ [layer]) t
        (by simpa using fun l member => (below l member).mono later)
      rw [List.append_assoc, List.length_append] at rest
      rw [amongLayers_cons search wanted none (by simp), step]
      cases selected with
      | none =>
          refine ⟨found, result, enumerates_skip (fun k present => ?_) rest⟩
          cases (selects k).mpr (foundAt_length.mp present)
      | some k =>
          refine ⟨(outside.length, k) :: found, congrArg (k :: ·) result, ?_⟩
          exact enumerates_cons (foundAt_length.mpr ((selects k).mp rfl)) rest

theorem amongLayers_limit (search : Search) (wanted : Formula → Bool) (n : Nat)
    (outside rest : List Layer) (s : Supply) :
    (search.amongLayers wanted (some n) outside rest s).1 =
      (search.amongLayers wanted none outside rest s).1.take n := by
  induction rest generalizing n outside s with
  | nil => cases n <;> rfl
  | cons layer inside ih =>
      cases n with
      | zero => rfl
      | succ n =>
          rw [amongLayers_cons search wanted none (by simp),
            amongLayers_cons search wanted (some (n + 1)) (by simp)]
          rcases search.candidate? wanted outside layer inside s with ⟨(_ | k), t⟩
          · exact ih (n + 1) (outside ++ [layer]) t
          · exact congrArg (k :: ·) (ih n (outside ++ [layer]) t)

theorem amongLayers_among (search : Search) (wanted : Formula → Bool) (limit : Option Nat)
    (outside rest : List Layer) (s : Supply) (below : ∀ l ∈ outside ++ rest, l.Below s)
    {known : Var → Prop} (around : Among known ((outside ++ rest).flatMap Layer.vars)) :
    ∀ k ∈ (search.amongLayers wanted limit outside rest s).1, Among known k.vars := by
  intro k member
  obtain ⟨found, whole, _, exactly⟩ := search.amongLayers_enumerates wanted outside rest s below
  have present : k ∈ found.map Prod.snd := by
    cases limit with
    | none => rwa [whole] at member
    | some n =>
        rw [amongLayers_limit, whole] at member
        exact List.mem_of_mem_take member
  obtain ⟨⟨i, _⟩, place, rfl⟩ := List.mem_map.mp present
  exact ((exactly i _).mp place).2.among around

theorem amongLayers_later (search : Search) (wanted : Formula → Bool) (limit : Option Nat)
    (outside rest : List Layer) (s : Supply) :
    s.next ≤ (search.amongLayers wanted limit outside rest s).2.next := by
  induction rest generalizing limit outside s with
  | nil => cases limit <;> exact Nat.le_refl _
  | cons layer inside ih =>
      by_cases done : limit = some 0
      · rw [amongLayers, if_pos done]
        exact Nat.le_refl _
      · have later := candidate?_later search wanted outside inside layer s
        rw [amongLayers_cons search wanted limit done]
        rcases step : search.candidate? wanted outside layer inside s with ⟨selected, t⟩
        rw [step] at later
        cases selected with
        | none => exact Nat.le_trans later (ih limit (outside ++ [layer]) t)
        | some k => exact Nat.le_trans later (ih (limit.map (· - 1)) (outside ++ [layer]) t)

end Search

namespace Transformation

theorem extract_defined {outer : Context} {b : Formula} (covariant : outer.variance = .covariant)
    (everywhere : outer.ImportDefined b) (hole : Side) (inner : Context) (x : Formula) (s : Supply)
    (around : outer.Below s) (within : inner.Below s) (side : b.Below s) (content : x.Below s) :
    (extract outer b hole inner).DefinedAt x s := by
  have pulled := everywhere (inner.fill x) s around side (Context.fill_below within content)
  suffices leads : Yields ((extract outer b hole inner).arrowAt x) s (fun f _ =>
      f.Leads ((extract outer b hole inner).source x) ((extract outer b hole inner).target x)) by
    obtain ⟨f, u, result, leads⟩ := leads
    exact ⟨f, u, result, leads.source, leads.target⟩
  refine yields_bind pulled ?_
  rintro f t ⟨leads, _⟩
  cases hole with
  | right => exact yields_pure leads
  | left =>
      have swapped := Context.leads_mapArrow covariant
        (f := prim (.commute .and (inner.fill x) b)) (.of_eq rfl rfl)
      exact yields_except (Linked.joinAll swapped (.cons leads (.nil _)))

theorem insert_defined {outer inner : Context} {b : Formula}
    (contravariant : outer.variance = .contravariant) (pushes : inner.PushDefined false b)
    (hole : Side) (x : Formula) (s : Supply) : (insert outer b hole inner).DefinedAt x s := by
  obtain ⟨g, pushed, leads⟩ := pushes x
  suffices leads : Yields ((insert outer b hole inner).arrowAt x) s (fun f _ =>
      f.Leads ((insert outer b hole inner).source x) ((insert outer b hole inner).target x)) by
    obtain ⟨f, u, result, leads⟩ := leads
    exact ⟨f, u, result, leads.source, leads.target⟩
  refine yields_bind (yields_except (P := fun f _ => f = g) ⟨g, pushed, rfl⟩) ?_
  rintro _ t rfl
  cases hole with
  | right => exact yields_pure (Context.leads_mapArrow_back contravariant leads)
  | left =>
      obtain ⟨h, joined, placed⟩ := Linked.joinAll
        (f := prim (.commute .and (inner.fill x) b)) (.of_eq rfl rfl) (.cons leads (.nil _))
      refine yields_bind (yields_except (P := fun f _ => f = h) ⟨h, joined, rfl⟩) ?_
      rintro _ u rfl
      exact yields_pure (Context.leads_mapArrow_back contravariant placed)

end Transformation

namespace Context

theorem fill_at {c : Context} {i : Nat} {hole : Side} {b : Formula}
    (here : c.layers[i]? = some (.conj .and hole b)) (x : Formula) :
    c.fill x = (ofLayers (c.layers.take i)).fill
      (hole.place b ((ofLayers (c.layers.drop (i + 1))).fill x)) := by
  rw [fill_eq_layers, ← congrArg (List.foldr Layer.fill x) (Search.take_append_drop_at here),
    List.foldr_append, fill_eq_layers (ofLayers _), fill_eq_layers (ofLayers _), layers_ofLayers,
    layers_ofLayers]
  cases hole <;> rfl

theorem variance_at {c : Context} {i : Nat} {l : Layer} (here : c.layers[i]? = some l) :
    c.variance = (ofLayers (c.layers.take i)).variance.compose
      (l.variance.compose (ofLayers (c.layers.drop (i + 1))).variance) := by
  rw [variance_eq_layers, ← congrArg Layer.jointVariance (Search.take_append_drop_at here),
    Layer.jointVariance_append, variance_eq_layers (ofLayers _), variance_eq_layers (ofLayers _),
    layers_ofLayers, layers_ofLayers]
  rfl

theorem importSide_succeeds_iff (c : Context) (b : Formula) (s : Supply) (around : c.Below s)
    (side : b.Below s) :
    (∃ t u, (c.importSide b).run s = (.ok t, u)) ↔
      c.variance = .covariant ∧ c.ImportDefined b := by
  constructor
  · rintro ⟨t, u, result⟩
    refine ⟨?_, (c.gives_importSide b s t u result).2⟩
    by_cases covariant : c.variance = .covariant
    · exact covariant
    · simp only [importSide, expect, if_neg covariant] at result
      cases result
  · rintro ⟨covariant, everywhere⟩
    have drawn := probe_later s
    obtain ⟨f, u, tried, _⟩ := everywhere (probe s).1 (probe s).2 (around.mono drawn)
      (side.mono drawn) (probe_below s)
    exact (Transformation.importing c b).probed_succeeds (if_pos covariant) s tried

theorem candidates_enumerates (c : Context) (search : Search) (wanted : Formula → Bool)
    (s : Supply) (below : c.Below s) (fits : c.variance = search.variance) :
    ∃ found, (c.candidates search wanted none s).1 = found.map Prod.snd ∧
      (∀ n, (c.candidates search wanted (some n) s).1 = (found.map Prod.snd).take n) ∧
      search.Enumerates wanted c.layers 0 found := by
  obtain ⟨found, result, enumerates⟩ := search.amongLayers_enumerates wanted [] c.layers s below
  simp only [candidates, if_pos fits]
  refine ⟨found, result, fun n => ?_, enumerates⟩
  rw [search.amongLayers_limit, result]

theorem candidates_eq_nil (c : Context) (search : Search) (wanted : Formula → Bool)
    (limit : Option Nat) (s : Supply) (unfit : c.variance ≠ search.variance) :
    (c.candidates search wanted limit s).1 = [] := by
  rw [candidates, if_neg unfit]
  rfl

end Context

/-- The candidate holds the side formula of the conjunction at this position, and the
remainder is all the rest. -/
def Candidate.TakenFrom (k : Candidate) (c : Context) (i : Nat) : Prop :=
  (∃ hole, c.layers[i]? = some (.conj .and hole k.side)) ∧
    k.remainder.layers = c.layers.eraseIdx i

namespace Search.FoundAt

variable {c : Context} {wanted : Formula → Bool} {i : Nat} {k : Candidate}

theorem takenFrom {search : Search} (found : search.FoundAt wanted c.layers i k) :
    k.TakenFrom c i := by
  obtain ⟨l, here, selected⟩ := found
  cases selected with
  | conj hole b chosen movable =>
      refine ⟨⟨hole, here⟩, ?_⟩
      rw [Context.layers_compose, Context.layers_ofLayers, Context.layers_ofLayers,
        List.eraseIdx_eq_take_drop_succ]

theorem extracts (found : importing.FoundAt wanted c.layers i k) (x : Formula) (s : Supply)
    (below : c.Below s) (content : x.Below s) :
    ∃ f u, (k.transformation.arrowAt x).run s = (.ok f, u) ∧ f.source.alphaEq (c.fill x) ∧
      f.target.alphaEq (and k.side (k.remainder.fill x)) := by
  obtain ⟨l, here, selected⟩ := found
  have parts := below
  unfold Context.Below at parts
  rw [← take_append_drop_at here] at parts
  cases selected with
  | conj hole b chosen movable =>
      obtain ⟨around, side, within⟩ := by simpa [or_imp, forall_and] using parts
      rw [Context.fill_at here, Context.fill_compose]
      exact Transformation.extract_defined movable.1 movable.2 hole _ x s
        (Context.below_ofLayers.mpr around) (Context.below_ofLayers.mpr within) side content

theorem inserts (found : exporting.FoundAt wanted c.layers i k) (x : Formula) (s : Supply) :
    ∃ f u, (k.transformation.arrowAt x).run s = (.ok f, u) ∧
      f.source.alphaEq (k.remainder.fill (and k.side x)) ∧ f.target.alphaEq (c.fill x) := by
  obtain ⟨l, here, selected⟩ := found
  cases selected with
  | conj hole b chosen movable =>
      obtain ⟨contravariant, covariant, outside, inside⟩ := movable
      rw [Context.fill_at here, Context.fill_compose]
      have pushes := ((Context.ofLayers (c.layers.drop (i + 1))).pushDefined_iff b).mpr
        ⟨covariant, inside⟩
      exact Transformation.insert_defined contravariant pushes hole x s

theorem exports (found : exporting.FoundAt wanted c.layers i k) (s : Supply) :
    ∃ t u, (k.remainder.exportSide k.side).run s = (.ok t, u) := by
  obtain ⟨l, here, selected⟩ := found
  cases selected with
  | conj hole b chosen movable =>
      exact (Context.exportSide_succeeds_iff _ _ s).mpr movable.exportDefined

end Search.FoundAt

namespace Context

theorem candidates_later (c : Context) (search : Search) (wanted : Formula → Bool)
    (limit : Option Nat) (s : Supply) : s.next ≤ (c.candidates search wanted limit s).2.next := by
  unfold candidates
  split
  · exact search.amongLayers_later wanted limit [] c.layers s
  · exact Nat.le_refl _

theorem candidates_among {c : Context} (search : Search) (wanted : Formula → Bool)
    (limit : Option Nat) {s : Supply} (below : c.Below s) {known : Var → Prop}
    (around : Among known c.vars) :
    ∀ k ∈ (c.candidates search wanted limit s).1, Among known k.vars := by
  by_cases fits : c.variance = search.variance
  · rw [candidates, if_pos fits]
    exact search.amongLayers_among wanted limit [] c.layers s below around
  · rw [c.candidates_eq_nil search wanted limit s fits]
    exact nofun

theorem passes_around_iff {c : Context} {i : Nat} {b : Formula} :
    (ofLayers (c.layers.take i)).Passes b ∧ (ofLayers (c.layers.drop (i + 1))).Passes b ↔
      ∀ j l, j ≠ i → c.layers[j]? = some l → l.Passes b := by
  unfold Passes
  rw [layers_ofLayers, layers_ofLayers, ← List.forall_mem_append,
    ← List.eraseIdx_eq_take_drop_succ]
  simp only [List.mem_eraseIdx_iff_getElem?]
  constructor
  · intro passes j l other here
    exact passes l ⟨j, other, here⟩
  · rintro passes l ⟨j, other, here⟩
    exact passes j l other here

/-- The search for formulas to pull out of a context finds exactly the conjunctions out of
which import leads, from the outermost one on, and what it finds can be pulled out at every
content of the hole. -/
theorem import_candidates_exact (c : Context) (wanted : Formula → Bool) (s : Supply)
    (below : c.Below s) :
    (c.variance = .contravariant → ∀ limit, (c.candidates .importing wanted limit s).1 = []) ∧
      (c.variance = .covariant → ∃ found : List (Nat × Candidate),
        (c.candidates .importing wanted none s).1 = found.map Prod.snd ∧
        (∀ n, (c.candidates .importing wanted (some n) s).1 = (found.map Prod.snd).take n) ∧
        found.Pairwise (fun p q => p.1 < q.1) ∧
        (∀ i s', c.Below s' → ((∃ k, (i, k) ∈ found) ↔
          ∃ hole b, c.layers[i]? = some (.conj .and hole b) ∧ wanted b ∧
            (ofLayers (c.layers.take i)).variance = .covariant ∧
            ∃ t u, ((ofLayers (c.layers.take i)).importSide b).run s' = (.ok t, u))) ∧
        ∀ i k, (i, k) ∈ found → k.TakenFrom c i ∧
          ∀ x s', c.Below s' → x.Below s' →
            ∃ f u, (k.transformation.arrowAt x).run s' = (.ok f, u) ∧
              f.source.alphaEq (c.fill x) ∧
              f.target.alphaEq (and k.side (k.remainder.fill x))) := by
  constructor
  · intro contravariant limit
    exact c.candidates_eq_nil .importing wanted limit s (by simp [contravariant, Search.variance])
  · intro covariant
    obtain ⟨found, whole, firsts, ordered, exactly⟩ :=
      c.candidates_enumerates .importing wanted s below covariant
    refine ⟨found, whole, firsts, ordered, fun i s' below' => ?_, fun i k member => ?_⟩
    · simp only [exactly, Nat.zero_le, true_and, Search.exists_foundAt_iff]
      refine exists_congr fun hole => exists_congr fun b => and_congr_right fun here =>
        and_congr_right fun _ => ?_
      have side : b.Below s' := below' _ (List.mem_of_getElem? here)
      have around : (ofLayers (c.layers.take i)).Below s' :=
        below_ofLayers.mpr fun l member => below' l (List.mem_of_mem_take member)
      rw [importSide_succeeds_iff _ b s' around side]
      exact and_self_left.symm
    · have present := ((exactly i k).mp member).2
      exact ⟨present.takenFrom, fun x s' below' content => present.extracts x s' below' content⟩

/-- A formula is pulled out from below an exponential. -/
theorem exponential_candidate_found :
    let o : Formula := .holds ⟨0⟩ ⟨0⟩
    let b : Formula := .always (.quant .ex ⟨1⟩ (.holds ⟨1⟩ ⟨0⟩))
    let c : Context := .comp (.layer (.conj .and .left b))
      (.comp (.layer .always) (.layer (.conj .and .right o)))
    c.Below ⟨2⟩ ∧ c.variance = .covariant ∧
      ∃ k ∈ (c.candidates .importing (fun _ => true) none ⟨2⟩).1, k.TakenFrom c 2 ∧
        ∃ f u, (k.transformation.arrowAt o).run ⟨2⟩ = (.ok f, u) ∧
          f.source.alphaEq (c.fill o) ∧ f.target.alphaEq (and k.side (k.remainder.fill o)) := by
  intro o b c
  have below : c.Below ⟨2⟩ := by decide
  have outer : ofLayers (c.layers.take 2) =
      .comp (.layer .always) (.layer (.conj .and .right o)) := rfl
  have reached : ((ofLayers (c.layers.take 2)).importSide b).run ⟨2⟩ =
      (.ok (.importing (ofLayers (c.layers.take 2)) b), ⟨5⟩) := by
    rw [outer]
    simp only [importSide, importAt]
    rfl
  obtain ⟨found, whole, _, _, exactly, sound⟩ :=
    (import_candidates_exact c (fun _ => true) ⟨2⟩ below).2 rfl
  obtain ⟨k, member⟩ := (exactly 2 ⟨2⟩ below).mpr ⟨.left, b, rfl, rfl, rfl, _, _, reached⟩
  refine ⟨below, rfl, k, ?_, (sound 2 k member).1, ?_⟩
  · rw [whole]
    exact List.mem_map.mpr ⟨(2, k), member, rfl⟩
  · exact (sound 2 k member).2 o ⟨2⟩ below (by decide)

/-- The search for formulas to move down to the hole finds exactly the conjunctions in a
contravariant position whose side formula passes all other layers. What it finds can be
moved at every content of the hole, and the rest of the context meets the demand for it. -/
theorem export_candidates_exact (c : Context) (wanted : Formula → Bool) (s : Supply)
    (below : c.Below s) :
    (c.variance = .covariant → ∀ limit, (c.candidates .exporting wanted limit s).1 = []) ∧
      (c.variance = .contravariant → ∃ found : List (Nat × Candidate),
        (c.candidates .exporting wanted none s).1 = found.map Prod.snd ∧
        (∀ n, (c.candidates .exporting wanted (some n) s).1 = (found.map Prod.snd).take n) ∧
        found.Pairwise (fun p q => p.1 < q.1) ∧
        (∀ i, (∃ k, (i, k) ∈ found) ↔
          ∃ hole b, c.layers[i]? = some (.conj .and hole b) ∧ wanted b ∧
            (ofLayers (c.layers.take i)).variance = .contravariant ∧
            ∀ j l, j ≠ i → c.layers[j]? = some l → l.Passes b) ∧
        ∀ i k, (i, k) ∈ found → k.TakenFrom c i ∧
          (∀ x s', ∃ f u, (k.transformation.arrowAt x).run s' = (.ok f, u) ∧
            f.source.alphaEq (k.remainder.fill (and k.side x)) ∧ f.target.alphaEq (c.fill x)) ∧
          ∀ s', ∃ t u, (k.remainder.exportSide k.side).run s' = (.ok t, u)) := by
  constructor
  · intro covariant limit
    exact c.candidates_eq_nil .exporting wanted limit s (by simp [covariant, Search.variance])
  · intro contravariant
    obtain ⟨found, whole, firsts, ordered, exactly⟩ :=
      c.candidates_enumerates .exporting wanted s below contravariant
    refine ⟨found, whole, firsts, ordered, fun i => ?_, fun i k member => ?_⟩
    · simp only [exactly, Nat.zero_le, true_and, Search.exists_foundAt_iff]
      refine exists_congr fun hole => exists_congr fun b => and_congr_right fun here =>
        and_congr_right fun _ => and_congr_right fun around => ?_
      have within : (ofLayers (c.layers.drop (i + 1))).variance = .covariant := by
        rw [variance_at here, around] at contravariant
        cases known : (ofLayers (c.layers.drop (i + 1))).variance with
        | covariant => rfl
        | contravariant => rw [known] at contravariant; cases contravariant
      simp only [within, true_and]
      exact passes_around_iff
    · have present := ((exactly i k).mp member).2
      exact ⟨present.takenFrom, fun x s' => present.inserts x s', fun s' => present.exports s'⟩

/-- A formula is moved down through a quantifier and an exponential below a negation. -/
theorem denied_candidate_found :
    let o : Formula := .holds ⟨0⟩ ⟨0⟩
    let b : Formula := .always o
    let c : Context := .comp (.comp (.layer .always) (.layer (.quant .ex ⟨1⟩)))
      (.comp (.layer (.conj .and .left b)) (.layer .not))
    c.Below ⟨2⟩ ∧ c.variance = .contravariant ∧
      ∃ k ∈ (c.candidates .exporting (fun _ => true) none ⟨2⟩).1, k.TakenFrom c 1 ∧
        ∃ f u, (k.transformation.arrowAt o).run ⟨2⟩ = (.ok f, u) ∧
          f.source.alphaEq (k.remainder.fill (and k.side o)) ∧ f.target.alphaEq (c.fill o) := by
  intro o b c
  have below : c.Below ⟨2⟩ := by decide
  have passes (j : Nat) (l : Layer) (_ : j ≠ 1) (here : c.layers[j]? = some l) : l.Passes b := by
    have every : ∀ l ∈ c.layers, l.Passes b := by decide
    exact every l (List.mem_of_getElem? here)
  obtain ⟨found, whole, _, _, exactly, sound⟩ :=
    (export_candidates_exact c (fun _ => true) ⟨2⟩ below).2 rfl
  obtain ⟨k, member⟩ := (exactly 1).mpr ⟨.left, b, rfl, rfl, rfl, passes⟩
  refine ⟨below, rfl, k, ?_, (sound 1 k member).1, ?_⟩
  · rw [whole]
    exact List.mem_map.mpr ⟨(1, k), member, rfl⟩
  · exact (sound 1 k member).2.1 o ⟨2⟩

end Context

end LinearCalculus
