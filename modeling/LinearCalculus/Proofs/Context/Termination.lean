import LinearCalculus.Proofs.Context.Definedness

/-! Moving a formula across a context ends.

Import, push and export call themselves and each other on the two parts of a composite context, or
on a context that is put together anew from the layers left over where two negations met. The latter
is no part of the composite. What gets smaller is the number of layers, but only because no part of
a composite is a bare hole: `compose` sees to that, and the calls keep it. `calls` lists the calls;
they settle the answer, so the recursion goes no deeper than there are layers. -/

namespace LinearCalculus

open Formula (and)

namespace Context

inductive Built : Context → Prop where
  | hole : Built hole
  | layer (l : Layer) : Built (layer l)
  | compose {inner outer : Context} (within : Built inner) (around : Built outer) :
      Built (inner.compose outer)

def subcontexts : Context → List Context
  | hole => [hole]
  | layer l => [layer l]
  | comp inner outer => comp inner outer :: (inner.subcontexts ++ outer.subcontexts)

/-- No part of a composite is a bare hole. -/
def Compact (c : Context) : Prop :=
  ∀ inner outer, comp inner outer ∈ c.subcontexts → inner ≠ hole ∧ outer ≠ hole

theorem compact_hole : Compact hole := by
  intro inner outer member
  cases List.mem_singleton.mp member

theorem compact_layer (l : Layer) : Compact (layer l) := by
  intro inner outer member
  cases List.mem_singleton.mp member

section

variable {inner outer : Context}

theorem compact_comp :
    (comp inner outer).Compact ↔
      (inner ≠ hole ∧ outer ≠ hole) ∧ inner.Compact ∧ outer.Compact := by
  constructor
  · intro compact
    refine ⟨compact inner outer List.mem_cons_self, ?_, ?_⟩
    · intro c d member
      exact compact c d (List.mem_cons_of_mem _ (List.mem_append_left _ member))
    · intro c d member
      exact compact c d (List.mem_cons_of_mem _ (List.mem_append_right _ member))
  · rintro ⟨here, within, around⟩ c d member
    rcases List.mem_cons.mp member with same | below
    · cases same
      exact here
    · rcases List.mem_append.mp below with inside | outside
      · exact within c d inside
      · exact around c d outside

theorem compose_of_ne_hole (within : inner ≠ hole) (around : outer ≠ hole) :
    inner.compose outer = comp inner outer := by
  have inner_full : ¬ inner.isHole := mt (eq_hole_of_isHole inner) within
  have outer_full : ¬ outer.isHole := mt (eq_hole_of_isHole outer) around
  rw [compose, if_neg inner_full, if_neg outer_full]

theorem compact_compose (within : inner.Compact) (around : outer.Compact) :
    (inner.compose outer).Compact := by
  unfold compose
  split
  · exact around
  · rename_i inner_full
    split
    · exact within
    · rename_i outer_full
      refine compact_comp.mpr ⟨⟨?_, ?_⟩, within, around⟩
      · rintro rfl
        exact inner_full rfl
      · rintro rfl
        exact outer_full rfl

end

theorem built_iff_compact {c : Context} : c.Built ↔ c.Compact := by
  constructor
  · intro built
    induction built with
    | hole => exact compact_hole
    | layer l => exact compact_layer l
    | compose _ _ within around => exact compact_compose within around
  · intro compact
    induction c with
    | hole => exact .hole
    | layer l => exact .layer l
    | comp inner outer first second =>
        rcases compact_comp.mp compact with ⟨⟨inner_full, outer_full⟩, within, around⟩
        rw [← compose_of_ne_hole inner_full outer_full]
        exact .compose (first within) (second around)

theorem built_nest (contexts : List Context) (all : ∀ c ∈ contexts, c.Built) :
    (nest contexts).Built := by
  induction contexts with
  | nil => exact .hole
  | cons outer contexts ih =>
      rcases List.forall_mem_cons.mp all with ⟨around, within⟩
      exact .compose (ih within) around

theorem built_ofLayers (ls : List Layer) : (ofLayers ls).Built := by
  apply built_nest
  intro c member
  rcases List.mem_map.mp member with ⟨l, _, rfl⟩
  exact .layer l

section

variable {inner outer inner' outer' : Context}

theorem built_of_bridge? (found : bridge? inner outer = some (outer', inner')) :
    (inner'.compose outer').Built := by
  unfold bridge? at found
  split at found
  · cases found
    exact .compose (built_ofLayers _) (built_ofLayers _)
  · cases found

theorem length_layers_of_bridge? (found : bridge? inner outer = some (outer', inner')) :
    (inner'.compose outer').layers.length + 2 = (comp inner outer).layers.length := by
  rcases layers_of_bridge? found with ⟨around, inside⟩
  rw [layers_compose, layers, around, inside]
  simp only [List.length_append, List.length_cons, List.length_nil]
  omega

end

theorem Compact.length_layers_pos {c : Context} (compact : c.Compact) (full : c ≠ hole) :
    0 < c.layers.length := by
  induction c with
  | hole => exact absurd rfl full
  | layer l => exact Nat.one_pos
  | comp inner outer first second =>
      rcases compact_comp.mp compact with ⟨⟨inner_full, _⟩, within, _⟩
      have inside := first within inner_full
      rw [layers, List.length_append]
      omega

/-- The contexts that the operations turn to in order to cross a context. -/
def pieces : Context → List Context
  | hole | layer _ => []
  | comp inner outer =>
    inner :: outer ::
      match bridge? inner outer with
      | some (outer', inner') => [inner'.compose outer']
      | none => []

/-- Neither part of a composite has all the layers, because the other part has some. -/
theorem built_pieces {c : Context} (built : c.Built) :
    ∀ d ∈ c.pieces, d.Built ∧ d.layers.length < c.layers.length := by
  cases c with
  | hole | layer l => exact List.forall_mem_nil _
  | comp inner outer =>
      rcases compact_comp.mp (built_iff_compact.mp built) with
        ⟨⟨inner_full, outer_full⟩, within, around⟩
      have inside := within.length_layers_pos inner_full
      have outside := around.length_layers_pos outer_full
      have whole : (comp inner outer).layers.length = outer.layers.length + inner.layers.length :=
        List.length_append
      rw [pieces, List.forall_mem_cons, List.forall_mem_cons]
      refine ⟨⟨built_iff_compact.mpr within, by omega⟩, ⟨built_iff_compact.mpr around, by omega⟩, ?_⟩
      cases found : bridge? inner outer with
      | none => exact List.forall_mem_nil _
      | some parts =>
          have less := length_layers_of_bridge? found
          exact List.forall_mem_singleton.mpr ⟨built_of_bridge? found, by omega⟩

/-- Import, with `imported` for the calls of itself. -/
def importBy (imported : Context → Formula → Formula → ExceptT TransportError Fresh Arrow)
    (c : Context) (b x : Formula) : ExceptT TransportError Fresh Arrow :=
  match c with
  | hole => pure (.identity (and b x))
  | layer l => l.importAt b x
  | comp inner outer =>
    match inner.variance, outer.variance with
    | .covariant, .covariant => do
      let inside ← imported inner b x
      let outside ← imported outer b (inner.fill x)
      (outer.mapArrow inside).joinAll [outside]
    | .contravariant, .contravariant =>
      match bridge? inner outer with
      | some (outer', inner') => do
        let through ← imported (inner'.compose outer') b x
        (outer'.mapArrow (.prim (.removeDoubleDual (inner'.fill (and b x))))).joinAll
          [through,
            .onRight .and b (outer'.mapArrow (.prim (.introDoubleDual (inner'.fill x))))]
      | none => throw (.untransportable (comp inner outer) b)
    | _, _ => throw (.untransportable (comp inner outer) b)

theorem importAt_eq_importBy (c : Context) (b x : Formula) :
    c.importAt b x = importBy importAt c b x := by
  cases c with
  | hole | layer l => rw [importAt, importBy]
  | comp inner outer =>
      rewrite [importAt, importBy]
      cases inner.variance <;> cases outer.variance
      case contravariant.contravariant => cases bridge? inner outer <;> rfl
      all_goals rfl

section

variable (pushed : Bool → Context → Formula → Formula → Except TransportError Arrow)
  (exported : Context → Formula → Formula → Except TransportError Arrow)

def pushBy (invertible : Bool) (c : Context) (b x : Formula) : Except TransportError Arrow :=
  match c with
  | hole => .ok (.identity (and b x))
  | layer l => l.pushAt invertible b x
  | comp inner outer =>
    match inner.variance, outer.variance with
    | .covariant, .covariant => do
      let outside ← pushed invertible outer b (inner.fill x)
      let inside ← pushed invertible inner b x
      outside.joinAll [outer.mapArrow inside]
    | .contravariant, .contravariant =>
      match bridge? inner outer with
      | some (outer', inner') => do
        let through ← pushed invertible (inner'.compose outer') b x
        (Arrow.onRight .and b
            (outer'.mapArrow (.prim (.removeDoubleDual (inner'.fill x))))).joinAll
          [through, outer'.mapArrow (.prim (.introDoubleDual (inner'.fill (and b x))))]
      | none =>
        if invertible then .error (.untransportable (comp inner outer) b)
        else do
          let inside ← exported inner b x
          let outside ← exported outer b (inner.fill (and b x))
          (Arrow.onRight .and b (outer.mapArrow inside)).joinAll [outside]
    | _, _ => .error (.untransportable (comp inner outer) b)

def exportBy (c : Context) (b x : Formula) : Except TransportError Arrow :=
  match c with
  | hole => .error (.untransportable hole b)
  | layer l => l.exportAt b x
  | comp inner outer =>
    match inner.variance, outer.variance with
    | .contravariant, .covariant => do
      let outside ← pushed false outer b (inner.fill (and b x))
      let inside ← exported inner b x
      outside.joinAll [outer.mapArrow inside]
    | .covariant, .contravariant => do
      let inside ← pushed false inner b x
      let outside ← exported outer b (inner.fill x)
      (Arrow.onRight .and b (outer.mapArrow inside)).joinAll [outside]
    | _, _ => .error (.untransportable (comp inner outer) b)

end

theorem pushAt_eq_pushBy (invertible : Bool) (c : Context) (b x : Formula) :
    c.pushAt invertible b x =
      pushBy (fun invertible c => c.pushAt invertible) exportAt invertible c b x := by
  cases c with
  | hole | layer l => rw [pushAt, pushBy]
  | comp inner outer =>
      rewrite [pushAt, pushBy]
      cases inner.variance <;> cases outer.variance
      case contravariant.contravariant => cases bridge? inner outer <;> rfl
      all_goals rfl

theorem exportAt_eq_exportBy (c : Context) (b x : Formula) :
    c.exportAt b x = exportBy (fun invertible c => c.pushAt invertible) exportAt c b x := by
  cases c with
  | hole | layer l => rw [exportAt, exportBy]
  | comp inner outer =>
      rewrite [exportAt, exportBy]
      cases inner.variance <;> cases outer.variance <;> rfl

end Context

open Context

/-- A use of one of the operations that call each other. -/
inductive Transport where
  | importing (c : Context) (b x : Formula)
  | pushing (invertible : Bool) (c : Context) (b x : Formula)
  | exporting (c : Context) (b x : Formula)
  deriving DecidableEq, Repr

namespace Transport

def context : Transport → Context
  | importing c _ _ | pushing _ c _ _ | exporting c _ _ => c

/-- Only import draws variables. -/
@[reducible] def Outcome : Transport → Type
  | importing _ _ _ => ExceptT TransportError Fresh Arrow
  | pushing _ _ _ _ | exporting _ _ _ => Except TransportError Arrow

def outcome : (t : Transport) → t.Outcome
  | importing c b x => c.importAt b x
  | pushing invertible c b x => c.pushAt invertible b x
  | exporting c b x => c.exportAt b x

/-- The calls that the operation makes unless an earlier one fails. -/
def calls : Transport → List Transport
  | importing c b x =>
    match c with
    | hole | layer _ => []
    | comp inner outer =>
      match inner.variance, outer.variance with
      | .covariant, .covariant => [importing inner b x, importing outer b (inner.fill x)]
      | .contravariant, .contravariant =>
        match bridge? inner outer with
        | some (outer', inner') => [importing (inner'.compose outer') b x]
        | none => []
      | _, _ => []
  | pushing invertible c b x =>
    match c with
    | hole | layer _ => []
    | comp inner outer =>
      match inner.variance, outer.variance with
      | .covariant, .covariant =>
        [pushing invertible outer b (inner.fill x), pushing invertible inner b x]
      | .contravariant, .contravariant =>
        match bridge? inner outer with
        | some (outer', inner') => [pushing invertible (inner'.compose outer') b x]
        | none =>
          if invertible then []
          else [exporting inner b x, exporting outer b (inner.fill (and b x))]
      | _, _ => []
  | exporting c b x =>
    match c with
    | hole | layer _ => []
    | comp inner outer =>
      match inner.variance, outer.variance with
      | .contravariant, .covariant =>
        [pushing false outer b (inner.fill (and b x)), exporting inner b x]
      | .covariant, .contravariant => [pushing false inner b x, exporting outer b (inner.fill x)]
      | _, _ => []

theorem context_of_calls (t : Transport) : ∀ u ∈ t.calls, u.context ∈ t.context.pieces := by
  fun_cases calls t <;> simp_all [context, pieces]

theorem built_of_calls {t u : Transport} (built : t.context.Built) (called : u ∈ t.calls) :
    u.context.Built ∧ u.context.layers.length < t.context.layers.length :=
  built_pieces built u.context (context_of_calls t u called)

theorem calls_wellFounded :
    WellFounded (fun u t : { t : Transport // t.context.Built } => u.val ∈ t.val.calls) :=
  Subrelation.wf (fun {_ t} called => (built_of_calls t.property called).2)
    (measure fun t : { t : Transport // t.context.Built } => t.val.context.layers.length).wf

/-- One level of the recursion: what the operation answers if `next` answers its calls. -/
def step (next : (t : Transport) → t.Outcome) : (t : Transport) → t.Outcome
  | importing c b x => importBy (fun c b x => next (importing c b x)) c b x
  | pushing invertible c b x =>
    pushBy (fun invertible c b x => next (pushing invertible c b x))
      (fun c b x => next (exporting c b x)) invertible c b x
  | exporting c b x =>
    exportBy (fun invertible c b x => next (pushing invertible c b x))
      (fun c b x => next (exporting c b x)) c b x

theorem outcome_eq_step (t : Transport) : t.outcome = step outcome t := by
  cases t with
  | importing c b x => exact importAt_eq_importBy c b x
  | pushing invertible c b x => exact pushAt_eq_pushBy invertible c b x
  | exporting c b x => exact exportAt_eq_exportBy c b x

section

variable (next next' : (t : Transport) → t.Outcome)

theorem step_congr (t : Transport) (agree : ∀ u ∈ t.calls, next u = next' u) :
    step next t = step next' t := by
  revert agree
  -- In each case both sides run one program, so that it is enough to exchange the answers in it.
  fun_cases calls t <;> intro agree <;> simp_all [step, importBy, pushBy, exportBy]

theorem step_of_calls (t : Transport) (agree : ∀ u ∈ t.calls, next u = u.outcome) :
    step next t = t.outcome := by
  rw [outcome_eq_step t]
  exact step_congr next outcome t agree

end

def refusal : (t : Transport) → t.Outcome
  | importing c b _ => (throw (.untransportable c b) : ExceptT TransportError Fresh Arrow)
  | pushing _ c b _ | exporting c b _ => .error (.untransportable c b)

/-- The recursion for a number of levels, with `rest` for the calls below them. -/
def levels (rest : (t : Transport) → t.Outcome) : Nat → (t : Transport) → t.Outcome
  | 0 => rest
  | n + 1 => step (levels rest n)

theorem levels_eq_outcome (rest : (t : Transport) → t.Outcome) (n : Nat) (t : Transport)
    (built : t.context.Built) (enough : t.context.layers.length < n) :
    levels rest n t = t.outcome := by
  induction n generalizing t with
  | zero => exact absurd enough (Nat.not_lt_zero _)
  | succ n ih =>
      apply step_of_calls
      intro u called
      rcases built_of_calls built called with ⟨built', less⟩
      exact ih u built' (by omega)

/-- Import, push and export end on every context that can be put together. No part of a composite
in it is a bare hole. So each call is about such a context again, with fewer layers; about one with
two layers less, where it removes a double negation. Which use calls which other one is therefore
well-founded. The calls are all that an answer depends on, and so the answer is known after one
level of the recursion more than there are layers. -/
theorem transport_terminates :
    (∀ c : Context, c.Built ↔
        ∀ inner outer, comp inner outer ∈ c.subcontexts → inner ≠ hole ∧ outer ≠ hole) ∧
      (∀ inner outer inner' outer' : Context, bridge? inner outer = some (outer', inner') →
        (inner'.compose outer').layers.length + 2 = (comp inner outer).layers.length) ∧
      (∀ t : Transport, t.context.Built → ∀ u ∈ t.calls,
        u.context.Built ∧ u.context.layers.length < t.context.layers.length) ∧
      WellFounded (fun u t : { t : Transport // t.context.Built } => u.val ∈ t.val.calls) ∧
      (∀ (t : Transport) (next : (t : Transport) → t.Outcome),
        (∀ u ∈ t.calls, next u = u.outcome) → step next t = t.outcome) ∧
      ∀ (t : Transport) (rest : (t : Transport) → t.Outcome) (n : Nat), t.context.Built →
        t.context.layers.length < n → levels rest n t = t.outcome := by
  refine ⟨fun c => built_iff_compact, ?_, ?_, calls_wellFounded, ?_, ?_⟩
  · intro inner outer inner' outer' found
    exact length_layers_of_bridge? found
  · intro t built u called
    exact built_of_calls built called
  · intro t next agree
    exact step_of_calls next t agree
  · intro t rest n built enough
    exact levels_eq_outcome rest n t built enough

/-- Two negations meet inside a composite of composites. What they leave is found nowhere in it.
With its four layers, five levels of the recursion give the answer. -/
theorem transport_terminates_across_bridge :
    let o : Formula := .holds ⟨0⟩ ⟨1⟩
    let b : Formula := .always (.holds ⟨2⟩ ⟨3⟩)
    let x : Formula := .holds ⟨1⟩ ⟨2⟩
    let beside := layer (.conj .and .left o)
    let inner := comp beside (layer .not)
    let outer := comp (layer .not) (layer .always)
    let c := comp inner outer
    let through := comp beside (layer .always)
    let t := pushing false c b x
    let u := pushing false through b x
    c.Built ∧ bridge? inner outer = some (layer .always, beside) ∧ through ∉ c.subcontexts ∧
      through.layers.length + 2 = c.layers.length ∧ u ∈ t.calls ∧
      u.context.layers.length < t.context.layers.length ∧
      (∀ u ∈ t.calls, levels refusal 4 u = u.outcome) ∧
      step (levels refusal 4) t = t.outcome ∧ levels refusal 5 t = t.outcome ∧
      (c.pushAt false b x).isOk := by
  intro o b x beside inner outer c through t u
  rcases transport_terminates with ⟨_, bridged, less, _, settled, known⟩
  have built : c.Built :=
    .compose (.compose (.layer _) (.layer _)) (.compose (.layer _) (.layer _))
  have found : bridge? inner outer = some (layer .always, beside) := rfl
  have called : u ∈ t.calls := List.mem_singleton.mpr rfl
  have agree : ∀ u ∈ t.calls, levels refusal 4 u = u.outcome := by
    intro u called
    rcases less t built u called with ⟨built', fewer⟩
    exact known u refusal 4 built' fewer
  have answer : levels refusal 5 t = c.pushAt false b x := known t refusal 5 built (by decide)
  refine ⟨built, found, by decide, bridged inner outer _ _ found, called, (less t built u called).2,
    agree, settled t _ agree, answer, ?_⟩
  rw [← answer]
  decide

end Transport

end LinearCalculus
