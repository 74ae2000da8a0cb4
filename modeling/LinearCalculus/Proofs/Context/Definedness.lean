import LinearCalculus.Proofs.Context.Filling
import LinearCalculus.Proofs.Context.Typing

namespace LinearCalculus

open Formula (and alphaEq_symm alphaEq_trans)
open Arrow

def Layer.Below (s : Supply) : Layer → Prop
  | not | always => True
  | quant _ v => v.id < s.next
  | conj _ _ other => other.Below s

instance Layer.Below.decide (s : Supply) : (l : Layer) → Decidable (l.Below s)
  | not | always => inferInstanceAs (Decidable True)
  | quant _ v => inferInstanceAs (Decidable (v.id < s.next))
  | conj _ _ other => inferInstanceAs (Decidable (other.Below s))

theorem Layer.Below.mono {s t : Supply} {l : Layer} (below : l.Below s) (later : s.next ≤ t.next) :
    l.Below t := by
  cases l with
  | not | always => trivial
  | quant q v => exact Nat.lt_of_lt_of_le below later
  | conj k hole other => exact Formula.Below.mono below later

theorem Layer.fill_below {l : Layer} {x : Formula} {s : Supply} (around : l.Below s)
    (inside : x.Below s) : (l.fill x).Below s := by
  cases l with
  | not | always => exact inside
  | quant q v => exact ⟨around, inside⟩
  | conj k hole other =>
      cases hole with
      | left => exact ⟨inside, around⟩
      | right => exact ⟨around, inside⟩

namespace Context

def Below (c : Context) (s : Supply) : Prop := ∀ l ∈ c.layers, l.Below s

instance Below.decide (c : Context) (s : Supply) : Decidable (c.Below s) :=
  inferInstanceAs (Decidable (∀ l ∈ c.layers, l.Below s))

theorem Below.mono {s t : Supply} {c : Context} (below : c.Below s) (later : s.next ≤ t.next) :
    c.Below t :=
  fun l member => (below l member).mono later

theorem fill_below {c : Context} {x : Formula} {s : Supply} (around : c.Below s)
    (inside : x.Below s) : (c.fill x).Below s := by
  rw [fill_eq_layers]
  unfold Below at around
  revert around
  generalize c.layers = ls
  intro around
  induction ls with
  | nil => exact inside
  | cons l ls ih =>
      obtain ⟨here, below⟩ := List.forall_mem_cons.mp around
      exact Layer.fill_below here (ih below)

/-- `b` can be pulled out of the hole, whatever else is in it. -/
def ImportDefined (c : Context) (b : Formula) : Prop :=
  ∀ (x : Formula) (s : Supply), c.Below s → b.Below s → x.Below s →
    Yields (c.importAt b x) s (fun f t =>
      f.Leads (c.fill (and b x)) (and b (c.fill x)) ∧ s.next ≤ t.next)

def PushDefined (invertible : Bool) (c : Context) (b : Formula) : Prop :=
  ∀ x, ∃ f, c.pushAt invertible b x = .ok f ∧ f.Leads (and b (c.fill x)) (c.fill (and b x))

def ExportDefined (c : Context) (b : Formula) : Prop :=
  ∀ x, ∃ f, c.exportAt b x = .ok f ∧ f.Leads (and b (c.fill (and b x))) (c.fill x)

end Context

namespace Arrow

theorem Linked.joinAll {f : Arrow} {rest : List Arrow} {a b c : Formula} (first : f.Leads a b)
    (linked : Linked rest b c) : ∃ h, f.joinAll rest = .ok h ∧ h.Leads a c := by
  obtain ⟨h, chained, leads⟩ := Linked.chain first linked
  exact ⟨h, mapError_eq_ok.mpr chained, leads⟩

theorem fitting_prim {p : Primitive} (clear : p.fault? = none) :
    (prim p).fitting = .ok (prim p) :=
  mapError_eq_ok.mpr ((checked_eq_ok_iff (prim p) _).mpr ⟨clear, rfl⟩)

end Arrow

namespace Layer

theorem notCaptured_eq_ok {v : Var} {b : Formula} :
    notCaptured v b = .ok () ↔ b.isFree v = false := by
  unfold notCaptured
  cases b.isFree v <;> simp

theorem exchange_leads (l b x : Formula) :
    ∃ f, exchange l b x = .ok f ∧ f.Leads (and l (and b x)) (and b (and l x)) :=
  Linked.joinAll (.of_eq rfl rfl) (.cons (.of_eq rfl rfl) (.cons (.of_eq rfl rfl) (.nil _)))

theorem importAlways_leads (b x b' x' : Formula) (side : b.alphaEq b') (content : x.alphaEq x') :
    ∃ f, importAlways b x b' x' = .ok f ∧ f.Leads (.always (and b x)) (and b (.always x)) := by
  have copied := fitting_prim (p := .copy (and b x) (and b' x'))
    (by simp [Primitive.fault?, side, content])
  obtain ⟨keepSide, kept, sideLeads⟩ := Linked.joinAll
    (f := onAlways (prim (.forget b' x'))) (.of_eq rfl rfl)
    (.cons (f := prim (.derelict b')) (.of_eq rfl rfl) (.nil _))
  obtain ⟨keepContent, kept', contentLeads⟩ := Linked.joinAll
    (f := prim (.commute .and b x)) (.of_eq rfl rfl)
    (.cons (f := prim (.forget x b)) (.of_eq rfl rfl) (.nil _))
  -- what is kept of the copy is a renaming of `b`
  have side' : keepSide.Leads (.always (and b' x')) b :=
    ⟨sideLeads.source, alphaEq_trans sideLeads.target (alphaEq_symm side)⟩
  have content' : (onAlways keepContent).Leads (.always (and b x)) (.always x) :=
    Context.leads_mapArrow (c := .layer .always) rfl contentLeads
  obtain ⟨f, joined, whole⟩ := Linked.joinAll (f := prim (.copy (and b x) (and b' x')))
    (.of_eq rfl rfl) (.cons (side'.onConj .and content') (.nil _))
  exact ⟨f, bind_eq_ok.mpr ⟨_, copied, bind_eq_ok.mpr ⟨_, kept,
    bind_eq_ok.mpr ⟨_, kept', joined⟩⟩⟩, whole⟩

theorem importAt_always_yields (b x : Formula) (s : Supply) (exponential : b.always?.isSome)
    (side : b.Below s) (content : x.Below s) :
    Yields (always.importAt b x) s (fun f t =>
      f.Leads (.always (and b x)) (and b (.always x)) ∧ s.next ≤ t.next) := by
  rw [importAt, if_pos exponential]
  refine yields_bind (P := fun b' t => b.alphaEq b' ∧ s.next ≤ t.next)
    (yields_state ⟨b.alphaEq_rename s side, b.rename_later s side⟩) ?_
  rintro b' t ⟨same, later⟩
  refine yields_bind (P := fun x' u => x.alphaEq x' ∧ t.next ≤ u.next)
    (yields_state ⟨x.alphaEq_rename t (content.mono later), x.rename_later t (content.mono later)⟩)
    ?_
  rintro x' u ⟨same', later'⟩
  obtain ⟨f, imported, leads⟩ := importAlways_leads b x b' x' same same'
  exact yields_except ⟨f, imported, leads, Nat.le_trans later later'⟩

theorem gives_importDefined (l : Layer) (b x : Formula) (s : Supply) :
    Gives (l.importAt b x) s (fun _ _ => (Context.layer l).ImportDefined b) := by
  have unfolded (y : Formula) : (Context.layer l).importAt b y = l.importAt b y := by
    rw [Context.importAt]
  unfold Context.ImportDefined
  simp only [unfolded]
  fun_cases Layer.importAt l b x
  · rename_i exponential
    refine gives_after (fun b' t => gives_after (fun x' u => gives_except ?_))
    intro f result y s' around side content
    exact importAt_always_yields b y s' exponential side content
  · exact gives_throw _ _ _
  · rename_i v
    refine gives_bind_except (P := fun _ => b.isFree v = false)
      (fun _ result => notCaptured_eq_ok.mp result) ?_
    intro _ unused
    refine gives_except ?_
    intro f result y s' around side content
    refine yields_bind (P := fun _ t => t = s')
      (yields_except ⟨(), notCaptured_eq_ok.mpr unused, rfl⟩) ?_
    rintro _ t rfl
    have clear := (Primitive.freeFault?_eq_none .existsPastAnd v b).mpr unused
    exact yields_except ⟨_, fitting_prim clear, .of_eq rfl rfl, Nat.le_refl _⟩
  · refine gives_pure ?_
    intro y s' around side content
    exact yields_pure ⟨.of_eq rfl rfl, Nat.le_refl _⟩
  · refine gives_except ?_
    intro f result y s' around side content
    obtain ⟨g, exchanged, leads⟩ := exchange_leads _ b y
    exact yields_except ⟨g, exchanged, leads, Nat.le_refl _⟩
  all_goals exact gives_throw _ _ _

theorem pushDefined (invertible : Bool) (l : Layer) (b x : Formula) (f : Arrow)
    (result : l.pushAt invertible b x = .ok f) : (Context.layer l).PushDefined invertible b := by
  have unfolded (y : Formula) :
      (Context.layer l).pushAt invertible b y = l.pushAt invertible b y := by
    rw [Context.pushAt]
  unfold Context.PushDefined
  simp only [unfolded]
  revert result
  fun_cases Layer.pushAt invertible l b x <;> intro result y
  · rename_i b₀ exponential
    have shape : b = .always b₀ := by cases b <;> cases exponential; rfl
    subst shape
    exact Linked.joinAll (.of_eq rfl rfl) (.cons (.of_eq rfl rfl) (.nil _))
  · cases result
  · rename_i v
    obtain ⟨_, free, _⟩ := bind_eq_ok.mp result
    have unused := notCaptured_eq_ok.mp free
    have clear := (Primitive.freeFault?_eq_none .andPastExists v b).mpr unused
    exact ⟨_, bind_eq_ok.mpr ⟨(), free, fitting_prim clear⟩, .of_eq rfl rfl⟩
  · exact ⟨_, rfl, .of_eq rfl rfl⟩
  · exact exchange_leads b _ y
  all_goals cases result

theorem not_exportDefined (b : Formula) : (Context.layer not).ExportDefined b := by
  intro y
  rw [Context.exportAt]
  exact Linked.joinAll (.of_eq rfl rfl) (.cons (.of_eq rfl rfl) (.cons (.of_eq rfl rfl) (.nil _)))

theorem exportDefined (l : Layer) (b x : Formula) (f : Arrow)
    (result : l.exportAt b x = .ok f) : (Context.layer l).ExportDefined b := by
  cases l with
  | not => exact not_exportDefined b
  | always | quant q v | conj k hole other => cases result

end Layer

namespace Context

theorem layers_of_bridge? {inner outer inner' outer' : Context}
    (found : bridge? inner outer = some (outer', inner')) :
    outer.layers = outer'.layers ++ [.not] ∧ inner.layers = .not :: inner'.layers := by
  unfold bridge? at found
  split at found
  · rename_i rest last first
    cases found
    obtain ⟨before, whole⟩ := List.getLast?_eq_some_iff.mp last
    rw [layers_ofLayers, layers_ofLayers, first, whole, List.dropLast_concat]
    exact ⟨rfl, rfl⟩
  · cases found

theorem bridge?_spec {inner outer inner' outer' : Context}
    (found : bridge? inner outer = some (outer', inner'))
    (contravariant : outer.variance = .contravariant) :
    (∀ x, (comp inner outer).fill x = outer'.fill (.not (.not (inner'.fill x)))) ∧
      outer'.variance = .covariant := by
  obtain ⟨around, inside⟩ := layers_of_bridge? found
  constructor
  · intro x
    simp only [fill, fill_eq_layers, around, inside, List.foldr_append]
    rfl
  · rw [variance_eq_layers, around, Layer.jointVariance_append, ← variance_eq_layers]
      at contravariant
    cases known : outer'.variance with
    | covariant => rfl
    | contravariant =>
        rw [known] at contravariant
        cases contravariant

section

variable {inner outer : Context}

theorem importDefined_covariant (within : inner.variance = .covariant)
    (around : outer.variance = .covariant) {b : Formula} (inside : inner.ImportDefined b)
    (outside : outer.ImportDefined b) : (comp inner outer).ImportDefined b := by
  intro x s context side content
  obtain ⟨outerBelow, innerBelow⟩ := List.forall_mem_append.mp context
  rw [importAt_covariant within around]
  refine yields_bind (inside x s innerBelow side content) ?_
  rintro f t ⟨leads, later⟩
  have filled := fill_below (c := inner) (Below.mono innerBelow later) (content.mono later)
  have outer' := outside (inner.fill x) t (Below.mono outerBelow later) (side.mono later) filled
  refine yields_bind outer' ?_
  rintro g u ⟨leads', later'⟩
  obtain ⟨h, joined, whole⟩ := Linked.joinAll (leads_mapArrow around leads) (.cons leads' (.nil _))
  exact yields_except ⟨h, joined, whole, Nat.le_trans later later'⟩

theorem importDefined_bridged (within : inner.variance = .contravariant)
    (around : outer.variance = .contravariant) {outer' inner' : Context}
    (found : bridge? inner outer = some (outer', inner')) {b : Formula}
    (through : (inner'.compose outer').ImportDefined b) : (comp inner outer).ImportDefined b := by
  obtain ⟨filled, covariant⟩ := bridge?_spec found around
  intro x s context side content
  have below : (inner'.compose outer').Below s := by
    obtain ⟨outerBelow, innerBelow⟩ := List.forall_mem_append.mp context
    obtain ⟨outerLayers, innerLayers⟩ := layers_of_bridge? found
    rw [outerLayers] at outerBelow
    rw [innerLayers] at innerBelow
    unfold Below
    rw [layers_compose]
    exact List.forall_mem_append.mpr
      ⟨(List.forall_mem_append.mp outerBelow).1, (List.forall_mem_cons.mp innerBelow).2⟩
  rw [importAt_bridged within around found]
  refine yields_bind (through x s below side content) ?_
  rintro f t ⟨leads, later⟩
  rw [fill_compose, fill_compose] at leads
  have first := leads_mapArrow covariant
    (f := prim (.removeDoubleDual (inner'.fill (and b x)))) (.of_eq rfl rfl)
  have last := leads_mapArrow covariant
    (f := prim (.introDoubleDual (inner'.fill x))) (.of_eq rfl rfl)
  obtain ⟨h, joined, whole⟩ :=
    Linked.joinAll first (.cons leads (.cons (last.onRight .and b) (.nil _)))
  refine yields_except ⟨h, joined, ?_, later⟩
  rw [filled, filled]
  exact whole

theorem pushDefined_covariant (within : inner.variance = .covariant)
    (around : outer.variance = .covariant) {invertible : Bool} {b : Formula}
    (outside : outer.PushDefined invertible b) (inside : inner.PushDefined invertible b) :
    (comp inner outer).PushDefined invertible b := by
  intro x
  obtain ⟨g, pushed, leads⟩ := outside (inner.fill x)
  obtain ⟨h, pushed', leads'⟩ := inside x
  obtain ⟨f, joined, whole⟩ := Linked.joinAll leads (.cons (leads_mapArrow around leads') (.nil _))
  rw [pushAt_covariant within around]
  exact ⟨f, bind_eq_ok.mpr ⟨g, pushed, bind_eq_ok.mpr ⟨h, pushed', joined⟩⟩, whole⟩

theorem pushDefined_bridged (within : inner.variance = .contravariant)
    (around : outer.variance = .contravariant) {outer' inner' : Context}
    (found : bridge? inner outer = some (outer', inner')) {invertible : Bool} {b : Formula}
    (through : (inner'.compose outer').PushDefined invertible b) :
    (comp inner outer).PushDefined invertible b := by
  obtain ⟨filled, covariant⟩ := bridge?_spec found around
  intro x
  obtain ⟨g, pushed, leads⟩ := through x
  rw [fill_compose, fill_compose] at leads
  have first := leads_mapArrow covariant
    (f := prim (.removeDoubleDual (inner'.fill x))) (.of_eq rfl rfl)
  have last := leads_mapArrow covariant
    (f := prim (.introDoubleDual (inner'.fill (and b x)))) (.of_eq rfl rfl)
  obtain ⟨f, joined, whole⟩ :=
    Linked.joinAll (first.onRight .and b) (.cons leads (.cons last (.nil _)))
  rw [pushAt_bridged within around found, filled, filled]
  exact ⟨f, bind_eq_ok.mpr ⟨g, pushed, joined⟩, whole⟩

theorem pushDefined_twice (within : inner.variance = .contravariant)
    (around : outer.variance = .contravariant) (missing : bridge? inner outer = none) {b : Formula}
    (inside : inner.ExportDefined b) (outside : outer.ExportDefined b) :
    (comp inner outer).PushDefined false b := by
  intro x
  obtain ⟨h, exported, leads⟩ := inside x
  obtain ⟨g, exported', leads'⟩ := outside (inner.fill (and b x))
  have demand := (leads_mapArrow_back around leads).onRight .and b
  obtain ⟨f, joined, whole⟩ := Linked.joinAll demand (.cons leads' (.nil _))
  rw [pushAt_twice within around missing]
  exact ⟨f, bind_eq_ok.mpr ⟨h, exported, bind_eq_ok.mpr ⟨g, exported', joined⟩⟩, whole⟩

theorem exportDefined_inner (within : inner.variance = .contravariant)
    (around : outer.variance = .covariant) {b : Formula} (outside : outer.PushDefined false b)
    (inside : inner.ExportDefined b) : (comp inner outer).ExportDefined b := by
  intro x
  obtain ⟨g, pushed, leads⟩ := outside (inner.fill (and b x))
  obtain ⟨h, exported, leads'⟩ := inside x
  obtain ⟨f, joined, whole⟩ := Linked.joinAll leads (.cons (leads_mapArrow around leads') (.nil _))
  rw [exportAt_inner within around]
  exact ⟨f, bind_eq_ok.mpr ⟨g, pushed, bind_eq_ok.mpr ⟨h, exported, joined⟩⟩, whole⟩

theorem exportDefined_outer (within : inner.variance = .covariant)
    (around : outer.variance = .contravariant) {b : Formula} (inside : inner.PushDefined false b)
    (outside : outer.ExportDefined b) : (comp inner outer).ExportDefined b := by
  intro x
  obtain ⟨h, pushed, leads⟩ := inside x
  obtain ⟨g, exported, leads'⟩ := outside (inner.fill x)
  have demand := (leads_mapArrow_back around leads).onRight .and b
  obtain ⟨f, joined, whole⟩ := Linked.joinAll demand (.cons leads' (.nil _))
  rw [exportAt_outer within around]
  exact ⟨f, bind_eq_ok.mpr ⟨h, pushed, bind_eq_ok.mpr ⟨g, exported, joined⟩⟩, whole⟩

end

theorem gives_importDefined (c : Context) (b x : Formula) (s : Supply) :
    Gives (c.importAt b x) s (fun _ _ => c.ImportDefined b) := by
  fun_induction importAt c b x generalizing s with
  | case1 x =>
      refine gives_pure ?_
      intro y s' context side content
      rw [importAt]
      exact yields_pure ⟨.of_eq rfl rfl, Nat.le_refl _⟩
  | case2 x l => exact l.gives_importDefined b x s
  | case3 x inner outer around within first second =>
      refine gives_bind (first s) ?_
      intro f t inside
      refine gives_bind (second t) ?_
      intro g u outside
      exact gives_except (fun _ _ => importDefined_covariant within around inside outside)
  | case4 x inner outer around within outer' inner' found ih =>
      refine gives_bind (ih s) ?_
      intro f t through
      exact gives_except (fun _ _ => importDefined_bridged within around found through)
  | case5 | case6 => exact gives_throw _ _ _

theorem pushDefined_exportDefined (b : Formula) :
    (∀ invertible (c : Context) x f, c.pushAt invertible b x = .ok f →
        c.PushDefined invertible b) ∧
      ∀ (c : Context) x f, c.exportAt b x = .ok f → c.ExportDefined b := by
  apply pushAt_exportAt_success b
  case atHole =>
      intro invertible _ x
      rw [pushAt]
      exact ⟨_, rfl, .of_eq rfl rfl⟩
  case atLayer => exact fun invertible l x => l.pushDefined invertible b x
  case exportLayer => exact fun l x => l.exportDefined b x
  case covariant =>
      intro _ _ _ _ f g h within around outside inside _
      exact pushDefined_covariant within around outside inside
  case bridged =>
      intro _ _ _ _ _ _ f h within around found through _
      exact pushDefined_bridged within around found through
  case twice =>
      intro _ _ _ f g h within around missing inside outside _
      exact pushDefined_twice within around missing inside outside
  case exportInner =>
      intro _ _ _ f g h within around outside inside _
      exact exportDefined_inner within around outside inside
  case exportOuter =>
      intro _ _ _ f g h within around inside outside _
      exact exportDefined_outer within around inside outside

theorem gives_importSide (c : Context) (b : Formula) (s : Supply) :
    Gives (c.importSide b) s (fun t _ => t = .importing c b ∧ c.ImportDefined b) := by
  refine gives_after (fun _ s => gives_after (fun x s => ?_))
  refine gives_bind (c.gives_importDefined b x s) ?_
  intro _ t everywhere
  exact gives_pure ⟨rfl, everywhere⟩

theorem gives_liftSide (c : Context) (b : Formula) (s : Supply) :
    Gives (c.liftSide b) s (fun t _ => t = .lifting c b ∧ c.PushDefined true b) := by
  refine gives_after (fun _ s => gives_after (fun x s => ?_))
  refine gives_bind_except ((pushDefined_exportDefined b).1 true c x) ?_
  intro _ everywhere
  exact gives_pure ⟨rfl, everywhere⟩

theorem gives_exportSide (c : Context) (b : Formula) (s : Supply) :
    Gives (c.exportSide b) s (fun t _ => t = .exporting c b ∧ c.ExportDefined b) := by
  refine gives_after (fun _ s => gives_after (fun x s => ?_))
  refine gives_bind_except ((pushDefined_exportDefined b).2 c x) ?_
  intro _ everywhere
  exact gives_pure ⟨rfl, everywhere⟩

end Context

namespace Transformation

/-- The family has an arrow at `x`, and it leads from the source to the target. -/
def DefinedAt (t : Transformation) (x : Formula) (s : Supply) : Prop :=
  ∃ f u, (t.arrowAt x).run s = (.ok f, u) ∧ f.source.alphaEq (t.source x) ∧
    f.target.alphaEq (t.target x)

/-- A transformation that was found with one probe has an arrow at every content of the hole. -/
theorem defined_everywhere (c : Context) (b x : Formula) (s s' : Supply) (context : c.Below s')
    (side : b.Below s') (content : x.Below s') :
    (∀ t u, (c.importSide b).run s = (.ok t, u) →
        t.source x = c.fill (and b x) ∧ t.target x = and b (c.fill x) ∧ t.DefinedAt x s') ∧
      (∀ t u, (c.liftSide b).run s = (.ok t, u) →
        t.source x = and b (c.fill x) ∧ t.target x = c.fill (and b x) ∧ t.DefinedAt x s') ∧
      ∀ t u, (c.exportSide b).run s = (.ok t, u) →
        t.source x = and b (c.fill (and b x)) ∧ t.target x = c.fill x ∧ t.DefinedAt x s' := by
  refine ⟨?_, ?_, ?_⟩
  · intro t u found
    obtain ⟨rfl, everywhere⟩ := c.gives_importSide b s t u found
    obtain ⟨f, u', result, leads, _⟩ := everywhere x s' context side content
    exact ⟨rfl, rfl, f, u', result, leads.source, leads.target⟩
  · intro t u found
    obtain ⟨rfl, everywhere⟩ := c.gives_liftSide b s t u found
    obtain ⟨f, result, leads⟩ := everywhere x
    refine ⟨rfl, rfl, f, s', ?_, leads.source, leads.target⟩
    simp only [arrowAt, Context.liftAt, result]
    rfl
  · intro t u found
    obtain ⟨rfl, everywhere⟩ := c.gives_exportSide b s t u found
    obtain ⟨f, result, leads⟩ := everywhere x
    refine ⟨rfl, rfl, f, s', ?_, leads.source, leads.target⟩
    simp only [arrowAt, result]
    rfl

/-- Out of an exponential, through a double negation, and into a demand below an exponential. -/
theorem probed_transformations_defined :
    let o : Formula := .holds ⟨1⟩ ⟨1⟩
    let b : Formula := .always (.quant .ex ⟨0⟩ (.holds ⟨0⟩ ⟨1⟩))
    let x : Formula := .quant .all ⟨2⟩ (.holds ⟨2⟩ ⟨1⟩)
    let exponential : Context := .comp (.layer (.conj .and .right o)) (.layer .always)
    let beside : Context := .layer (.conj .and .left o)
    let bridged : Context := .comp (.comp beside (.layer .not)) (.layer .not)
    let demanding : Context := .comp (.layer .not) (.layer .always)
    ((exponential.importSide b).run ⟨3⟩ = (.ok (.importing exponential b), ⟨6⟩) ∧
        (importing exponential b).DefinedAt x ⟨6⟩) ∧
      ((bridged.liftSide b).run ⟨3⟩ = (.ok (.lifting bridged b), ⟨5⟩) ∧
        (lifting bridged b).DefinedAt x ⟨5⟩) ∧
      (demanding.exportSide b).run ⟨3⟩ = (.ok (.exporting demanding b), ⟨5⟩) ∧
        (exporting demanding b).DefinedAt x ⟨5⟩ := by
  intro o b x exponential beside bridged demanding
  have imported : (exponential.importSide b).run ⟨3⟩ = (.ok (.importing exponential b), ⟨6⟩) := by
    simp only [Context.importSide, exponential, Context.importAt]
    rfl
  have lifted : (bridged.liftSide b).run ⟨3⟩ = (.ok (.lifting bridged b), ⟨5⟩) := by
    have meet : Context.bridge? (.comp beside (.layer .not)) (.layer .not) =
        some (.hole, beside) := rfl
    have through : beside.compose .hole = beside := rfl
    simp only [Context.liftSide, bridged, Context.liftAt, Context.pushAt_bridged rfl rfl meet,
      through, beside, Context.pushAt]
    rfl
  have exported : (demanding.exportSide b).run ⟨3⟩ = (.ok (.exporting demanding b), ⟨5⟩) := by
    simp only [Context.exportSide, demanding, Context.exportAt, Context.pushAt]
    rfl
  have first := defined_everywhere exponential b x ⟨3⟩ ⟨6⟩ (by decide) (by decide) (by decide)
  have second := defined_everywhere bridged b x ⟨3⟩ ⟨5⟩ (by decide) (by decide) (by decide)
  have third := defined_everywhere demanding b x ⟨3⟩ ⟨5⟩ (by decide) (by decide) (by decide)
  exact ⟨⟨imported, (first.1 _ _ imported).2.2⟩, ⟨lifted, (second.2.1 _ _ lifted).2.2⟩,
    exported, (third.2.2 _ _ exported).2.2⟩

end Transformation

end LinearCalculus
