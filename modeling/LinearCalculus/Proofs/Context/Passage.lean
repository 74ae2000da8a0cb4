import LinearCalculus.Proofs.Context.Definedness
import LinearCalculus.Proofs.Formula.Freeness

namespace LinearCalculus

open Formula (and)
open Arrow

/-- The side formula can cross the layer; a negation asks for nothing. -/
def Layer.Passes (b : Formula) : Layer → Prop
  | not | conj .and _ _ => True
  | always => b.always?.isSome
  | quant .ex v => b.isFree v = false
  | quant .all _ | conj .or _ _ => False

instance Layer.Passes.decide (b : Formula) : (l : Layer) → Decidable (l.Passes b)
  | not | conj .and _ _ => inferInstanceAs (Decidable True)
  | always => inferInstanceAs (Decidable (b.always?.isSome = true))
  | quant .ex v => inferInstanceAs (Decidable (b.isFree v = false))
  | quant .all _ | conj .or _ _ => inferInstanceAs (Decidable False)

namespace Layer

theorem passes_congr {b b' : Formula} (same : b.alphaEq b') (l : Layer) :
    l.Passes b ↔ l.Passes b' := by
  cases l with
  | not => rfl
  | always =>
      have exponential : b.always?.isSome = b'.always?.isSome := by
        cases b <;> cases b' <;> first | rfl | cases same
      simp [Passes, exponential]
  | quant q v => cases q <;> simp [Passes, Formula.isFree_eq_of_alphaEq same]
  | conj k hole other => cases k <;> rfl

theorem passes_of_pushAt (invertible : Bool) (l : Layer) (b x : Formula) (f : Arrow)
    (result : l.pushAt invertible b x = .ok f) : l.variance = .covariant ∧ l.Passes b := by
  revert result
  fun_cases Layer.pushAt invertible l b x <;> intro result
  · rename_i b₀ exponential
    exact ⟨rfl, by simp [Passes, exponential]⟩
  · cases result
  · obtain ⟨_, free, _⟩ := bind_eq_ok.mp result
    exact ⟨rfl, notCaptured_eq_ok.mp free⟩
  · exact ⟨rfl, trivial⟩
  · exact ⟨rfl, trivial⟩
  all_goals cases result

theorem passes_of_exportAt (l : Layer) (b x : Formula) (f : Arrow)
    (result : l.exportAt b x = .ok f) : l.variance = .contravariant ∧ l.Passes b := by
  cases l with
  | not => exact ⟨rfl, trivial⟩
  | always | quant q v | conj k hole other => cases result

theorem exists_pushAt_of_passes (l : Layer) (b x : Formula) (covariant : l.variance = .covariant)
    (passes : l.Passes b) : ∃ f, l.pushAt false b x = .ok f := by
  cases l with
  | not => cases covariant
  | always =>
      obtain ⟨b₀, exponential⟩ := Option.isSome_iff_exists.mp passes
      have shape : b = .always b₀ := by cases b <;> cases exponential; rfl
      subst shape
      obtain ⟨f, joined, _⟩ := Linked.joinAll (f := onLeft .and (prim (.cojoin b₀)) (.always x))
        (.of_eq rfl rfl) (.cons (f := prim (.zip (.always b₀) x)) (.of_eq rfl rfl) (.nil _))
      exact ⟨f, joined⟩
  | quant q v =>
      cases q with
      | all => exact passes.elim
      | ex =>
          have clear := (Primitive.freeFault?_eq_none .andPastExists v b).mpr passes
          exact ⟨_, bind_eq_ok.mpr ⟨(), notCaptured_eq_ok.mpr passes, fitting_prim clear⟩⟩
  | conj k hole other =>
      cases k with
      | or => exact passes.elim
      | and =>
          cases hole with
          | left => exact ⟨_, rfl⟩
          | right =>
              obtain ⟨f, exchanged, _⟩ := exchange_leads b other x
              exact ⟨f, exchanged⟩

end Layer

namespace Context

def Passes (c : Context) (b : Formula) : Prop := ∀ l ∈ c.layers, l.Passes b

theorem passes_comp {inner outer : Context} {b : Formula} :
    (comp inner outer).Passes b ↔ outer.Passes b ∧ inner.Passes b :=
  List.forall_mem_append

theorem passes_compose {inner outer : Context} {b : Formula} :
    (inner.compose outer).Passes b ↔ outer.Passes b ∧ inner.Passes b := by
  unfold Passes
  rw [layers_compose]
  exact List.forall_mem_append

theorem passes_bridge {inner outer inner' outer' : Context}
    (found : bridge? inner outer = some (outer', inner')) {b : Formula} :
    (inner'.compose outer').Passes b ↔ (comp inner outer).Passes b := by
  obtain ⟨around, inside⟩ := layers_of_bridge? found
  rw [passes_compose, passes_comp]
  have open' : Layer.not.Passes b := trivial
  simp [Passes, around, inside, open', or_imp, forall_and]

theorem variance_comp {inner outer : Context} {v w : Variance} (within : inner.variance = w)
    (around : outer.variance = v) : (comp inner outer).variance = v.compose w := by
  rw [variance, within, around]

theorem variance_bridge {inner outer inner' outer' : Context}
    (found : bridge? inner outer = some (outer', inner')) :
    (inner'.compose outer').variance = (comp inner outer).variance := by
  obtain ⟨around, inside⟩ := layers_of_bridge? found
  rw [variance_compose, variance, variance_eq_layers outer, variance_eq_layers inner, around,
    inside, Layer.jointVariance_append, ← variance_eq_layers]
  have twice : Layer.jointVariance (.not :: inner'.layers) =
      Variance.contravariant.compose inner'.variance := by
    rw [variance_eq_layers inner']
    rfl
  rw [twice]
  cases outer'.variance <;> cases inner'.variance <;> rfl

theorem passes_of_pushAt_exportAt (b : Formula) :
    (∀ invertible (c : Context) x f, c.pushAt invertible b x = .ok f →
        c.variance = .covariant ∧ c.Passes b) ∧
      ∀ (c : Context) x f, c.exportAt b x = .ok f → c.variance = .contravariant ∧ c.Passes b := by
  apply pushAt_exportAt_success b
  case atHole => exact fun _ _ => ⟨rfl, fun _ member => nomatch member⟩
  case atLayer =>
      intro invertible l x f result
      simpa [Passes, layers, variance] using l.passes_of_pushAt invertible b x f result
  case exportLayer =>
      intro l x f result
      simpa [Passes, layers, variance] using l.passes_of_exportAt b x f result
  case covariant =>
      intro _ inner outer _ f g h within around outside inside _
      exact ⟨variance_comp within around, passes_comp.mpr ⟨outside.2, inside.2⟩⟩
  case bridged =>
      intro _ inner outer inner' outer' _ f h within around found through _
      exact ⟨variance_comp within around, (passes_bridge found).mp through.2⟩
  case twice =>
      intro inner outer _ f g h within around _ inside outside _
      exact ⟨variance_comp within around, passes_comp.mpr ⟨outside.2, inside.2⟩⟩
  case exportInner =>
      intro inner outer _ f g h within around outside inside _
      exact ⟨variance_comp within around, passes_comp.mpr ⟨outside.2, inside.2⟩⟩
  case exportOuter =>
      intro inner outer _ f g h within around inside outside _
      exact ⟨variance_comp within around, passes_comp.mpr ⟨outside.2, inside.2⟩⟩

/-- By induction on the size, since a bridge regroups the layers that are left. -/
theorem defined_of_passes (c : Context) (b : Formula) (passes : c.Passes b) :
    (c.variance = .covariant → c.PushDefined false b) ∧
      (c.variance = .contravariant → c.ExportDefined b) := by
  induction size : c.nodes using Nat.strongRecOn generalizing c with
  | ind n ih =>
      subst size
      cases c with
      | hole =>
          constructor
          · intro _ x
            rw [pushAt]
            exact ⟨_, rfl, .of_eq rfl rfl⟩
          · intro contravariant
            cases contravariant
      | layer l =>
          have here : l.Passes b := passes l (List.mem_singleton_self l)
          constructor
          · intro covariant
            obtain ⟨f, pushed⟩ := l.exists_pushAt_of_passes b (.unit true) covariant here
            exact l.pushDefined false b _ f pushed
          · intro contravariant
            cases l with
            | not => exact Layer.not_exportDefined b
            | always | quant q v | conj k hole other => cases contravariant
      | comp inner outer =>
          obtain ⟨outerPasses, innerPasses⟩ := passes_comp.mp passes
          have inside := ih inner.nodes (by simp only [nodes]; omega) inner innerPasses rfl
          have outside := ih outer.nodes (by simp only [nodes]; omega) outer outerPasses rfl
          -- the two variances decide which of push and export can be asked for
          rcases within : inner.variance <;> rcases around : outer.variance <;>
            simp only [variance, within, around] <;> constructor <;> intro joint
          · exact pushDefined_covariant within around (outside.1 around) (inside.1 within)
          · cases joint
          · cases joint
          · exact exportDefined_outer within around (inside.1 within) (outside.2 around)
          · cases joint
          · exact exportDefined_inner within around (outside.1 around) (inside.2 within)
          · rcases found : bridge? inner outer with _ | ⟨outer', inner'⟩
            · exact pushDefined_twice within around found (inside.2 within) (outside.2 around)
            · have through := ih _ (nodes_of_bridge? found) (inner'.compose outer')
                ((passes_bridge found).mpr passes) rfl
              have covariant : (inner'.compose outer').variance = .covariant :=
                (variance_bridge found).trans (variance_comp within around)
              exact pushDefined_bridged within around found (through.1 covariant)
          · cases joint

theorem pushDefined_iff (c : Context) (b : Formula) :
    c.PushDefined false b ↔ c.variance = .covariant ∧ c.Passes b := by
  constructor
  · intro everywhere
    obtain ⟨f, pushed, _⟩ := everywhere (.unit true)
    exact (passes_of_pushAt_exportAt b).1 false c _ f pushed
  · rintro ⟨covariant, passes⟩
    exact (c.defined_of_passes b passes).1 covariant

theorem PushDefined.congr {c : Context} {b b' : Formula} (same : b.alphaEq b')
    (pushes : c.PushDefined false b) : c.PushDefined false b' := by
  rcases (c.pushDefined_iff b).mp pushes with ⟨covariant, passes⟩
  have passes' : c.Passes b' := fun l member => (l.passes_congr same).mp (passes l member)
  exact (c.pushDefined_iff b').mpr ⟨covariant, passes'⟩

theorem exportDefined_iff (c : Context) (b : Formula) :
    c.ExportDefined b ↔ c.variance = .contravariant ∧ c.Passes b := by
  constructor
  · intro everywhere
    obtain ⟨f, exported, _⟩ := everywhere (.unit true)
    exact (passes_of_pushAt_exportAt b).2 c _ f exported
  · rintro ⟨contravariant, passes⟩
    exact (c.defined_of_passes b passes).2 contravariant

end Context

theorem Transformation.probed_succeeds (t : Transformation) {expected : Except TransportError Unit}
    (fits : expected = .ok ()) (s : Supply) {f : Arrow} {u : Supply}
    (tried : (t.arrowAt (Context.probe s).1).run (Context.probe s).2 = (.ok f, u)) :
    ∃ t' u', (do
      expected
      let x ← Context.probe
      let _ ← t.arrowAt x
      return t : ExceptT TransportError Fresh Transformation).run s = (.ok t', u') := by
  subst fits
  suffices handed : Yields (do
      let x ← Context.probe
      let _ ← t.arrowAt x
      return t : ExceptT TransportError Fresh Transformation) s (fun _ _ => True) by
    obtain ⟨t', u', result, _⟩ := handed
    exact ⟨t', u', result⟩
  refine yields_bind (yields_state
    (P := fun x v => (Context.probe s).1 = x ∧ (Context.probe s).2 = v) ⟨rfl, rfl⟩) ?_
  rintro _ _ ⟨rfl, rfl⟩
  exact yields_bind (P := fun _ _ => True) ⟨f, u, tried, trivial⟩ (fun _ _ _ => yields_pure trivial)

namespace Context

theorem exportSide_succeeds_iff (c : Context) (b : Formula) (s : Supply) :
    (∃ t u, (c.exportSide b).run s = (.ok t, u)) ↔ c.ExportDefined b := by
  constructor
  · rintro ⟨t, u, result⟩
    exact (c.gives_exportSide b s t u result).2
  · intro everywhere
    have contravariant := ((c.exportDefined_iff b).mp everywhere).1
    obtain ⟨f, exported, _⟩ := everywhere (probe s).1
    apply (Transformation.exporting c b).probed_succeeds (if_pos contravariant) s
      (f := f) (u := (probe s).2)
    rw [Transformation.arrowAt, exported]
    rfl

theorem pushAt_succeeds_iff (invertible : Bool) (c : Context) (b x : Formula) :
    (∃ f, c.pushAt invertible b x = .ok f) ↔ c.PushDefined invertible b := by
  constructor
  · rintro ⟨f, pushed⟩
    exact (pushDefined_exportDefined b).1 invertible c x f pushed
  · intro everywhere
    obtain ⟨f, pushed, _⟩ := everywhere x
    exact ⟨f, pushed⟩

/-- A demand for `b` in the hole can be met exactly if the context is contravariant and every
layer lets `b` pass, and `b` can be pushed to a covariant hole under the same condition on the
layers. Negations may stand anywhere. -/
theorem export_push_domain (c : Context) (b : Formula) (s : Supply) :
    ((∃ t u, (c.exportSide b).run s = (.ok t, u)) ↔
        c.variance = .contravariant ∧ ∀ l ∈ c.layers, l.Passes b) ∧
      ∀ x, (∃ f, c.pushAt false b x = .ok f) ↔
        c.variance = .covariant ∧ ∀ l ∈ c.layers, l.Passes b := by
  constructor
  · rw [exportSide_succeeds_iff]
    exact c.exportDefined_iff b
  · intro x
    rw [pushAt_succeeds_iff]
    exact c.pushDefined_iff b

/-- Past three negations of which no two are adjacent, but not past a quantifier that binds a
variable of the side formula. -/
theorem export_push_domain_lone_negations :
    let o : Formula := .holds ⟨0⟩ ⟨0⟩
    let b : Formula := .always (.quant .all ⟨1⟩ (.holds ⟨1⟩ ⟨0⟩))
    let denied : Context := .comp (.layer .not) (.layer (.conj .and .left o))
    let twice : Context := .comp denied (.comp (.layer .not) (.layer .always))
    let thrice : Context := .comp twice (.comp (.layer (.quant .ex ⟨1⟩)) (.layer .not))
    let bound : Context := .comp thrice (.layer (.quant .ex ⟨0⟩))
    (∃ f, twice.pushAt false b o = .ok f) ∧
      (∃ t u, (thrice.exportSide b).run ⟨2⟩ = (.ok t, u)) ∧
      bound.variance = .contravariant ∧ ¬ ∃ t u, (bound.exportSide b).run ⟨2⟩ = (.ok t, u) := by
  intro o b denied twice thrice bound
  have pushed := (export_push_domain twice b ⟨2⟩).2 o
  have exported := (export_push_domain thrice b ⟨2⟩).1
  have refused := (export_push_domain bound b ⟨2⟩).1
  refine ⟨pushed.mpr ⟨rfl, by decide⟩, exported.mpr ⟨rfl, by decide⟩, rfl, ?_⟩
  intro found
  exact absurd (refused.mp found).2 (by decide)

end Context

end LinearCalculus
