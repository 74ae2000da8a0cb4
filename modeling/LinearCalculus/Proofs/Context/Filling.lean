import LinearCalculus.Proofs.Arrow.Laws

namespace LinearCalculus

open Formula

namespace Arrow

/-- The arrow leads between the formulas, up to bound names. -/
structure Leads (f : Arrow) (a b : Formula) : Prop where
  source : f.source.alphaEq a
  target : f.target.alphaEq b

theorem Leads.of_eq {f : Arrow} {a b : Formula} (source : f.source = a) (target : f.target = b) :
    f.Leads a b :=
  ⟨source ▸ alphaEq_refl _, target ▸ alphaEq_refl _⟩

theorem Leads.of_parallel {f g : Arrow} {a b : Formula} (same : Parallel f g)
    (leads : f.Leads a b) : g.Leads a b :=
  ⟨alphaEq_trans (alphaEq_symm same.source) leads.source,
    alphaEq_trans (alphaEq_symm same.target) leads.target⟩

theorem Leads.compose {f g : Arrow} {a b c : Formula} (first : f.Leads a b) (second : g.Leads b c) :
    f.compose g = .ok (composite f g) ∧ (composite f g).Leads a c := by
  have fits := alphaEq_trans first.target (alphaEq_symm second.source)
  exact ⟨compose_eq_ok_iff.mpr ⟨fits, rfl⟩, first.source, second.target⟩

theorem Leads.onLeft {f : Arrow} {a b : Formula} (k : Connective) (right : Formula)
    (leads : f.Leads a b) : (onLeft k f right).Leads (.conj k a right) (.conj k b right) :=
  ⟨by simp [Arrow.source, leads.source, alphaEq_refl],
    by simp [Arrow.target, leads.target, alphaEq_refl]⟩

theorem Leads.onRight {f : Arrow} {a b : Formula} (k : Connective) (left : Formula)
    (leads : f.Leads a b) : (onRight k left f).Leads (.conj k left a) (.conj k left b) :=
  ⟨by simp [Arrow.source, leads.source, alphaEq_refl],
    by simp [Arrow.target, leads.target, alphaEq_refl]⟩

theorem Leads.onConj {f g : Arrow} {a a' b b' : Formula} (k : Connective) (left : f.Leads a b)
    (right : g.Leads a' b') : (onConj k f g).Leads (.conj k a a') (.conj k b b') :=
  ⟨by simp [Arrow.source, left.source, right.source],
    by simp [Arrow.target, left.target, right.target]⟩

inductive Linked : List Arrow → Formula → Formula → Prop where
  | nil (a : Formula) : Linked [] a a
  | cons {f : Arrow} {rest : List Arrow} {a b c : Formula} (first : f.Leads a b)
      (linked : Linked rest b c) : Linked (f :: rest) a c

theorem Linked.chain {f : Arrow} {rest : List Arrow} {a b c : Formula} (first : f.Leads a b)
    (linked : Linked rest b c) : ∃ h, f.chain rest = .ok h ∧ h.Leads a c := by
  induction linked generalizing f with
  | nil b => exact ⟨f, rfl, first⟩
  | @cons g rest b b' c next linked ih =>
      obtain ⟨composed, leads⟩ := first.compose next
      obtain ⟨h, chained, whole⟩ := ih leads
      refine ⟨h, ?_, whole⟩
      exact bind_eq_ok.mpr ⟨composite f g, composed, chained⟩

end Arrow

namespace Layer

theorem alphaEq_fill (l : Layer) {x y : Formula} (same : x.alphaEq y) :
    (l.fill x).alphaEq (l.fill y) := by
  cases l with
  | conj k hole other => cases hole <;> simp [fill, same, alphaEq_refl]
  | not | always | quant q v => simp [fill, same]

theorem mapArrow_ends (l : Layer) (f : Arrow) :
    (l.variance = .covariant →
        (l.mapArrow f).source = l.fill f.source ∧ (l.mapArrow f).target = l.fill f.target) ∧
      (l.variance = .contravariant →
        (l.mapArrow f).source = l.fill f.target ∧ (l.mapArrow f).target = l.fill f.source) := by
  cases l with
  | conj k hole other => cases hole <;> simp [mapArrow, fill, variance, Arrow.source, Arrow.target]
  | not | always | quant q v => simp [mapArrow, fill, variance, Arrow.source, Arrow.target]

def jointVariance (ls : List Layer) : Variance :=
  ls.foldr (fun l v => l.variance.compose v) .covariant

theorem jointVariance_append (outer inner : List Layer) :
    jointVariance (outer ++ inner) = (jointVariance outer).compose (jointVariance inner) := by
  induction outer with
  | nil => rfl
  | cons l outer ih =>
      have assoc (u v w : Variance) : u.compose (v.compose w) = (u.compose v).compose w := by
        cases u <;> cases v <;> cases w <;> rfl
      calc
        jointVariance (l :: outer ++ inner)
          = l.variance.compose (jointVariance (outer ++ inner)) := rfl
        _ = (l.variance.compose (jointVariance outer)).compose (jointVariance inner) := by
          rw [ih, assoc]
        _ = (jointVariance (l :: outer)).compose (jointVariance inner) := rfl

end Layer

namespace Context

theorem fill_eq_layers (c : Context) (x : Formula) : c.fill x = c.layers.foldr Layer.fill x := by
  induction c generalizing x with
  | hole => rfl
  | layer l => rfl
  | comp inner outer first second => rw [fill, second, first, layers, List.foldr_append]

theorem mapArrow_eq_layers (c : Context) (f : Arrow) :
    c.mapArrow f = c.layers.foldr Layer.mapArrow f := by
  induction c generalizing f with
  | hole => rfl
  | layer l => rfl
  | comp inner outer first second => rw [mapArrow, second, first, layers, List.foldr_append]

theorem eq_hole_of_isHole (c : Context) (bare : c.isHole) : c = hole := by
  cases c with
  | hole => rfl
  | layer l | comp inner outer => cases bare

theorem layers_compose (inner outer : Context) :
    (inner.compose outer).layers = outer.layers ++ inner.layers := by
  unfold compose
  split
  · rename_i bare
    rw [eq_hole_of_isHole inner bare, layers, List.append_nil]
  · split
    · rename_i bare
      rw [eq_hole_of_isHole outer bare, layers, List.nil_append]
    · rfl

@[simp] theorem layers_ofLayers (ls : List Layer) : (ofLayers ls).layers = ls := by
  induction ls with
  | nil => rfl
  | cons l ls ih =>
      have unfolded : ofLayers (l :: ls) = (ofLayers ls).compose (layer l) := rfl
      rw [unfolded, layers_compose, ih]
      rfl

theorem fill_compose (inner outer : Context) (x : Formula) :
    (inner.compose outer).fill x = outer.fill (inner.fill x) := by
  simp only [fill_eq_layers, layers_compose, List.foldr_append]

theorem variance_eq_layers (c : Context) : c.variance = Layer.jointVariance c.layers := by
  induction c with
  | hole => rfl
  | layer l => cases l <;> rfl
  | comp inner outer first second =>
      rw [variance, layers, Layer.jointVariance_append, first, second]

theorem variance_compose (inner outer : Context) :
    (inner.compose outer).variance = outer.variance.compose inner.variance := by
  simp only [variance_eq_layers, layers_compose, Layer.jointVariance_append]

theorem alphaEq_fill (c : Context) {x y : Formula} (same : x.alphaEq y) :
    (c.fill x).alphaEq (c.fill y) := by
  induction c generalizing x y with
  | hole => exact same
  | layer l => exact l.alphaEq_fill same
  | comp inner outer first second => exact second (first same)

theorem mapArrow_keeps {R : Arrow → Arrow → Prop}
    (inside : ∀ (l : Layer) {f g : Arrow}, R f g → R (l.mapArrow f) (l.mapArrow g)) (c : Context)
    {f g : Arrow} (related : R f g) : R (c.mapArrow f) (c.mapArrow g) := by
  induction c generalizing f g with
  | hole => exact related
  | layer l => exact inside l related
  | comp inner outer first second => exact second (first related)

theorem mapArrow_ends (c : Context) (f : Arrow) :
    (c.variance = .covariant →
        (c.mapArrow f).source = c.fill f.source ∧ (c.mapArrow f).target = c.fill f.target) ∧
      (c.variance = .contravariant →
        (c.mapArrow f).source = c.fill f.target ∧ (c.mapArrow f).target = c.fill f.source) := by
  induction c generalizing f with
  | hole => simp [mapArrow, fill, variance]
  | layer l => exact l.mapArrow_ends f
  | comp inner outer first second =>
      have inside := first f
      have outside := second (inner.mapArrow f)
      cases here : inner.variance <;> cases there : outer.variance <;>
        simp_all [mapArrow, fill, variance, Variance.compose, Variance.flip]

theorem leads_mapArrow {c : Context} (covariant : c.variance = .covariant) {f : Arrow}
    {a b : Formula} (leads : f.Leads a b) : (c.mapArrow f).Leads (c.fill a) (c.fill b) := by
  obtain ⟨source, target⟩ := (c.mapArrow_ends f).1 covariant
  exact ⟨source ▸ c.alphaEq_fill leads.source, target ▸ c.alphaEq_fill leads.target⟩

theorem leads_mapArrow_back {c : Context} (contravariant : c.variance = .contravariant) {f : Arrow}
    {a b : Formula} (leads : f.Leads a b) : (c.mapArrow f).Leads (c.fill b) (c.fill a) := by
  obtain ⟨source, target⟩ := (c.mapArrow_ends f).2 contravariant
  exact ⟨source ▸ c.alphaEq_fill leads.target, target ▸ c.alphaEq_fill leads.source⟩

end Context

end LinearCalculus
