import LinearCalculus.Proofs.Context.Search

/-! Which contexts let a side formula out of their hole, and back in without loss.

Import and lift cross negations in pairs only. Where two contravariant contexts meet, they
remove the double negation at the seam and go on with what is left. So a context can be
crossed if its blocks of adjacent negations are even, however its layers were grouped: a seam
that cuts a block in two is the one case in which the parts are contravariant.

Blocks are followed from the outside to the inside. What has to be known on the way is
whether the block that is open so far is odd, which is a variance. -/

namespace LinearCalculus

open Arrow

namespace Layer

/-- Every maximal block of adjacent negations has even length. -/
def EvenBlocks (ls : List Layer) : Prop :=
  ∀ before n after, ls = before ++ (List.replicate n not ++ after) →
    before.getLast? ≠ some not → after.head? ≠ some not → 2 ∣ n

/-- The variance of the open block of negations behind a layer. A layer of another kind
closes the block and asks for an even one. -/
def cross : Option Variance → Layer → Option Variance
  | some v, not => some v.flip
  | some .covariant, always | some .covariant, quant _ _ | some .covariant, conj _ _ _ =>
    some .covariant
  | _, _ => none

def crossAll (open? : Option Variance) (ls : List Layer) : Option Variance := ls.foldl cross open?

theorem cross_none (l : Layer) : cross none l = none := by
  cases l <;> rfl

@[simp] theorem crossAll_none (ls : List Layer) : crossAll none ls = none := by
  induction ls with
  | nil => rfl
  | cons l ls ih => rw [crossAll, List.foldl_cons, cross_none]; exact ih

theorem crossAll_append {open? : Option Variance} {outer inner : List Layer} {w : Variance} :
    crossAll open? (outer ++ inner) = some w ↔
      ∃ v, crossAll open? outer = some v ∧ crossAll (some v) inner = some w := by
  have split : crossAll open? (outer ++ inner) = crossAll (crossAll open? outer) inner :=
    List.foldl_append
  rw [split]
  cases crossAll open? outer <;> simp

theorem crossAll_not (v : Variance) (ls : List Layer) :
    crossAll (some v) (not :: ls) = crossAll (some v.flip) ls := rfl

theorem crossAll_even {l : Layer} (other : l ≠ not) (ls : List Layer) :
    crossAll (some .covariant) (l :: ls) = crossAll (some .covariant) ls := by
  cases l with
  | not => exact (other rfl).elim
  | always | quant q v | conj k hole other => rfl

theorem crossAll_odd {l : Layer} (other : l ≠ not) (ls : List Layer) :
    crossAll (some .contravariant) (l :: ls) = none := by
  cases l with
  | not => exact (other rfl).elim
  | always | quant q v | conj k hole other => exact crossAll_none ls

theorem eq_covariant_of_crossAll_concat {open? : Option Variance} {ls : List Layer} {l : Layer}
    {v : Variance} (other : l ≠ not) (crossed : crossAll open? (ls ++ [l]) = some v) :
    v = .covariant := by
  obtain ⟨w, _, last⟩ := crossAll_append.mp crossed
  cases w with
  | covariant =>
      rw [crossAll_even other] at last
      cases last
      rfl
  | contravariant =>
      rw [crossAll_odd other] at last
      cases last

theorem crossAll_replicate (v : Variance) (n : Nat) :
    crossAll (some v) (List.replicate n not) = some (if 2 ∣ n then v else v.flip) := by
  induction n generalizing v with
  | zero => rfl
  | succ n ih =>
      rw [List.replicate_succ, crossAll_not, ih]
      have twice : v.flip.flip = v := by cases v <;> rfl
      by_cases even : 2 ∣ n
      · rw [if_pos even, if_neg (by omega)]
      · rw [if_neg even, if_pos (by omega), twice]

theorem jointVariance_of_crossAll {v w : Variance} {ls : List Layer}
    (crossed : crossAll (some v) ls = some w) : v.compose (jointVariance ls) = w := by
  induction ls generalizing v with
  | nil =>
      cases crossed
      cases w <;> rfl
  | cons l ls ih =>
      by_cases negation : l = not
      · subst negation
        have rest := ih ((crossAll_not v ls).symm.trans crossed)
        rw [← rest]
        change v.compose (Variance.contravariant.compose (jointVariance ls)) = _
        cases v <;> cases jointVariance ls <;> rfl
      · have plain : l.variance = .covariant := by
          cases l with
          | not => exact (negation rfl).elim
          | always | quant q v | conj k hole other => rfl
        cases v with
        | covariant =>
            rw [crossAll_even negation] at crossed
            change Variance.covariant.compose (l.variance.compose (jointVariance ls)) = w
            rw [plain]
            exact ih crossed
        | contravariant =>
            rw [crossAll_odd negation] at crossed
            cases crossed

/-- No block of negations is left open, and none was closed while odd. -/
def Paired (ls : List Layer) : Prop := crossAll (some .covariant) ls = some .covariant

instance (ls : List Layer) : Decidable (Paired ls) :=
  inferInstanceAs (Decidable (crossAll (some .covariant) ls = some .covariant))

theorem evenBlocks_of_paired {ls : List Layer} (paired : Paired ls) : EvenBlocks ls := by
  intro before n after split closed ends
  subst split
  obtain ⟨v, start, block⟩ := crossAll_append.mp paired
  have none : v = .covariant := by
    rcases List.eq_nil_or_concat before with rfl | ⟨init, l, shape⟩
    · cases start
      rfl
    · rw [List.concat_eq_append] at shape
      subst shape
      have other : l ≠ not := by simpa using closed
      exact eq_covariant_of_crossAll_concat other start
  subst none
  obtain ⟨w, counted, rest⟩ := crossAll_append.mp block
  rw [crossAll_replicate] at counted
  by_cases even : 2 ∣ n
  · exact even
  · rw [if_neg even] at counted
    cases counted
    -- an odd block can be closed neither by the end nor by another layer
    cases after with
    | nil => cases rest
    | cons l after =>
        have other : l ≠ not := by simpa using ends
        change crossAll (some .contravariant) (l :: after) = _ at rest
        rw [crossAll_odd other] at rest
        cases rest

/-- By induction on the layers, with `n` negations of the open block already passed. -/
theorem crossAll_of_evenBlocks {n : Nat} {ls : List Layer}
    (even : EvenBlocks (List.replicate n not ++ ls)) :
    crossAll (some (if 2 ∣ n then .covariant else .contravariant)) ls = some .covariant := by
  induction ls generalizing n with
  | nil =>
      have closed : 2 ∣ n := even [] n [] rfl (by simp) (by simp)
      rw [if_pos closed]
      rfl
  | cons l ls ih =>
      by_cases negation : l = not
      · subst negation
        have longer : List.replicate n not ++ not :: ls = List.replicate (n + 1) not ++ ls := by
          rw [List.replicate_succ', List.append_assoc]
          rfl
        rw [longer] at even
        rw [crossAll_not, ← ih even]
        by_cases parity : 2 ∣ n
        · rw [if_pos parity, if_neg (by omega)]
          rfl
        · rw [if_neg parity, if_pos (by omega)]
          rfl
      · have closed : 2 ∣ n := even [] n (l :: ls) rfl (by simp) (by simpa using negation)
        have rest : EvenBlocks (List.replicate 0 not ++ ls) := by
          intro before m after split ends starts
          have split' : ls = before ++ (List.replicate m not ++ after) := split
          refine even (List.replicate n not ++ l :: before) m after ?_ ?_ starts
          · rw [split', List.append_assoc]
            rfl
          · rw [List.getLast?_append, List.getLast?_cons]
            cases last : before.getLast? with
            | none => simpa [last] using negation
            | some l' =>
                rw [last] at ends
                simpa using ends
        rw [if_pos closed, crossAll_even negation]
        exact ih rest

theorem paired_iff_evenBlocks {ls : List Layer} : Paired ls ↔ EvenBlocks ls :=
  ⟨evenBlocks_of_paired, fun even => crossAll_of_evenBlocks (n := 0) even⟩

theorem paired_append {outer inner : List Layer} (even : jointVariance outer = .covariant) :
    Paired (outer ++ inner) ↔ Paired outer ∧ Paired inner := by
  constructor
  · intro paired
    obtain ⟨v, reached, inside⟩ := crossAll_append.mp paired
    have parity : jointVariance outer = v := jointVariance_of_crossAll reached
    rw [even] at parity
    subst parity
    exact ⟨reached, inside⟩
  · rintro ⟨outside, inside⟩
    exact crossAll_append.mpr ⟨_, outside, inside⟩

theorem paired_pair {outer inner : List Layer} :
    Paired (outer ++ [not] ++ not :: inner) ↔ Paired (outer ++ inner) := by
  have twice (v : Variance) :
      crossAll (some v) ([not] ++ not :: inner) = crossAll (some v) inner := by
    cases v <;> rfl
  rw [List.append_assoc, Paired, Paired, crossAll_append, crossAll_append]
  simp only [twice]

theorem negations_at_seam {outer inner : List Layer}
    (odd : jointVariance outer = .contravariant) (paired : Paired (outer ++ inner)) :
    (∃ outer', outer = outer' ++ [not]) ∧ ∃ inner', inner = not :: inner' := by
  obtain ⟨v, reached, rest⟩ := crossAll_append.mp paired
  have parity : jointVariance outer = v := jointVariance_of_crossAll reached
  rw [odd] at parity
  subst parity
  constructor
  · rcases List.eq_nil_or_concat outer with rfl | ⟨init, l, shape⟩
    · cases odd
    · rw [List.concat_eq_append] at shape
      subst shape
      by_cases negation : l = not
      · exact ⟨init, by rw [negation]⟩
      · cases eq_covariant_of_crossAll_concat negation reached
  · cases inner with
    | nil => cases rest
    | cons l inner =>
        by_cases negation : l = not
        · exact ⟨inner, by rw [negation]⟩
        · rw [crossAll_odd negation] at rest
          cases rest

def kind : Layer → Layer
  | not => not
  | always => always
  | quant q v => quant q v
  | conj k hole _ => conj k hole (.unit true)

theorem map_kind_of_eqvAll {ls ms : List Layer} (same : eqvAll ls ms) :
    ls.map kind = ms.map kind := by
  fun_induction eqvAll ls ms with
  | case1 => rfl
  | case2 l ls m ms ih =>
      obtain ⟨here, rest⟩ := Bool.and_eq_true_iff.mp same
      have equal : l.kind = m.kind := by
        cases l <;> cases m <;> simp_all [eqv, kind]
      rw [List.map_cons, List.map_cons, equal, ih rest]
  | case3 => cases same

theorem passes_kind {l : Layer} {b : Formula} : l.kind.Passes b ↔ l.Passes b := by
  cases l with
  | not | always | quant q v => rfl
  | conj k hole other => cases k <;> rfl

theorem paired_map_kind {ls : List Layer} : Paired (ls.map kind) ↔ Paired ls := by
  have same : (fun open? l => cross open? (kind l)) = cross := by
    funext open? l
    cases l <;> rcases open? with _ | _ | _ <;> rfl
  rw [Paired, crossAll, List.foldl_map, same]
  rfl

theorem importDefined_of_passes {l : Layer} {b : Formula} (covariant : l.variance = .covariant)
    (passes : l.Passes b) : (Context.layer l).ImportDefined b := by
  cases l with
  | not => cases covariant
  | always =>
      intro x s _ side content
      rw [Context.importAt]
      exact importAt_always_yields b x s passes side content
  | quant q v =>
      cases q with
      | all => exact passes.elim
      | ex =>
          have clear := (Primitive.freeFault?_eq_none .existsPastAnd v b).mpr passes
          have tried : Yields ((quant .ex v).importAt b (.unit true)) ⟨0⟩ (fun _ _ => True) := by
            refine yields_bind (P := fun _ _ => True)
              (yields_except ⟨(), notCaptured_eq_ok.mpr passes, trivial⟩) ?_
            intro _ t _
            exact yields_except ⟨_, fitting_prim clear, trivial⟩
          obtain ⟨f, t, result, _⟩ := tried
          exact gives_importDefined _ b _ _ f t result
  | conj k hole other =>
      cases k with
      | or => exact passes.elim
      | and =>
          cases hole with
          | left => exact gives_importDefined _ b (.unit true) ⟨0⟩ _ _ rfl
          | right =>
              obtain ⟨f, exchanged, _⟩ := exchange_leads other b (.unit true)
              have tried : Yields ((conj .and .right other).importAt b (.unit true)) ⟨0⟩
                  (fun _ _ => True) := yields_except ⟨f, exchanged, trivial⟩
              obtain ⟨f, t, result, _⟩ := tried
              exact gives_importDefined _ b _ _ f t result

theorem gives_passes (l : Layer) (b x : Formula) (s : Supply) :
    Gives (l.importAt b x) s (fun _ _ => l.variance = .covariant ∧ l.Passes b) := by
  fun_cases Layer.importAt l b x
  · rename_i exponential
    refine gives_after (fun _ _ => gives_after (fun _ _ => gives_except ?_))
    exact fun _ _ => ⟨rfl, exponential⟩
  · exact gives_throw _ _ _
  · rename_i v
    refine gives_bind_except (P := fun _ => b.isFree v = false)
      (fun _ result => notCaptured_eq_ok.mp result) ?_
    intro _ unused
    exact gives_except fun _ _ => ⟨rfl, unused⟩
  · exact gives_pure ⟨rfl, trivial⟩
  · exact gives_except fun _ _ => ⟨rfl, trivial⟩
  all_goals exact gives_throw _ _ _

/-- Only at an exponential does it matter that import has to undo the push. -/
theorem pushAt_invertible {l : Layer} (other : l ≠ always) (b x : Formula) :
    l.pushAt true b x = l.pushAt false b x := by
  cases l with
  | always => exact (other rfl).elim
  | not => rfl
  | quant q v => cases q <;> rfl
  | conj k hole other => cases k <;> cases hole <;> rfl

def Lifts (b : Formula) (l : Layer) : Prop := l ≠ always ∧ l.Passes b

theorem lifts_kind {l : Layer} {b : Formula} : l.kind.Lifts b ↔ l.Lifts b := by
  refine and_congr ?_ passes_kind
  cases l <;> simp [kind]

end Layer

namespace Context

structure Crossed (admits : Layer → Prop) (c : Context) : Prop where
  admitted : ∀ l ∈ c.layers, admits l
  paired : Layer.Paired c.layers

section

variable {admits : Layer → Prop} {inner outer : Context}

theorem Crossed.covariant {c : Context} (crossed : Crossed admits c) :
    c.variance = .covariant := by
  rw [variance_eq_layers]
  exact Layer.jointVariance_of_crossAll crossed.paired

theorem crossed_layer {l : Layer} (covariant : l.variance = .covariant) (admitted : admits l) :
    Crossed admits (.layer l) := by
  refine ⟨fun m member => List.mem_singleton.mp member ▸ admitted, ?_⟩
  cases l with
  | not => cases covariant
  | always | quant q v | conj k hole other => rfl

theorem crossed_covariant (around : outer.variance = .covariant) :
    Crossed admits (comp inner outer) ↔ Crossed admits outer ∧ Crossed admits inner := by
  have seam : Layer.Paired (comp inner outer).layers ↔
      Layer.Paired outer.layers ∧ Layer.Paired inner.layers :=
    Layer.paired_append (by rw [← variance_eq_layers, around])
  constructor
  · rintro ⟨admitted, paired⟩
    obtain ⟨outside, inside⟩ := List.forall_mem_append.mp admitted
    exact ⟨⟨outside, (seam.mp paired).1⟩, inside, (seam.mp paired).2⟩
  · rintro ⟨outside, inside⟩
    exact ⟨List.forall_mem_append.mpr ⟨outside.admitted, inside.admitted⟩,
      seam.mpr ⟨outside.paired, inside.paired⟩⟩

theorem crossed_bridged {inner' outer' : Context} (negation : admits .not)
    (found : bridge? inner outer = some (outer', inner')) :
    Crossed admits (comp inner outer) ↔ Crossed admits (inner'.compose outer') := by
  obtain ⟨around, inside⟩ := layers_of_bridge? found
  have whole : (comp inner outer).layers = outer'.layers ++ [.not] ++ .not :: inner'.layers := by
    rw [layers, around, inside]
  have rest : (inner'.compose outer').layers = outer'.layers ++ inner'.layers :=
    layers_compose inner' outer'
  have same : (∀ l ∈ (comp inner outer).layers, admits l) ↔
      ∀ l ∈ (inner'.compose outer').layers, admits l := by
    rw [whole, rest]
    simp [negation, or_imp, forall_and]
  have pairs : Layer.Paired (comp inner outer).layers ↔
      Layer.Paired (inner'.compose outer').layers := by
    rw [whole, rest]
    exact Layer.paired_pair
  exact ⟨fun crossed => ⟨same.mp crossed.admitted, pairs.mp crossed.paired⟩,
    fun crossed => ⟨same.mpr crossed.admitted, pairs.mpr crossed.paired⟩⟩

theorem Crossed.bridge (around : outer.variance = .contravariant)
    (crossed : Crossed admits (comp inner outer)) :
    ∃ outer' inner', bridge? inner outer = some (outer', inner') := by
  have odd : Layer.jointVariance outer.layers = .contravariant := by
    rw [← variance_eq_layers, around]
  obtain ⟨⟨outside, last⟩, inside, first⟩ := Layer.negations_at_seam odd crossed.paired
  have meet : bridge? inner outer = some (ofLayers outer.layers.dropLast, ofLayers inside) := by
    rw [bridge?, last, first, List.getLast?_concat]
  exact ⟨_, _, meet⟩

/-- What the rules for the hole, for single layers, for covariant parts and for parts that meet
in a double negation show holds of every context that can be crossed. -/
theorem Crossed.induction {motive : Context → Prop} (negation : admits .not)
    (atHole : motive hole)
    (atLayer : ∀ l, l.variance = .covariant → admits l → motive (.layer l))
    (covariant : ∀ inner outer, inner.variance = .covariant → outer.variance = .covariant →
      motive inner → motive outer → motive (comp inner outer))
    (bridged : ∀ inner outer inner' outer', inner.variance = .contravariant →
      outer.variance = .contravariant → bridge? inner outer = some (outer', inner') →
      motive (inner'.compose outer') → motive (comp inner outer))
    (c : Context) (crossed : Crossed admits c) : motive c := by
  -- on the size, since a bridge regroups the layers that are left
  induction size : c.nodes using Nat.strongRecOn generalizing c with
  | ind n ih =>
      subst size
      cases c with
      | hole => exact atHole
      | layer l => exact atLayer l crossed.covariant (crossed.admitted l List.mem_cons_self)
      | comp inner outer =>
          have joint := crossed.covariant
          rcases within : inner.variance <;> rcases around : outer.variance <;>
            simp only [variance, within, around] at joint
          · obtain ⟨outside, inside⟩ := (crossed_covariant around).mp crossed
            apply covariant inner outer within around
            · exact ih inner.nodes (by simp only [nodes]; omega) inner inside rfl
            · exact ih outer.nodes (by simp only [nodes]; omega) outer outside rfl
          · cases joint
          · cases joint
          · obtain ⟨outer', inner', found⟩ := crossed.bridge around
            apply bridged inner outer inner' outer' within around found
            exact ih _ (nodes_of_bridge? found) _ ((crossed_bridged negation found).mp crossed) rfl

theorem crossed_of_eqv {c d : Context} (kinds : ∀ l : Layer, admits l.kind ↔ admits l)
    (same : c.eqv d) : Crossed admits c ↔ Crossed admits d := by
  have erased (e : Context) : Crossed admits e ↔
      (∀ l ∈ e.layers.map Layer.kind, admits l) ∧ Layer.Paired (e.layers.map Layer.kind) := by
    rw [List.forall_mem_map, Layer.paired_map_kind]
    simp only [kinds]
    exact ⟨fun crossed => ⟨crossed.admitted, crossed.paired⟩, fun both => ⟨both.1, both.2⟩⟩
  rw [erased c, erased d, Layer.map_kind_of_eqvAll same]

end

theorem gives_crossed (c : Context) (b x : Formula) (s : Supply) :
    Gives (c.importAt b x) s (fun _ _ => c.Crossed (Layer.Passes b)) := by
  have negation : Layer.not.Passes b := trivial
  fun_induction importAt c b x generalizing s with
  | case1 x => exact gives_pure ⟨by simp [layers], rfl⟩
  | case2 x l =>
      exact gives_mono (l.gives_passes b x s) fun _ _ done => crossed_layer done.1 done.2
  | case3 x inner outer around within first second =>
      refine gives_bind (first s) ?_
      intro f t inside
      refine gives_bind (second t) ?_
      intro g u outside
      exact gives_except fun _ _ => (crossed_covariant around).mpr ⟨outside, inside⟩
  | case4 x inner outer around within outer' inner' found ih =>
      refine gives_bind (ih s) ?_
      intro f t through
      exact gives_except fun _ _ => (crossed_bridged negation found).mpr through
  | case5 | case6 => exact gives_throw _ _ _

theorem importDefined_iff {c : Context} {b : Formula} {s : Supply} (around : c.Below s)
    (side : b.Below s) : c.ImportDefined b ↔ c.Crossed (Layer.Passes b) := by
  constructor
  · intro everywhere
    obtain ⟨f, t, result, _⟩ := everywhere (.unit true) s around side trivial
    exact c.gives_crossed b (.unit true) s f t result
  · have negation : Layer.not.Passes b := trivial
    apply Crossed.induction (motive := fun c => c.ImportDefined b) negation
    · intro x s _ _ _
      rw [importAt]
      exact yields_pure ⟨.of_eq rfl rfl, Nat.le_refl _⟩
    · exact fun l => Layer.importDefined_of_passes
    · exact fun inner outer within around => importDefined_covariant within around
    · intro inner outer inner' outer' within around found through
      exact importDefined_bridged within around found through

theorem ImportDefined.pushDefined {c : Context} {b : Formula} {s : Supply} (around : c.Below s)
    (side : b.Below s) (pulls : c.ImportDefined b) : c.PushDefined false b := by
  have crossed := (importDefined_iff around side).mp pulls
  exact (c.pushDefined_iff b).mpr ⟨crossed.covariant, crossed.admitted⟩

/-- Only what import undoes is followed; exports and the pushes inside of them are not. -/
theorem crossed_of_pushAt (b : Formula) :
    (∀ invertible (c : Context) x f, c.pushAt invertible b x = .ok f → invertible = true →
        c.Crossed (Layer.Lifts b)) ∧
      ∀ (c : Context) x f, c.exportAt b x = .ok f → True := by
  have lifts : Layer.Lifts b .not := ⟨by simp, trivial⟩
  apply pushAt_exportAt_success b
  case atHole => exact fun _ _ _ => ⟨by simp [layers], rfl⟩
  case atLayer =>
      rintro _ l x f done rfl
      obtain ⟨covariant, passes⟩ := l.passes_of_pushAt true b x f done
      refine crossed_layer covariant ⟨?_, passes⟩
      rintro rfl
      cases done
  case covariant =>
      intro _ _ _ _ _ _ _ _ around outside inside _ strict
      exact (crossed_covariant around).mpr ⟨outside strict, inside strict⟩
  case bridged =>
      intro _ _ _ _ _ _ _ _ _ _ found through _ strict
      exact (crossed_bridged lifts found).mpr (through strict)
  case twice =>
      intro _ _ _ _ _ _ _ _ _ _ _ _ strict
      cases strict
  case exportLayer | exportInner | exportOuter => intros; trivial

theorem pushDefined_true_iff {c : Context} {b : Formula} :
    c.PushDefined true b ↔ c.Crossed (Layer.Lifts b) := by
  constructor
  · intro everywhere
    obtain ⟨f, pushed, _⟩ := everywhere (.unit true)
    exact (crossed_of_pushAt b).1 true c _ f pushed rfl
  · apply Crossed.induction (motive := fun c => c.PushDefined true b) ⟨by simp, trivial⟩
    · intro x
      rw [pushAt]
      exact ⟨_, rfl, .of_eq rfl rfl⟩
    · rintro l covariant ⟨other, passes⟩
      obtain ⟨f, pushed⟩ := l.exists_pushAt_of_passes b (.unit true) covariant passes
      exact l.pushDefined true b (.unit true) f ((Layer.pushAt_invertible other b _).trans pushed)
    · exact fun inner outer within around inside outside =>
        pushDefined_covariant within around outside inside
    · intro inner outer inner' outer' within around found through
      exact pushDefined_bridged within around found through

theorem liftSide_succeeds_iff (c : Context) (b : Formula) (s : Supply) :
    (∃ t u, (c.liftSide b).run s = (.ok t, u)) ↔ c.Crossed (Layer.Lifts b) := by
  rw [← pushDefined_true_iff]
  constructor
  · rintro ⟨t, u, result⟩
    exact (c.gives_liftSide b s t u result).2
  · intro everywhere
    have covariant := (pushDefined_true_iff.mp everywhere).covariant
    obtain ⟨f, pushed, _⟩ := everywhere (probe s).1
    refine (Transformation.lifting c b).probed_succeeds (if_pos covariant) s
      (f := f) (u := (probe s).2) ?_
    rw [Transformation.arrowAt, liftAt, pushed]
    rfl

theorem crossed_passes_iff {c : Context} {b : Formula} :
    c.Crossed (Layer.Passes b) ↔
      c.variance = .covariant ∧ (∀ l ∈ c.layers, l.Passes b) ∧ Layer.EvenBlocks c.layers := by
  rw [← Layer.paired_iff_evenBlocks]
  exact ⟨fun crossed => ⟨crossed.covariant, crossed.admitted, crossed.paired⟩,
    fun ⟨_, admitted, paired⟩ => ⟨admitted, paired⟩⟩

theorem crossed_lifts_iff {c : Context} {b : Formula} :
    c.Crossed (Layer.Lifts b) ↔ c.Crossed (Layer.Passes b) ∧ .always ∉ c.layers := by
  constructor
  · rintro ⟨admitted, paired⟩
    exact ⟨⟨fun l member => (admitted l member).2, paired⟩,
      fun member => (admitted _ member).1 rfl⟩
  · rintro ⟨⟨admitted, paired⟩, absent⟩
    exact ⟨fun l member => ⟨fun exponential => absent (exponential ▸ member), admitted l member⟩,
      paired⟩

/-- A side formula can be imported exactly if the context is covariant, every layer lets it
pass and every block of negations is even, and lifted exactly if there is no exponential
besides. The grouping of the layers makes no difference. -/
theorem import_lift_domain (c : Context) (b : Formula) (s : Supply) (around : c.Below s)
    (side : b.Below s) :
    ((∃ t u, (c.importSide b).run s = (.ok t, u)) ↔
        c.variance = .covariant ∧ (∀ l ∈ c.layers, l.Passes b) ∧ Layer.EvenBlocks c.layers) ∧
      ((∃ t u, (c.liftSide b).run s = (.ok t, u)) ↔
        (c.variance = .covariant ∧ (∀ l ∈ c.layers, l.Passes b) ∧ Layer.EvenBlocks c.layers) ∧
          .always ∉ c.layers) ∧
      ∀ (d : Context) (s' : Supply), c.eqv d → d.Below s' → b.Below s' →
        ((∃ t u, (c.importSide b).run s = (.ok t, u)) ↔
          ∃ t u, (d.importSide b).run s' = (.ok t, u)) ∧
        ((∃ t u, (c.liftSide b).run s = (.ok t, u)) ↔
          ∃ t u, (d.liftSide b).run s' = (.ok t, u)) := by
  have imports (d : Context) (s' : Supply) (around : d.Below s') (side : b.Below s') :
      (∃ t u, (d.importSide b).run s' = (.ok t, u)) ↔ d.Crossed (Layer.Passes b) := by
    rw [importSide_succeeds_iff d b s' around side, importDefined_iff around side]
    exact ⟨fun both => both.2, fun crossed => ⟨crossed.covariant, crossed⟩⟩
  have lifts := liftSide_succeeds_iff (b := b)
  refine ⟨?_, ?_, fun d s' same around' side' => ⟨?_, ?_⟩⟩
  · rw [imports c s around side, crossed_passes_iff]
  · rw [lifts c s, crossed_lifts_iff, crossed_passes_iff]
  · rw [imports c s around side, imports d s' around' side']
    exact crossed_of_eqv (fun l => Layer.passes_kind) same
  · rw [lifts c s, lifts d s']
    exact crossed_of_eqv (fun l => Layer.lifts_kind) same

/-- A block of two negations is crossed whether or not the grouping cuts it in two; two
negations around a conjunction are not. -/
theorem import_lift_domain_double_negation :
    let o : Formula := .holds ⟨0⟩ ⟨0⟩
    let beside : Context := .layer (.conj .and .left o)
    let bound : Context := .layer (.quant .ex ⟨1⟩)
    let cut : Context := .comp (.comp beside (.layer .not)) (.comp (.layer .not) bound)
    let whole : Context := .comp beside (.comp (.comp (.layer .not) (.layer .not)) bound)
    let apart : Context := .comp (.comp (.layer .not) beside) (.layer .not)
    cut.Below ⟨2⟩ ∧ whole.Below ⟨2⟩ ∧ apart.Below ⟨2⟩ ∧ o.Below ⟨2⟩ ∧ cut.eqv whole ∧
      (∃ t u, (cut.importSide o).run ⟨2⟩ = (.ok t, u)) ∧
      (∃ t u, (whole.liftSide o).run ⟨2⟩ = (.ok t, u)) ∧
      apart.variance = .covariant ∧ ¬ ∃ t u, (apart.importSide o).run ⟨2⟩ = (.ok t, u) := by
  intro o beside bound cut whole apart
  have side : o.Below ⟨2⟩ := by decide
  have around : cut.Below ⟨2⟩ := by decide
  have around' : whole.Below ⟨2⟩ := by decide
  have around'' : apart.Below ⟨2⟩ := by decide
  have even : Layer.EvenBlocks cut.layers := Layer.paired_iff_evenBlocks.mp (by decide)
  have crossed : cut.variance = .covariant ∧ (∀ l ∈ cut.layers, l.Passes o) ∧
      Layer.EvenBlocks cut.layers := ⟨rfl, by decide, even⟩
  obtain ⟨imports, lifts, regrouped⟩ := import_lift_domain cut o ⟨2⟩ around side
  have equal : cut.eqv whole := by decide
  refine ⟨around, around', around'', side, equal, imports.mpr crossed, ?_, rfl, ?_⟩
  · exact (regrouped whole ⟨2⟩ equal around' side).2.mp (lifts.mpr ⟨crossed, by decide⟩)
  · intro imported
    have blocks := ((import_lift_domain apart o ⟨2⟩ around'' side).1.mp imported).2.2
    exact absurd (Layer.paired_iff_evenBlocks.mpr blocks) (by decide)

end Context

end LinearCalculus
