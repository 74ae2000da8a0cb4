import LinearCalculus.Codec.Arrow
import LinearCalculus.Proofs.Formula.Replacement
import LinearCalculus.Proofs.Result

namespace LinearCalculus

namespace Primitive

theorem freeFault?_eq_none (rule : Rule) (v : Var) (f : Formula) :
    freeFault? rule v f = none ↔ f.isFree v = false := by
  cases free : f.isFree v <;> simp [freeFault?, free]

theorem hygieneFault?_eq_none (rule : Rule) (old new : Var) (f : Formula) :
    hygieneFault? rule old new f = none ↔ f.Replaceable old new := by
  unfold hygieneFault?
  cases result : f.substitute old new with
  | error e =>
      have forbidden : ¬ f.Replaceable old new := by
        intro replaceable
        have replaced := (Formula.substitute_eq_ok_iff old new f _).mpr ⟨replaceable, rfl⟩
        rw [result] at replaced
        cases replaced
      simp [forbidden]
  | ok g => simp [((Formula.substitute_eq_ok_iff old new f g).mp result).1]

theorem introExists_fault?_eq_none (body : Formula) (witness bound : Var) :
    (introExists body witness bound).fault? = none ↔
      (witness = bound ∨ body.isFree bound = false) ∧ body.Replaceable witness bound := by
  simp only [fault?]
  split
  · rename_i taken
    simp [taken.1, taken.2]
  · rename_i unbound
    have usable : witness = bound ∨ body.isFree bound = false := by
      by_cases same : witness = bound
      · exact .inl same
      · exact .inr (by simpa [same] using unbound)
    simp [hygieneFault?_eq_none, usable]

end Primitive

namespace Arrow

theorem composite_fault?_eq_none (f g : Arrow) :
    (composite f g).fault? = none ↔ f.target.alphaEq g.source := by
  cases fits : f.target.alphaEq g.source <;> simp [fault?, fits]

/-- The arrows to which the rule at the root is applied. -/
def parts : Arrow → List Arrow
  | composite f g | onConj _ f g => [f, g]
  | onLeft _ f _ | onRight _ _ f | onNot f | onAlways f | onBody _ _ f => [f]
  | identity _ | prim _ => []

theorem checked_eq_ok_iff (f g : Arrow) : f.checked = .ok g ↔ f.fault? = none ∧ g = f := by
  unfold checked
  cases fault : f.fault? with
  | some e => simp
  | none => simp [eq_comm]

theorem compose_eq_ok_iff {f g h : Arrow} :
    f.compose g = .ok h ↔ f.target.alphaEq g.source ∧ h = composite f g := by
  rw [compose, checked_eq_ok_iff, composite_fault?_eq_none]

theorem wellTyped_iff (f : Arrow) :
    f.WellTyped ↔ (∀ g ∈ f.parts, g.WellTyped) ∧ f.fault? = none := by
  cases f <;> simp [WellTyped, parts, fault?, and_assoc]

theorem prim_wellTyped_of_checked {p : Primitive} {f : Arrow} (result : (prim p).checked = .ok f) :
    f.WellTyped := by
  obtain ⟨clear, rfl⟩ := (checked_eq_ok_iff (prim p) f).mp result
  exact clear

theorem wellTyped_of_compose {f g h : Arrow} (result : f.compose g = .ok h) (first : f.WellTyped)
    (second : g.WellTyped) : h.WellTyped := by
  obtain ⟨fits, rfl⟩ := (checked_eq_ok_iff (composite f g) h).mp result
  exact ⟨first, second, fits⟩

theorem wellTyped_of_chain {f h : Arrow} {rest : List Arrow} (result : f.chain rest = .ok h)
    (typed : ∀ g ∈ f :: rest, g.WellTyped) : h.WellTyped := by
  induction rest generalizing f with
  | nil =>
      cases result
      exact typed h List.mem_cons_self
  | cons g rest ih =>
      obtain ⟨fg, composed, chained⟩ := bind_eq_ok.mp result
      have first := typed f List.mem_cons_self
      have second := typed g (List.mem_cons_of_mem f List.mem_cons_self)
      have front := wellTyped_of_compose composed first second
      apply ih chained
      intro k member
      rcases List.mem_cons.mp member with rfl | later
      · exact front
      · exact typed k (List.mem_cons_of_mem f (List.mem_cons_of_mem g later))

instance WellTyped.decide : (f : Arrow) → Decidable f.WellTyped
  | identity _ => inferInstanceAs (Decidable True)
  | composite f g =>
    have := decide f
    have := decide g
    inferInstanceAs (Decidable (f.WellTyped ∧ g.WellTyped ∧ (composite f g).fault? = none))
  | onConj _ f g =>
    have := decide f
    have := decide g
    inferInstanceAs (Decidable (f.WellTyped ∧ g.WellTyped))
  | onLeft _ f _ | onRight _ _ f | onNot f | onAlways f | onBody _ _ f => decide f
  | prim p => inferInstanceAs (Decidable (p.fault? = none))

def nodes : Arrow → List Arrow
  | composite f g => composite f g :: (f.nodes ++ g.nodes)
  | onLeft k f b => onLeft k f b :: f.nodes
  | onRight k a f => onRight k a f :: f.nodes
  | onConj k f g => onConj k f g :: (f.nodes ++ g.nodes)
  | onNot f => onNot f :: f.nodes
  | onAlways f => onAlways f :: f.nodes
  | onBody q v f => onBody q v f :: f.nodes
  | identity a => [identity a]
  | prim p => [prim p]

theorem wellTyped_of_mem_nodes (f g : Arrow) (typed : f.WellTyped) (member : g ∈ f.nodes) :
    g.WellTyped := by
  induction f with
  | identity a | prim p =>
      simp only [nodes, List.mem_singleton] at member
      exact member ▸ typed
  | composite f g left right =>
      simp only [nodes, List.mem_cons, List.mem_append] at member
      rcases member with rfl | inside | inside
      · exact typed
      · exact left typed.1 inside
      · exact right typed.2.1 inside
  | onConj k f g left right =>
      simp only [nodes, List.mem_cons, List.mem_append] at member
      rcases member with rfl | inside | inside
      · exact typed
      · exact left typed.1 inside
      · exact right typed.2 inside
  | onLeft k f b ih | onRight k a f ih | onNot f ih | onAlways f ih | onBody q v f ih =>
      simp only [nodes, List.mem_cons] at member
      rcases member with rfl | inside
      · exact typed
      · exact ih typed inside

/-- Build the whole arrow again, from its leaves to its root, checking every node. -/
def rebuild : Arrow → Except ShapeError Arrow
  | identity a => (identity a).checked
  | composite f g => do
    let f ← f.rebuild
    let g ← g.rebuild
    (composite f g).checked
  | onLeft k f b => do (onLeft k (← f.rebuild) b).checked
  | onRight k a f => do (onRight k a (← f.rebuild)).checked
  | onConj k f g => do
    let f ← f.rebuild
    let g ← g.rebuild
    (onConj k f g).checked
  | onNot f => do (onNot (← f.rebuild)).checked
  | onAlways f => do (onAlways (← f.rebuild)).checked
  | onBody q v f => do (onBody q v (← f.rebuild)).checked
  | prim p => (prim p).checked

theorem rebuild_eq_ok_iff (f g : Arrow) : f.rebuild = .ok g ↔ f.WellTyped ∧ g = f := by
  induction f generalizing g with
  | identity a => simp [rebuild, checked_eq_ok_iff, WellTyped, fault?]
  | prim p => simp [rebuild, checked_eq_ok_iff, WellTyped, fault?]
  | composite f h left right =>
      simp only [rebuild, bind_eq_ok, left, right, checked_eq_ok_iff, WellTyped]
      grind
  | onConj k f h left right =>
      simp only [rebuild, bind_eq_ok, left, right, checked_eq_ok_iff, WellTyped]
      grind [fault?]
  | onLeft k f b ih | onRight k a f ih | onNot f ih | onAlways f ih | onBody q v f ih =>
      simp only [rebuild, bind_eq_ok, ih, checked_eq_ok_iff, WellTyped]
      grind [fault?]

end Arrow

namespace Decoder

theorem gives_item {α : Type} {decode : Json → Decoder α} {P : α → Prop}
    (each : ∀ j s, Gives (decode j) s (fun a _ => P a)) (items : List Json) (s : Supply) :
    Gives (item decode items) s (fun p _ => P p.1) := by
  cases items with
  | nil => exact gives_throw _ _ _
  | cons j rest => exact gives_bind (each j s) (fun a t holds => gives_pure holds)

theorem gives_two {α β : Type} {first : Json → Decoder α} {second : Json → Decoder β}
    {P : α → Prop} {Q : β → Prop} (one : ∀ j s, Gives (first j) s (fun a _ => P a))
    (other : ∀ j s, Gives (second j) s (fun b _ => Q b)) (items : List Json) (s : Supply) :
    Gives (two first second items) s (fun p _ => P p.1 ∧ Q p.2) := by
  refine gives_bind (gives_item one items s) ?_
  intro p t left
  refine gives_bind (gives_item other p.2 t) ?_
  intro q u right
  exact gives_after (fun _ _ => gives_pure ⟨left, right⟩)

theorem gives_three {α β γ : Type} {first : Json → Decoder α} {second : Json → Decoder β}
    {third : Json → Decoder γ} {P : α → Prop} {Q : β → Prop} {R : γ → Prop}
    (one : ∀ j s, Gives (first j) s (fun a _ => P a))
    (two : ∀ j s, Gives (second j) s (fun b _ => Q b))
    (three : ∀ j s, Gives (third j) s (fun c _ => R c)) (items : List Json) (s : Supply) :
    Gives (Decoder.three first second third items) s (fun p _ => P p.1 ∧ Q p.2.1 ∧ R p.2.2) := by
  refine gives_bind (gives_item one items s) ?_
  intro p t left
  refine gives_bind (gives_item two p.2 t) ?_
  intro q u middle
  refine gives_bind (gives_item three q.2 u) ?_
  intro r v right
  exact gives_after (fun _ _ => gives_pure ⟨left, middle, right⟩)

theorem gives_checked {decode : Decoder Arrow} {s : Supply}
    (inside : Gives decode s (fun f _ => ∀ g ∈ f.parts, g.WellTyped)) :
    Gives (checked decode) s (fun f _ => f.WellTyped) := by
  refine gives_bind inside ?_
  intro f t typed
  cases fault : f.fault? with
  | some e => exact gives_throw _ _ _
  | none => exact gives_pure ((Arrow.wellTyped_iff f).mpr ⟨typed, fault⟩)

theorem gives_argumentOf {α : Type} {form : Form} {decode : String → Json → Decoder α}
    {P : α → Prop} (each : ∀ name argument s, Gives (decode name argument) s (fun a _ => P a)) (j : Json)
    (s : Supply) : Gives (argumentOf form decode j) s (fun a _ => P a) := by
  refine gives_after ?_
  intro tagged t
  refine gives_after ?_
  intro argument u
  refine gives_bind (each tagged.name argument u) ?_
  intro a v holds
  exact gives_after (fun _ _ => gives_pure holds)

theorem gives_arrowArgument (form : Form) (levels : Nat) (direct nested : Json → Decoder Arrow)
    (here : ∀ j s, Gives (direct j) s (fun f _ => ∀ g ∈ f.parts, g.WellTyped))
    (inside : ∀ j s, Gives (nested j) s (fun f _ => ∀ g ∈ f.parts, g.WellTyped))
    (name : String) (argument : Json) (s : Supply) :
    Gives (arrowArgument form levels direct nested name argument) s
      (fun f _ => ∀ g ∈ f.parts, g.WellTyped) := by
  have typed (j : Json) (s : Supply) := gives_checked (inside j s)
  have any {α : Type} (x : Decoder α) (s : Supply) : Gives x s (fun _ _ => True) :=
    fun _ _ _ => trivial
  unfold arrowArgument
  split
  · exact gives_map (fun _ _ _ => by simp [Arrow.parts])
  · refine gives_map (gives_mono (gives_checked (here _ s)) ?_)
    simp [Arrow.parts]
  · refine gives_map (gives_mono (gives_checked (here _ s)) ?_)
    simp [Arrow.parts]
  · refine gives_bind (gives_two typed typed _ s) ?_
    intro p t both
    exact gives_pure (by simp [Arrow.parts, both])
  · refine gives_bind (gives_three (fun _ => any _) typed (fun _ => any _) _ s) ?_
    intro p t both
    exact gives_pure (by simp [Arrow.parts, both])
  · refine gives_bind (gives_three (fun _ => any _) (fun _ => any _) typed _ s) ?_
    intro p t both
    exact gives_pure (by simp [Arrow.parts, both])
  · refine gives_bind (gives_three (fun _ => any _) typed typed _ s) ?_
    intro p t both
    exact gives_pure (by simp [Arrow.parts, both])
  · refine gives_bind (gives_three (fun _ => any _) (fun _ => any _) typed _ s) ?_
    intro p t both
    exact gives_pure (by simp [Arrow.parts, both])
  · exact gives_map (fun _ _ _ => by simp [Arrow.parts])

theorem gives_arrow (form : Form) (levels : Nat) :
    (∀ j (s : Supply), Gives (arrow form levels j) s (fun f _ => ∀ g ∈ f.parts, g.WellTyped)) ∧
      ∀ j (s : Supply), Gives (arrowNested form levels j) s
        (fun f _ => ∀ g ∈ f.parts, g.WellTyped) := by
  induction levels with
  | zero =>
      constructor <;> intro j s <;> exact gives_throw _ _ _
  | succ levels ih =>
      constructor
      · intro j s
        rw [arrow]
        exact gives_argumentOf (gives_arrowArgument form levels _ _ ih.1 ih.2) j s
      · intro j s
        rw [arrowNested]
        exact ih.1 j s

theorem gives_arrowText (text : String) (s : Supply) :
    Gives (arrowText text) s (fun f _ => ∀ g ∈ f.parts, g.WellTyped) := by
  unfold arrowText fromText
  refine gives_bind ((gives_arrow .text Json.textLevels).1 _ s) ?_
  intro f t typed
  exact gives_after (fun _ _ => gives_pure typed)

end Decoder

namespace Arrow

inductive Accepted : Arrow → Prop where
  | built {f g : Arrow} (parts : ∀ h ∈ f.parts, Accepted h) (root : f.checked = .ok g) : Accepted g
  | decoded {form : Form} {levels : Nat} {j : Json} {s t : Supply} {f : Arrow}
      (result : (Decoder.checked (Decoder.arrow form levels j)).run s = (.ok f, t)) : Accepted f
  | read {text : String} {s t : Supply} {f g : Arrow}
      (result : (Decoder.arrowText text).run s = (.ok f, t)) (root : f.checked = .ok g) : Accepted g

theorem Accepted.wellTyped {f : Arrow} (accepted : f.Accepted) : f.WellTyped := by
  induction accepted with
  | @built f g _ root typed =>
      obtain ⟨clear, rfl⟩ := (checked_eq_ok_iff f g).mp root
      exact (wellTyped_iff g).mpr ⟨typed, clear⟩
  | @decoded form levels j s t f result =>
      exact Decoder.gives_checked ((Decoder.gives_arrow form levels).1 j s) f t result
  | @read text s t f g result root =>
      obtain ⟨clear, rfl⟩ := (checked_eq_ok_iff f g).mp root
      exact (wellTyped_iff g).mpr ⟨Decoder.gives_arrowText text s g t result, clear⟩

theorem WellTyped.accepted {f : Arrow} (typed : f.WellTyped) : f.Accepted := by
  have build {g : Arrow} (typed : g.WellTyped) (inside : ∀ h ∈ g.parts, h.Accepted) : g.Accepted :=
    .built inside ((checked_eq_ok_iff g g).mpr ⟨((wellTyped_iff g).mp typed).2, rfl⟩)
  induction f with
  | identity a | prim p => exact build typed (by simp [parts])
  | composite f g left right => exact build typed (by simp [parts, left typed.1, right typed.2.1])
  | onConj k f g left right => exact build typed (by simp [parts, left typed.1, right typed.2])
  | onLeft k f b ih | onRight k a f ih | onNot f ih | onAlways f ih | onBody q v f ih =>
      exact build typed (by simpa [parts] using ih typed)

end Arrow

end LinearCalculus
