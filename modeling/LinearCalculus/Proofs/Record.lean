import LinearCalculus.Codec.Arrow
import LinearCalculus.Proofs.Variables

namespace LinearCalculus

/-- Reserve the identities of several variables, the last one first. -/
def Supply.reserveAll (s : Supply) (vs : List Var) : Supply := vs.foldr (fun v t => t.reserve v) s

theorem Supply.le_reserveAll (s : Supply) (vs : List Var) : s.next ≤ (s.reserveAll vs).next := by
  induction vs with
  | nil => exact Nat.le_refl _
  | cons v vs ih => exact Nat.le_trans ih (Nat.le_max_left _ _)

theorem Supply.lt_reserveAll {s : Supply} {vs : List Var} {v : Var} (member : v ∈ vs) :
    v.id < (s.reserveAll vs).next := by
  induction vs with
  | nil => cases member
  | cons w vs ih =>
      rcases List.mem_cons.mp member with rfl | later
      · exact Nat.le_max_right _ _
      · exact Nat.lt_of_lt_of_le (ih later) (Nat.le_max_left _ _)

theorem Supply.reserveAll_le {s : Supply} {vs : List Var} {bound : Nat} (here : s.next ≤ bound)
    (small : ∀ v ∈ vs, v.id < bound) : (s.reserveAll vs).next ≤ bound := by
  induction vs with
  | nil => exact here
  | cons v vs ih =>
      obtain ⟨first, rest⟩ := List.forall_mem_cons.mp small
      exact Nat.max_le.mpr ⟨ih rest, first⟩

theorem Supply.reserveAll_append (s : Supply) (vs ws : List Var) :
    s.reserveAll (vs ++ ws) = (s.reserveAll ws).reserveAll vs :=
  List.foldr_append

namespace Decoder

def Recorded {α : Type} (x : Decoder α) (y : DecoderOver (List Var) α) (known : Var → Prop)
    (vars : α → List Var) : Prop :=
  ∃ outcome met, (∀ s, x.run s = (outcome, s.reserveAll met)) ∧
    (∀ record, y.run record = (outcome, met ++ record)) ∧
    (∀ v ∈ met, v.id < Supply.capacity) ∧
    ∀ a, outcome = .ok a → Among (fun v => v ∈ met ∨ known v) (vars a)

section

variable {α β : Type} {known : Var → Prop} {V : α → List Var} {W : β → List Var}

theorem recorded_pure {a : α} (among : Among known (V a)) : Recorded (pure a) (pure a) known V := by
  refine ⟨.ok a, [], fun s => rfl, fun record => rfl, by simp, ?_⟩
  intro a' same
  cases same
  exact among.mono fun _ => .inr

theorem recorded_throw (e : DecodeError) :
    Recorded (throw e : Decoder α) (throw e) known V :=
  ⟨.error e, [], fun s => rfl, fun record => rfl, by simp, fun _ same => nomatch same⟩

theorem recorded_bind {x : Decoder α} {y : DecoderOver (List Var) α} {f : α → Decoder β}
    {g : α → DecoderOver (List Var) β} (first : Recorded x y known V)
    (rest : ∀ (known' : Var → Prop) a, (∀ v, known v → known' v) → Among known' (V a) →
      Recorded (f a) (g a) known' W) :
    Recorded (x >>= f) (y >>= g) known W := by
  obtain ⟨outcome, met, supply, record, small, among⟩ := first
  cases outcome with
  | error e =>
      refine ⟨.error e, met, fun s => ?_, fun r => ?_, small, fun _ same => nomatch same⟩
      · rw [ExceptT.run_bind]
        simp only [bind, StateT.bind, supply]
        rfl
      · rw [ExceptT.run_bind]
        simp only [bind, StateT.bind, record]
        rfl
  | ok a =>
      obtain ⟨outcome', met', supply', record', small', among'⟩ :=
        rest (fun v => v ∈ met ∨ known v) a (fun _ => .inr) (among a rfl)
      refine ⟨outcome', met' ++ met, fun s => ?_, fun r => ?_, ?_, fun b same => ?_⟩
      · rw [ExceptT.run_bind]
        simp only [bind, StateT.bind, supply, supply', Supply.reserveAll_append]
      · rw [ExceptT.run_bind]
        simp only [bind, StateT.bind, record, record', List.append_assoc]
      · exact List.forall_mem_append.mpr ⟨small', small⟩
      · refine (among' b same).mono fun v => ?_
        rw [List.mem_append, or_assoc]
        exact id

theorem recorded_make {x : Decoder α} {y : DecoderOver (List Var) α} {make : α → β}
    (decoded : Recorded x y known V)
    (among : ∀ a (known' : Var → Prop), Among known' (V a) → Among known' (W (make a))) :
    Recorded (x >>= fun a => pure (make a)) (y >>= fun a => pure (make a)) known W :=
  recorded_bind decoded fun known' a _ here => recorded_pure (among a known' here)

theorem recorded_map {x : Decoder α} {y : DecoderOver (List Var) α} {make : α → β}
    (decoded : Recorded x y known V)
    (among : ∀ a (known' : Var → Prop), Among known' (V a) → Among known' (W (make a))) :
    Recorded (make <$> x) (make <$> y) known W := by
  obtain ⟨outcome, met, supply, record, small, here⟩ := decoded
  refine ⟨outcome.map make, met, fun s => ?_, fun r => ?_, small, fun b same => ?_⟩
  · rw [ExceptT.run_map]
    simp only [Functor.map, StateT.map, supply]
    rfl
  · rw [ExceptT.run_map]
    simp only [Functor.map, StateT.map, record]
    rfl
  · cases outcome with
    | error e => cases same
    | ok a =>
        cases same
        exact among a _ (here a rfl)

theorem recorded_after_need {o : Option α} {f : α → Decoder β} {g : α → DecoderOver (List Var) β}
    (rest : ∀ a, o = some a → Recorded (f a) (g a) known W) :
    Recorded (need o >>= f) (need o >>= g) known W := by
  cases o with
  | none => exact recorded_throw _
  | some a => exact rest a rfl

theorem recorded_after_guard {b : Bool} {x : Decoder β} {y : DecoderOver (List Var) β}
    (rest : Recorded x y known W) :
    Recorded (guard b >>= fun _ => x) (guard b >>= fun _ => y) known W := by
  cases b with
  | false => exact recorded_throw _
  | true => exact rest

end

theorem recorded_var (j : Json) (known : Var → Prop) :
    Recorded (var j) (var j) known (fun v => [v]) := by
  unfold var
  split
  · split
    · split
      · rename_i id _ small
        refine ⟨.ok ⟨id⟩, [⟨id⟩], fun s => rfl, fun record => rfl, by simpa using small, ?_⟩
        intro v same
        cases same
        simp
      · split <;> exact recorded_throw _
    · exact recorded_throw _
  · exact recorded_throw _

section

variable {α β γ δ : Type} {V : α → List Var} {W : β → List Var} {X : γ → List Var}
  {Y : δ → List Var} {known : Var → Prop}

def Records (d : Json → Decoder α) (d' : Json → DecoderOver (List Var) α) (vars : α → List Var) :
    Prop :=
  ∀ j known, Recorded (d j) (d' j) known vars

theorem records_choice (form : Form) (levels : Nat) (named : String → Option α) :
    Records (choice form levels named) (choice form levels named) (fun _ => []) := by
  intro j known
  refine recorded_after_need fun t _ => recorded_after_need fun a _ => ?_
  split
  · exact recorded_pure (among_nil _)
  · exact recorded_after_guard (recorded_pure (among_nil _))
  · exact recorded_throw _

theorem records_argumentOf (form : Form) {d : String → Json → Decoder α}
    {d' : String → Json → DecoderOver (List Var) α} (each : ∀ name, Records (d name) (d' name) V) :
    Records (argumentOf form d) (argumentOf form d') V := by
  intro j known
  refine recorded_after_need fun t _ => recorded_after_need fun argument _ => ?_
  refine recorded_bind (each t.name argument known) ?_
  intro _ a _ among
  exact recorded_after_guard (recorded_pure among)

variable {d₁ : Json → Decoder α} {d₁' : Json → DecoderOver (List Var) α}
  {d₂ : Json → Decoder β} {d₂' : Json → DecoderOver (List Var) β}
  {d₃ : Json → Decoder γ} {d₃' : Json → DecoderOver (List Var) γ}
  {d₄ : Json → Decoder δ} {d₄' : Json → DecoderOver (List Var) δ}

theorem recorded_item (each : Records d₁ d₁' V) (items : List Json) :
    Recorded (item d₁ items) (item d₁' items) known (fun p => V p.1) := by
  cases items with
  | nil => exact recorded_throw _
  | cons j rest =>
      refine recorded_bind (each j known) ?_
      intro _ a _ among
      exact recorded_pure among

theorem recorded_two (first : Records d₁ d₁' V) (second : Records d₂ d₂' W) (items : List Json) :
    Recorded (two d₁ d₂ items) (two d₁' d₂' items) known (fun p => V p.1 ++ W p.2) := by
  refine recorded_bind (recorded_item first items) ?_
  intro _ p _ one
  refine recorded_bind (recorded_item second p.2) ?_
  intro _ q more two
  exact recorded_after_guard (recorded_pure (among_append.mpr ⟨one.mono more, two⟩))

theorem recorded_three (first : Records d₁ d₁' V) (second : Records d₂ d₂' W)
    (third : Records d₃ d₃' X) (items : List Json) :
    Recorded (three d₁ d₂ d₃ items) (three d₁' d₂' d₃' items) known
      (fun p => V p.1 ++ (W p.2.1 ++ X p.2.2)) := by
  refine recorded_bind (recorded_item first items) ?_
  intro _ p _ one
  refine recorded_bind (recorded_item second p.2) ?_
  intro _ q more two
  refine recorded_bind (recorded_item third q.2) ?_
  intro _ r more' three
  refine recorded_after_guard (recorded_pure ?_)
  simp [(one.mono more).mono more', two.mono more', three]

theorem recorded_four (first : Records d₁ d₁' V) (second : Records d₂ d₂' W)
    (third : Records d₃ d₃' X) (fourth : Records d₄ d₄' Y) (items : List Json) :
    Recorded (four d₁ d₂ d₃ d₄ items) (four d₁' d₂' d₃' d₄' items) known
      (fun p => V p.1 ++ (W p.2.1 ++ (X p.2.2.1 ++ Y p.2.2.2))) := by
  refine recorded_bind (recorded_item first items) ?_
  intro _ p _ one
  refine recorded_bind (recorded_item second p.2) ?_
  intro _ q more two
  refine recorded_bind (recorded_item third q.2) ?_
  intro _ r more' three
  refine recorded_bind (recorded_item fourth r.2) ?_
  intro _ t more'' four
  refine recorded_after_guard (recorded_pure ?_)
  simp [((one.mono more).mono more').mono more'', (two.mono more').mono more'', three.mono more'',
    four]

end

theorem recorded_varPair (levels : Nat) (j : Json) (known : Var → Prop) :
    Recorded (varPair levels j) (varPair levels j) known (fun p => [p.1, p.2]) := by
  unfold varPair
  split
  · exact recorded_two recorded_var recorded_var _
  · exact recorded_throw _

theorem records_formulaArgument (form : Form) (levels : Nat)
    {direct listed : Json → Decoder Formula}
    {direct' listed' : Json → DecoderOver (List Var) Formula}
    (here : Records direct direct' Formula.vars) (inside : Records listed listed' Formula.vars)
    (name : String) :
    Records (formulaArgument form levels direct listed name)
      (formulaArgument form levels direct' listed' name) Formula.vars := by
  intro argument known
  unfold formulaArgument
  split
  · exact recorded_make (recorded_varPair _ _ known) (by simp)
  · exact recorded_make (recorded_varPair _ _ known) (by simp)
  · exact recorded_map (records_choice form _ _ _ known) (by simp)
  · exact recorded_map (here _ known) (by simp)
  · exact recorded_map (here _ known) (by simp)
  · exact recorded_make (recorded_three (records_choice form _ _) inside inside _) (by simp)
  · exact recorded_make (recorded_three (records_choice form _ _) recorded_var inside _) (by simp)
  · exact recorded_throw _

/-- By induction on the brackets that are left. -/
theorem records_formulas (form : Form) (levels : Nat) :
    Records (formula form levels) (formula form levels) Formula.vars ∧
      Records (formulaListed form levels) (formulaListed form levels) Formula.vars := by
  induction levels with
  | zero => exact ⟨fun _ _ => recorded_throw _, fun _ _ => recorded_throw _⟩
  | succ levels ih =>
      refine ⟨fun j known => ?_, ih.1⟩
      exact records_argumentOf form (records_formulaArgument form levels ih.1 ih.2) j known

theorem records_formula (form : Form) (levels : Nat) :
    Records (formula form levels) (formula form levels) Formula.vars :=
  (records_formulas form levels).1

end Decoder

def Fields.vars (fs : Fields) : List Var :=
  fs.body.elim [] Formula.vars ++ fs.witness.toList ++ fs.bound.toList ++ fs.left.toList ++
    fs.right.toList

namespace Decoder

theorem recorded_field (form : Form) (levels : Nat) (fs : Fields) (f : Field) (j : Json)
    {known : Var → Prop} (among : Among known fs.vars) :
    Recorded (field form levels fs f j) (field form levels fs f j) known Fields.vars := by
  cases f with
  | body =>
      refine recorded_bind (records_formula form levels j known) ?_
      intro _ g more here
      have others := among.mono more
      exact recorded_pure (by simp_all [Fields.vars])
  | direction =>
      refine recorded_bind (records_choice form levels _ j known) ?_
      intro _ way more _
      exact recorded_pure (among.mono more)
  | witness | bound | left | right =>
      refine recorded_bind (recorded_var j known) ?_
      intro _ v more here
      have others := among.mono more
      exact recorded_pure (by simp_all [Fields.vars])

theorem recorded_members (form : Form) (levels : Nat) (names : List Field) (fs : Fields)
    (ms : List (List Char × Json)) {known : Var → Prop} (among : Among known fs.vars) :
    Recorded (members form levels names fs ms) (members form levels names fs ms) known
      Fields.vars := by
  induction ms generalizing fs known with
  | nil => exact recorded_pure among
  | cons m rest ih =>
      unfold members
      refine recorded_after_need fun name _ => ?_
      split
      · refine recorded_after_guard (recorded_bind (recorded_field form levels fs _ _ among) ?_)
        intro _ fs' _ among'
        exact ih fs' among'
      · exact recorded_after_guard (ih fs among)

theorem recorded_inOrder (form : Form) (levels : Nat) (names : List Field) (fs : Fields)
    (items : List Json) {known : Var → Prop} (among : Among known fs.vars) :
    Recorded (inOrder form levels names fs items) (inOrder form levels names fs items) known
      Fields.vars := by
  induction names generalizing fs items known with
  | nil =>
      cases items with
      | nil => exact recorded_pure among
      | cons j items => exact recorded_throw _
  | cons f names ih =>
      cases items with
      | nil => exact recorded_throw _
      | cons j items =>
          refine recorded_bind (recorded_field form levels fs f j among) ?_
          intro _ fs' _ among'
          exact ih fs' items among'

theorem records_fields (form : Form) (names : List Field) (levels : Nat) :
    Records (fields form names levels) (fields form names levels) Fields.vars := by
  intro j known
  have empty : Among known ({} : Fields).vars := among_nil _
  unfold fields
  split
  · exact recorded_members form _ names {} _ empty
  · split
    · exact recorded_inOrder form _ names {} _ empty
    · exact recorded_throw _
  · exact recorded_throw _

theorem recorded_listed (form : Form) (levels : Nat) (name : String) (items : List Json)
    (known : Var → Prop) :
    Recorded (listed form levels name items) (listed form levels name items) known
      Primitive.vars := by
  have kind := records_choice (α := Connective) form levels
  have f := records_formula form levels
  have v := recorded_var
  unfold listed
  split
  · exact recorded_make (recorded_three (kind _) f f items) (by simp)
  · exact recorded_make (recorded_four (kind _) f f f items) (by simp)
  · exact recorded_make (recorded_four (kind _) f f f items) (by simp)
  · exact recorded_make (recorded_two (kind _) f items) (by simp)
  · exact recorded_make (recorded_two (kind _) f items) (by simp)
  · exact recorded_make (recorded_three f f f items) (by simp)
  · exact recorded_make (recorded_two f f items) (by simp)
  · exact recorded_make (recorded_two f f items) (by simp)
  · exact recorded_make (recorded_two f f items) (by simp)
  · exact recorded_make (recorded_two f f items) (by simp)
  · exact recorded_make (recorded_two f f items) (by simp)
  · exact recorded_make (recorded_two v f items) (by simp)
  · exact recorded_make (recorded_two v f items) (by simp)
  · exact recorded_make (recorded_three f v f items) (by simp)
  · exact recorded_make (recorded_three f v f items) (by simp)
  · exact recorded_throw _

theorem recorded_primitive (form : Form) (levels : Nat) (name : String) (argument : Json)
    (known : Var → Prop) :
    Recorded (primitive form levels name argument) (primitive form levels name argument) known
      Primitive.vars := by
  have f := records_formula form levels argument known
  unfold primitive
  split
  · exact recorded_map f (by simp)
  · exact recorded_map f (by simp)
  · exact recorded_map f (by simp)
  · exact recorded_map f (by simp)
  · refine recorded_bind (records_fields form _ levels argument known) ?_
    intro _ fs _ among
    refine recorded_after_need fun body hasBody => recorded_after_need fun witness hasWitness =>
      recorded_after_need fun bound hasBound => recorded_pure ?_
    simp_all [Fields.vars]
  · refine recorded_bind (records_fields form _ levels argument known) ?_
    intro _ fs _ among
    refine recorded_after_need fun bound hasBound => recorded_after_need fun body hasBody =>
      recorded_after_need fun witness hasWitness => recorded_pure ?_
    simp_all [Fields.vars]
  · refine recorded_bind (records_fields form _ levels argument known) ?_
    intro _ fs _ among
    refine recorded_after_need fun left hasLeft => recorded_after_need fun right hasRight =>
      recorded_after_need fun body hasBody => recorded_after_need fun way _ => recorded_pure ?_
    simp_all [Fields.vars]
  · split
    · exact recorded_listed form _ _ _ known
    · exact recorded_throw _

theorem recorded_checked {x : Decoder Arrow} {y : DecoderOver (List Var) Arrow}
    {known : Var → Prop} (decoded : Recorded x y known Arrow.vars) :
    Recorded (checked x) (checked y) known Arrow.vars := by
  refine recorded_bind decoded ?_
  intro _ f _ among
  split
  · exact recorded_throw _
  · exact recorded_pure among

theorem records_arrowArgument (form : Form) (levels : Nat) {direct nested : Json → Decoder Arrow}
    {direct' nested' : Json → DecoderOver (List Var) Arrow}
    (here : Records direct direct' Arrow.vars) (inside : Records nested nested' Arrow.vars)
    (name : String) :
    Records (arrowArgument form levels direct nested name)
      (arrowArgument form levels direct' nested' name) Arrow.vars := by
  intro argument known
  have part : Records (fun j => checked (nested j)) (fun j => checked (nested' j)) Arrow.vars :=
    fun j known => recorded_checked (inside j known)
  unfold arrowArgument
  split
  · exact recorded_map (records_formula form _ _ known) (by simp)
  · exact recorded_map (recorded_checked (here _ known)) (by simp)
  · exact recorded_map (recorded_checked (here _ known)) (by simp)
  · exact recorded_make (recorded_two part part _) (by simp)
  · exact recorded_make
      (recorded_three (records_choice form _ _) part (records_formula form _) _) (by simp)
  · exact recorded_make
      (recorded_three (records_choice form _ _) (records_formula form _) part _) (by simp)
  · exact recorded_make (recorded_three (records_choice form _ _) part part _) (by simp)
  · exact recorded_make (recorded_three (records_choice form _ _) recorded_var part _) (by simp)
  · exact recorded_map (recorded_primitive form _ _ _ known) (by simp)

theorem records_arrows (form : Form) (levels : Nat) :
    Records (arrow form levels) (arrow form levels) Arrow.vars ∧
      Records (arrowNested form levels) (arrowNested form levels) Arrow.vars := by
  induction levels with
  | zero => exact ⟨fun _ _ => recorded_throw _, fun _ _ => recorded_throw _⟩
  | succ levels ih =>
      refine ⟨fun j known => ?_, ih.1⟩
      exact records_argumentOf form (records_arrowArgument form levels ih.1 ih.2) j known

theorem recorded_arrowText (text : String) (known : Var → Prop) :
    Recorded (arrowText text) (arrowText text) known Arrow.vars := by
  refine recorded_bind ((records_arrows .text Json.textLevels).1 _ known) ?_
  intro _ f _ among
  exact recorded_after_guard (recorded_pure among)

end Decoder

end LinearCalculus
