import LinearCalculus.Arrow.Move
import LinearCalculus.Proofs.Arrow.Acceptance
import LinearCalculus.Proofs.Formula.Renaming

/-! Rules that are read off the formula they are applied to.

A rule can be built from its formulas, or it can be applied to a formula that has the shape of
its source. `Reads` lists these shapes, one for each move, and the two ways agree: a move gives
an arrow of its own rule that is accepted when built from its formulas, and every such arrow is
found again by the move at its source. Two moves leave room for bound names: the argument of
`apply` stands in its source twice, and `copy` makes a copy of its own. -/

namespace LinearCalculus

open Formula (and or alphaEq_refl alphaEq_symm alphaEq_trans)

namespace Formula

theorem conj?_eq_some {k : Connective} {f a b : Formula} :
    f.conj? k = some (a, b) ↔ f = conj k a b := by
  cases f with
  | conj k' l r =>
      by_cases same : k' = k
      · simp [conj?, same]
      · simp [conj?, same]
  | _ => simp [conj?]

theorem not?_eq_some {f a : Formula} : f.not? = some a ↔ f = not a := by
  cases f <;> simp [not?]

theorem always?_eq_some {f a : Formula} : f.always? = some a ↔ f = always a := by
  cases f <;> simp [always?]

theorem quant?_eq_some {q : Quantifier} {f a : Formula} {x : Var} :
    f.quant? q = some (x, a) ↔ f = quant q x a := by
  cases f with
  | quant q' y body =>
      by_cases same : q' = q
      · simp [quant?, same]
      · simp [quant?, same]
  | _ => simp [quant?]

end Formula

namespace Move

/-- The rule that a move reads off a formula of the right shape. -/
inductive Reads : Move → Formula → Primitive → Prop where
  | commute (k : Connective) (a b : Formula) : Reads .commute (.conj k a b) (.commute k a b)
  | associateA (k : Connective) (a b c : Formula) :
      Reads .associateA (.conj k (.conj k a b) c) (.associateA k a b c)
  | associateB (k : Connective) (a b c : Formula) :
      Reads .associateB (.conj k a (.conj k b c)) (.associateB k a b c)
  | removeUnit (k : Connective) (a : Formula) :
      Reads .removeUnit (.conj k a (.unit k.unit)) (.removeUnit k a)
  | distribute (a b c : Formula) : Reads .distribute (and (or a b) c) (.distribute a b c)
  | forget (a b : Formula) : Reads .forget (and a b) (.forget a b)
  /-- The argument may have other bound names than in the denial. -/
  | apply (a b b' : Formula) (same : b.alphaEq b') :
      Reads .apply (and (.not (and a b)) b') (.apply a b)
  | removeDoubleDual (a : Formula) : Reads .removeDoubleDual (.not (.not a)) (.removeDoubleDual a)
  | cojoin (a : Formula) : Reads .cojoin (.always a) (.cojoin a)
  | derelict (a : Formula) : Reads .derelict (.always a) (.derelict a)
  | copy (a : Formula) : Reads .copy (.always a) (.copy a a)
  | zip (a b : Formula) : Reads .zip (and (.always a) (.always b)) (.zip a b)
  | removeExists (x : Var) (a : Formula) : Reads .removeExists (.quant .ex x a) (.removeExists x a)
  | removeForall (x : Var) (a : Formula) (witness : Var) :
      Reads (.removeForall witness) (.quant .all x a) (.removeForall x a witness)
  | andPastExists (a : Formula) (x : Var) (b : Formula) :
      Reads .andPastExists (and a (.quant .ex x b)) (.andPastExists a x b)
  | existsPastAnd (a : Formula) (x : Var) (b : Formula) :
      Reads .existsPastAnd (.quant .ex x (and a b)) (.existsPastAnd a x b)
  | substitute (l r : Var) (body : Formula) (way : Orientation) :
      Reads (.substitute way) (and (.identical l r) body) (.substitute l r body way)

section

variable {m : Move} {f : Formula}

theorem part_eq_ok {α : Type} {shape : Shape} {found : Option α} {a : α} :
    m.part shape f found = .ok a ↔ found = some a := by
  cases found <;> simp [part]

theorem conjOf_eq_ok {k : Connective} {a b : Formula} :
    m.conjOf f = .ok (k, a, b) ↔ f = .conj k a b := by
  cases f <;> simp [conjOf]

theorem andOf_eq_ok {a b : Formula} : m.andOf f = .ok (a, b) ↔ f = and a b := by
  rw [andOf, part_eq_ok, Formula.conj?_eq_some]

theorem notOf_eq_ok {a : Formula} : m.notOf f = .ok a ↔ f = .not a := by
  rw [notOf, part_eq_ok, Formula.not?_eq_some]

theorem alwaysOf_eq_ok {a : Formula} : m.alwaysOf f = .ok a ↔ f = .always a := by
  rw [alwaysOf, part_eq_ok, Formula.always?_eq_some]

theorem existsOf_eq_ok {x : Var} {a : Formula} : m.existsOf f = .ok (x, a) ↔ f = .quant .ex x a := by
  rw [existsOf, part_eq_ok, Formula.quant?_eq_some]

theorem forallOf_eq_ok {x : Var} {a : Formula} :
    m.forallOf f = .ok (x, a) ↔ f = .quant .all x a := by
  rw [forallOf, part_eq_ok, Formula.quant?_eq_some]

end

theorem reads_of_read {m : Move} {f : Formula} {p : Primitive} (found : m.read f = .ok p) :
    Reads m f p := by
  cases m <;> simp only [read, bind_eq_ok, Prod.exists, conjOf_eq_ok, andOf_eq_ok, notOf_eq_ok,
    alwaysOf_eq_ok, existsOf_eq_ok, forallOf_eq_ok, part_eq_ok, Formula.conj?_eq_some,
    guarded_eq_ok, pure_eq_ok] at found
  case commute =>
      rcases found with ⟨k, a, b, rfl, rfl⟩
      exact .commute k a b
  case associateA =>
      rcases found with ⟨k, _, c, rfl, a, b, rfl, rfl⟩
      exact .associateA k a b c
  case associateB =>
      rcases found with ⟨k, a, _, rfl, b, c, rfl, rfl⟩
      exact .associateB k a b c
  case removeUnit =>
      rcases found with ⟨k, a, _, rfl, rfl, rfl⟩
      exact .removeUnit k a
  case distribute =>
      rcases found with ⟨_, c, rfl, a, b, rfl, rfl⟩
      exact .distribute a b c
  case forget =>
      rcases found with ⟨a, b, rfl, rfl⟩
      exact .forget a b
  case apply =>
      rcases found with ⟨_, b', rfl, _, rfl, a, b, rfl, same, rfl⟩
      exact .apply a b b' same
  case removeDoubleDual =>
      rcases found with ⟨_, rfl, a, rfl, rfl⟩
      exact .removeDoubleDual a
  case cojoin =>
      rcases found with ⟨a, rfl, rfl⟩
      exact .cojoin a
  case derelict =>
      rcases found with ⟨a, rfl, rfl⟩
      exact .derelict a
  case copy =>
      rcases found with ⟨a, rfl, rfl⟩
      exact .copy a
  case zip =>
      rcases found with ⟨_, _, rfl, a, rfl, b, rfl, rfl⟩
      exact .zip a b
  case removeExists =>
      rcases found with ⟨x, a, rfl, rfl⟩
      exact .removeExists x a
  case removeForall witness =>
      rcases found with ⟨x, a, rfl, rfl⟩
      exact .removeForall x a witness
  case andPastExists =>
      rcases found with ⟨a, _, rfl, x, b, rfl, rfl⟩
      exact .andPastExists a x b
  case existsPastAnd =>
      rcases found with ⟨x, _, rfl, a, b, rfl, rfl⟩
      exact .existsPastAnd a x b
  case substitute way =>
      rcases found with ⟨equation, body, rfl, result⟩
      cases equation <;> cases result
      exact .substitute _ _ body way

theorem read_of_reads {m : Move} {f : Formula} {p : Primitive} (reads : Reads m f p) :
    m.read f = .ok p := by
  cases reads with
  -- these four compare what they have taken out of the formula
  | associateA k a b c =>
      have inner : (Formula.conj k a b).conj? k = some (a, b) :=
        Formula.conj?_eq_some.mpr rfl
      exact bind_eq_ok.mpr ⟨_, rfl, bind_eq_ok.mpr ⟨_, part_eq_ok.mpr inner, rfl⟩⟩
  | associateB k a b c =>
      have inner : (Formula.conj k b c).conj? k = some (b, c) :=
        Formula.conj?_eq_some.mpr rfl
      exact bind_eq_ok.mpr ⟨_, rfl, bind_eq_ok.mpr ⟨_, part_eq_ok.mpr inner, rfl⟩⟩
  | removeUnit k a => exact bind_eq_ok.mpr ⟨_, rfl, guarded_eq_ok.mpr ⟨rfl, rfl⟩⟩
  | apply a b b' same =>
      refine bind_eq_ok.mpr ⟨_, rfl, bind_eq_ok.mpr ⟨_, rfl, bind_eq_ok.mpr ⟨(a, b), rfl, ?_⟩⟩⟩
      exact guarded_eq_ok.mpr ⟨same, rfl⟩
  | _ => rfl

end Move

namespace Primitive

/-- The move that finds the rule at its source, unless the source does not tell the rule. -/
def move? : Primitive → Option Move
  | commute .. => some .commute
  | associateA .. => some .associateA
  | associateB .. => some .associateB
  | removeUnit .. => some .removeUnit
  | distribute .. => some .distribute
  | forget .. => some .forget
  | apply .. => some .apply
  | removeDoubleDual .. => some .removeDoubleDual
  | cojoin .. => some .cojoin
  | derelict .. => some .derelict
  | copy .. => some .copy
  | zip .. => some .zip
  | removeExists .. => some .removeExists
  | removeForall _ _ witness => some (.removeForall witness)
  | andPastExists .. => some .andPastExists
  | existsPastAnd .. => some .existsPastAnd
  | substitute _ _ _ way => some (.substitute way)
  | introUnit .. | widen .. | introDoubleDual .. | introExists .. | introForall .. => none

/-- The rule as it is read off its source, with the formula itself for a copy of it. -/
def original : Primitive → Primitive
  | copy a _ => copy a a
  | p => p

theorem rule_of_move? {p : Primitive} {m : Move} (named : p.move? = some m) : p.rule = m.rule := by
  cases p <;> cases named <;> rfl

theorem reads_source {p : Primitive} {m : Move} (named : p.move? = some m) :
    m.Reads p.source p.original := by
  cases p with
  | apply a b =>
      cases named
      exact .apply a b b (alphaEq_refl b)
  | _ => cases named <;> constructor

end Primitive

namespace Move

theorem Reads.move?_eq {m : Move} {f : Formula} {p : Primitive} (reads : Reads m f p) :
    p.move? = some m := by
  cases reads <;> rfl

theorem Reads.source_alphaEq {m : Move} {f : Formula} {p : Primitive} (reads : Reads m f p) :
    p.source.alphaEq f := by
  cases reads with
  | apply a b b' same => simp [Primitive.source, same]
  | _ => exact alphaEq_refl _

end Move

open Arrow

theorem Arrow.copy_wellTyped (a : Formula) (s : Supply) (below : a.Below s) :
    (Arrow.copy a s).1.WellTyped := by
  have same := a.alphaEq_rename s below
  have unfolded : (Arrow.copy a s).1 = prim (.copy a (a.rename s).1) := rfl
  rw [unfolded]
  simp [WellTyped, Primitive.fault?, same]

namespace Move

theorem gives_rule (m : Move) (f : Formula) (s : Supply) (below : m = .copy → f.Below s) :
    Gives (m.applyTo f) s (fun a _ => ∃ p, a = prim p ∧ p.move? = some m ∧ a.WellTyped ∧
      p.source.alphaEq f) := by
  refine gives_bind_except (P := Reads m f) (fun _ found => reads_of_read found) ?_
  intro p reads
  split
  · rename_i a a'
    cases reads
    exact gives_state ⟨_, rfl, rfl, copy_wellTyped a s (below rfl), alphaEq_refl _⟩
  · apply gives_except
    intro g result
    have typed := prim_wellTyped_of_checked result
    cases ((checked_eq_ok_iff _ g).mp result).2
    exact ⟨p, rfl, reads.move?_eq, typed, reads.source_alphaEq⟩

theorem yields_ends {p : Primitive} {m : Move} (named : p.move? = some m) (clear : p.fault? = none)
    (s : Supply) (below : m = .copy → p.source.Below s) :
    Yields (m.applyTo p.source) s
      (fun a _ => a.source.alphaEq p.source ∧ a.target.alphaEq p.target) := by
  have found := read_of_reads (Primitive.reads_source named)
  apply yields_bind (P := fun r t => r = p.original ∧ t = s) (yields_except ⟨_, found, rfl, rfl⟩)
  intro r t known
  rcases known with ⟨rfl, rfl⟩
  cases p with
  | copy a a' =>
      cases named
      have given : a.alphaEq a' := by simpa [Primitive.fault?] using clear
      have drawn := a.alphaEq_rename t (below rfl)
      have copies := alphaEq_trans (alphaEq_symm drawn) given
      refine yields_state ⟨alphaEq_refl _, ?_⟩
      have unfolded : (Arrow.copy a t).1.target =
          and (.always (a.rename t).1) (.always a) := rfl
      simp [unfolded, Primitive.target, copies]
  | _ =>
      refine yields_except ⟨_, (checked_eq_ok_iff _ _).mpr ⟨clear, rfl⟩, ?_⟩
      exact ⟨alphaEq_refl _, alphaEq_refl _⟩

/-- Rules applied to a formula and rules built from their own formulas are the same rules. What a
move gives is accepted when built from its formulas, and starts at the formula it was applied to;
a rule built from its formulas is found at its source, up to bound names. Only for `copy` the
variables have to lie below the supply. -/
theorem applyTo_agrees_with_fields (m : Move) :
    (∀ (f : Formula) (s t : Supply) (a : Arrow), (m = .copy → f.Below s) →
      (m.applyTo f).run s = (.ok a, t) →
        ∃ p, a = prim p ∧ p.rule = m.rule ∧ p.move? = some m ∧ (prim p).checked = .ok a ∧
          a.source.alphaEq f) ∧
      ∀ (p : Primitive) (b : Arrow) (s : Supply), p.move? = some m → (prim p).checked = .ok b →
        (m = .copy → b.source.Below s) →
          ∃ a t, (m.applyTo b.source).run s = (.ok a, t) ∧ a.source.alphaEq b.source ∧
            a.target.alphaEq b.target := by
  constructor
  · intro f s t a below result
    rcases m.gives_rule f s below a t result with ⟨p, rfl, named, typed, source⟩
    have accepted := (checked_eq_ok_iff (prim p) (prim p)).mpr ⟨typed, rfl⟩
    exact ⟨p, rfl, Primitive.rule_of_move? named, named, accepted, source⟩
  · intro p b s named accepted below
    rcases (checked_eq_ok_iff (prim p) b).mp accepted with ⟨clear, rfl⟩
    exact yields_ends named clear s below

/-- The argument of a denial with another bound name, and a copy that was given and is now drawn. -/
theorem renamed_argument_agrees_with_fields :
    let a : Formula := .holds ⟨1⟩ ⟨1⟩
    let b : Formula := .quant .all ⟨0⟩ (.holds ⟨0⟩ ⟨1⟩)
    let b' : Formula := .quant .all ⟨2⟩ (.holds ⟨2⟩ ⟨1⟩)
    let f := and (.not (and a b)) b'
    let g := prim (.copy b b')
    ((Move.apply.applyTo f).run ⟨3⟩ = (.ok (prim (.apply a b)), ⟨3⟩) ∧
        (prim (.apply a b)).source ≠ f ∧ (prim (.apply a b)).source.alphaEq f ∧
        (prim (.apply a b)).checked = .ok (prim (.apply a b))) ∧
      (prim (.copy b b')).checked = .ok g ∧ g.source.Below ⟨3⟩ ∧
        ∃ h t, (Move.copy.applyTo g.source).run ⟨3⟩ = (.ok h, t) ∧ h.source.alphaEq g.source ∧
          h.target.alphaEq g.target := by
  intro a b b' f g
  have result : (Move.apply.applyTo f).run ⟨3⟩ = (.ok (prim (.apply a b)), ⟨3⟩) := rfl
  have accepted : (prim (.copy b b')).checked = .ok g := rfl
  have below : g.source.Below ⟨3⟩ := by decide
  rcases (applyTo_agrees_with_fields .apply).1 f ⟨3⟩ ⟨3⟩ _ (by simp) result with
    ⟨p, same, _, _, checked, source⟩
  cases same
  exact ⟨⟨result, by decide, source, checked⟩, accepted, below,
    (applyTo_agrees_with_fields .copy).2 _ g ⟨3⟩ rfl accepted (fun _ => below)⟩

end Move

end LinearCalculus
