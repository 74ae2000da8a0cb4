import LinearCalculus.Formula.Alpha

/-! The nameless form of a formula.

A bound occurrence is numbered by the binders that stand between it and the nearest
one that binds it; a free occurrence stays as it is. Formulas are equal up to bound
names exactly if their nameless forms are equal, so this equality is an equivalence
relation, and every formula constructor respects it. The comparison keeps two tables
of bound variables whose entries are hidden but never removed: what one more pair of
binders changes in them is the step (`Binders.same_bind`), from which the tables are
related to the two stacks of binders (`Binders.same_iff`). -/

namespace LinearCalculus

/-- What an occurrence of a variable refers to. -/
inductive Occurrence where
  | bound (index : Nat)
  | free (v : Var)
  deriving DecidableEq, Repr

/-- The same occurrence below one more binder, which does not bind it. -/
def Occurrence.below : Occurrence → Occurrence
  | bound index => bound (index + 1)
  | free v => free v

theorem Occurrence.below_inj (a b : Occurrence) : a.below = b.below ↔ a = b := by
  cases a <;> cases b <;> simp [below]

theorem Occurrence.below_ne_nearest (a : Occurrence) : a.below ≠ bound 0 := by
  cases a <;> simp [below]

def Var.occurrence : List Var → Var → Occurrence
  | [], v => .free v
  | w :: rest, v => if v = w then .bound 0 else (occurrence rest v).below

inductive Nameless where
  | holds (left right : Occurrence)
  | identical (left right : Occurrence)
  | unit (value : Bool)
  | not (body : Nameless)
  | always (body : Nameless)
  | conj (kind : Connective) (left right : Nameless)
  | quant (kind : Quantifier) (body : Nameless)
  deriving DecidableEq, Repr

namespace Binders

theorem lookup_of_ne {key found : Var} (other : key ≠ found) (value : Var)
    (table : List (Var × Var)) : ((found, value) :: table).lookup key = table.lookup key := by
  rw [List.lookup_cons, beq_eq_false_iff_ne.mpr other]

/-- What a pair of binders changes. An older entry for one of the two stays in the other table,
where it leads to a variable that no longer leads back. -/
theorem same_bind (env : Binders) (l r a b : Var) :
    (env.bind l r).same a b = if a = l then b == r else if b = r then false else env.same a b := by
  by_cases left : a = l
  · subst left
    by_cases right : b = r
    · simp [same, bind, right]
    · have stale := lookup_of_ne right a env.right
      have apart : (r == b) = false ∧ (b == r) = false := by simp [right, Ne.symm right]
      cases entry : env.right.lookup b <;> simp [same, bind, stale, entry, apart]
  · have stale := lookup_of_ne left r env.left
    by_cases right : b = r
    · subst right
      cases entry : env.left.lookup a <;> simp [same, bind, stale, entry, left, Ne.symm left]
    · have stale' := lookup_of_ne right l env.right
      simp [same, bind, stale, stale', left, right]

@[simp] theorem same_empty (a b : Var) : empty.same a b = (a == b) := rfl

def ofPairs : List (Var × Var) → Binders
  | [] => empty
  | (l, r) :: rest => (ofPairs rest).bind l r

/-- The tables keep hidden entries, and one of them can be hidden on one side only. Still they
pair two occurrences exactly if both are bound by the same pair, or if both are free and equal. -/
theorem same_iff (pairs : List (Var × Var)) (a b : Var) :
    (ofPairs pairs).same a b ↔
      a.occurrence (pairs.map (·.1)) = b.occurrence (pairs.map (·.2)) := by
  induction pairs with
  | nil => simp [ofPairs, Var.occurrence]
  | cons pair rest ih =>
      obtain ⟨l, r⟩ := pair
      simp only [ofPairs, same_bind, List.map_cons, Var.occurrence]
      by_cases left : a = l
      · by_cases right : b = r
        · simp [left, right]
        · simp [left, right, (Occurrence.below_ne_nearest _).symm]
      · by_cases right : b = r
        · simp [left, right, Occurrence.below_ne_nearest]
        · simp [left, right, Occurrence.below_inj, ih]

theorem same_append_self (pairs : List (Var × Var)) (v a b : Var) :
    (ofPairs (pairs ++ [(v, v)])).same a b = (ofPairs pairs).same a b := by
  induction pairs with
  | nil =>
      by_cases left : a = v
      · simp only [List.nil_append, ofPairs, same_bind, left, if_true, same_empty]
        exact BEq.comm
      · by_cases right : b = v <;> simp [ofPairs, same_bind, left, right]
  | cons pair rest ih => simp [ofPairs, same_bind, ih]

end Binders

namespace Formula

def namelessIn (bound : List Var) : Formula → Nameless
  | holds a b => .holds (a.occurrence bound) (b.occurrence bound)
  | identical a b => .identical (a.occurrence bound) (b.occurrence bound)
  | unit value => .unit value
  | not f => .not (f.namelessIn bound)
  | always f => .always (f.namelessIn bound)
  | conj k l r => .conj k (l.namelessIn bound) (r.namelessIn bound)
  | quant q v f => .quant q (f.namelessIn (v :: bound))

def nameless (f : Formula) : Nameless := f.namelessIn []

theorem alphaEqIn_iff_namelessIn (pairs : List (Var × Var)) (f g : Formula) :
    f.alphaEqIn (.ofPairs pairs) g ↔
      f.namelessIn (pairs.map (·.1)) = g.namelessIn (pairs.map (·.2)) := by
  induction f generalizing pairs g with
  | holds a b => cases g <;> simp [alphaEqIn, namelessIn, Binders.same_iff]
  | identical a b => cases g <;> simp [alphaEqIn, namelessIn, Binders.same_iff]
  | unit value => cases g <;> simp [alphaEqIn, namelessIn]
  | not f ih => cases g <;> simp [alphaEqIn, namelessIn, ih]
  | always f ih => cases g <;> simp [alphaEqIn, namelessIn, ih]
  | conj k l r left right => cases g <;> simp [alphaEqIn, namelessIn, left, right, and_assoc]
  | quant q v f ih =>
      cases g with
      | quant q' w g =>
          have body := ih ((v, w) :: pairs) g
          simp only [Binders.ofPairs, List.map_cons] at body
          simp [alphaEqIn, namelessIn, body]
      | _ => simp [alphaEqIn, namelessIn]

theorem alphaEq_iff_nameless (f g : Formula) : f.alphaEq g ↔ f.nameless = g.nameless :=
  alphaEqIn_iff_namelessIn [] f g

@[simp] theorem alphaEq_refl (f : Formula) : f.alphaEq f :=
  (alphaEq_iff_nameless f f).mpr rfl

theorem alphaEq_symm {f g : Formula} (same : f.alphaEq g) : g.alphaEq f :=
  (alphaEq_iff_nameless g f).mpr ((alphaEq_iff_nameless f g).mp same).symm

theorem alphaEq_trans {f g h : Formula} (first : f.alphaEq g) (second : g.alphaEq h) :
    f.alphaEq h :=
  (alphaEq_iff_nameless f h).mpr
    (((alphaEq_iff_nameless f g).mp first).trans ((alphaEq_iff_nameless g h).mp second))

@[simp] theorem alphaEq_not (f g : Formula) : (not f).alphaEq (not g) = f.alphaEq g := rfl

@[simp] theorem alphaEq_always (f g : Formula) : (always f).alphaEq (always g) = f.alphaEq g := rfl

@[simp] theorem alphaEq_conj (k : Connective) (l r l' r' : Formula) :
    (conj k l r).alphaEq (conj k l' r') = (l.alphaEq l' && r.alphaEq r') := by
  simp [alphaEq, alphaEqIn]

theorem alphaEqIn_append_self (pairs : List (Var × Var)) (v : Var) (f g : Formula) :
    f.alphaEqIn (.ofPairs (pairs ++ [(v, v)])) g = f.alphaEqIn (.ofPairs pairs) g := by
  induction f generalizing pairs g with
  | holds a b => cases g <;> simp [alphaEqIn, Binders.same_append_self]
  | identical a b => cases g <;> simp [alphaEqIn, Binders.same_append_self]
  | unit value => cases g <;> simp [alphaEqIn]
  | not f ih => cases g <;> simp [alphaEqIn, ih]
  | always f ih => cases g <;> simp [alphaEqIn, ih]
  | conj k l r left right => cases g <;> simp [alphaEqIn, left, right]
  | quant q v' f ih =>
      cases g with
      | quant q' w g =>
          have body := ih ((v', w) :: pairs) g
          simp only [List.cons_append, Binders.ofPairs] at body
          simp only [alphaEqIn, body]
      | _ => simp [alphaEqIn]

@[simp] theorem alphaEq_quant (q : Quantifier) (v : Var) (f g : Formula) :
    (quant q v f).alphaEq (quant q v g) = f.alphaEq g := by
  have outer := alphaEqIn_append_self [] v f g
  simpa [alphaEq, alphaEqIn, Binders.ofPairs] using outer

/-- The comparison decides equality of the nameless forms, under any shadowing. It is therefore an
equivalence relation that contains equality of the trees, and two formulas of one form are equal
up to bound names exactly if their parts are. -/
theorem alphaEq_decides_nameless :
    (∀ f g : Formula, f.alphaEq g ↔ f.nameless = g.nameless) ∧
      Equivalence (fun f g : Formula => f.alphaEq g = true) ∧
      (∀ f g : Formula, f.syntacticEq g ↔ f = g) ∧
      (∀ f g : Formula, f.syntacticEq g → f.alphaEq g) ∧
      (∀ f g : Formula, (not f).alphaEq (not g) ↔ f.alphaEq g) ∧
      (∀ f g : Formula, (always f).alphaEq (always g) ↔ f.alphaEq g) ∧
      (∀ (k : Connective) (l r l' r' : Formula),
        (conj k l r).alphaEq (conj k l' r') ↔ l.alphaEq l' ∧ r.alphaEq r') ∧
      ∀ (q : Quantifier) (v : Var) (f g : Formula),
        (quant q v f).alphaEq (quant q v g) ↔ f.alphaEq g := by
  have equivalence : Equivalence (fun f g : Formula => f.alphaEq g = true) :=
    ⟨alphaEq_refl, alphaEq_symm, alphaEq_trans⟩
  have contains (f g : Formula) (same : f.syntacticEq g) : f.alphaEq g := by
    rw [(syntacticEq_iff f g).mp same]
    exact alphaEq_refl g
  refine ⟨alphaEq_iff_nameless, equivalence, syntacticEq_iff, contains, ?_, ?_, ?_, ?_⟩
  · intro f g
    rw [alphaEq_not]
  · intro f g
    rw [alphaEq_always]
  · intro k l r l' r'
    rw [alphaEq_conj, Bool.and_eq_true]
  · intro q v f g
    rw [alphaEq_quant]

/-- An inner binder that hides an outer one on one side only is not overlooked. -/
example :
    let a : Var := ⟨0⟩
    let x : Var := ⟨1⟩
    let y : Var := ⟨2⟩
    let twice (outer inner v : Var) : Formula := quant .all outer (quant .ex inner (holds v a))
    (twice x x x).alphaEq (twice x y x) = false ∧ (twice x x x).alphaEq (twice y x x) = true := by
  decide

end Formula

end LinearCalculus
