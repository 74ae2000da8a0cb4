import LinearCalculus.Formula.Free
import LinearCalculus.Formula.Substitution
import LinearCalculus.Proofs.Formula.Nameless

namespace LinearCalculus

def Occurrence.replace (old new : Var) : Occurrence → Occurrence
  | bound index => bound index
  | free v => free (old.replace new v)

def Nameless.replace (old new : Var) : Nameless → Nameless
  | holds a b => holds (a.replace old new) (b.replace old new)
  | identical a b => identical (a.replace old new) (b.replace old new)
  | unit value => unit value
  | not f => not (f.replace old new)
  | always f => always (f.replace old new)
  | conj k l r => conj k (l.replace old new) (r.replace old new)
  | quant q f => quant q (f.replace old new)

theorem Occurrence.replace_below (old new : Var) (a : Occurrence) :
    a.below.replace old new = (a.replace old new).below := by
  cases a <;> rfl

theorem Var.replace_self (old v : Var) : old.replace old v = v := by
  by_cases here : v = old <;> simp [Var.replace, here]

theorem Var.occurrence_replace (old new v : Var) (bound : List Var)
    (oldOutside : old ∉ bound) (newOutside : new ∉ bound) :
    (old.replace new v).occurrence bound = (v.occurrence bound).replace old new := by
  induction bound with
  | nil => rfl
  | cons w rest ih =>
      simp only [List.mem_cons, not_or] at oldOutside newOutside
      have tail := ih oldOutside.2 newOutside.2
      by_cases here : v = old
      · have replaced : old.replace new v = new := by simp [Var.replace, here]
        rw [replaced] at tail ⊢
        rw [Var.occurrence, Var.occurrence, if_neg newOutside.1, if_neg (here ▸ oldOutside.1),
          Occurrence.replace_below, tail]
      · have kept : old.replace new v = v := by simp [Var.replace, here]
        rw [kept] at tail ⊢
        by_cases nearest : v = w
        · simp [Var.occurrence, nearest, Occurrence.replace]
        · rw [Var.occurrence, if_neg nearest, Occurrence.replace_below, ← tail]

theorem Var.occurrence_untouched (old new v : Var) (bound : List Var)
    (hidden : v = old → old ∈ bound) :
    (v.occurrence bound).replace old new = v.occurrence bound := by
  induction bound with
  | nil =>
      have different : v ≠ old := by simpa using hidden
      simp [Var.occurrence, Occurrence.replace, Var.replace, different]
  | cons w rest ih =>
      by_cases nearest : v = w
      · simp [Var.occurrence, nearest, Occurrence.replace]
      · have deeper : v = old → old ∈ rest := by
          rintro rfl
          exact (List.mem_cons.mp (hidden rfl)).resolve_left nearest
        rw [Var.occurrence, if_neg nearest, Occurrence.replace_below, ih deeper]

namespace Formula

/-- Putting `new` for `old` meets no binder that forbids it. -/
def Replaceable (old new : Var) (f : Formula) : Prop :=
  old = new ∨ f.clash? old new false = none

theorem clash?_conj_eq_none {old new : Var} {below : Bool} {k : Connective} {l r : Formula} :
    (conj k l r).clash? old new below = none ↔
      l.clash? old new below = none ∧ r.clash? old new below = none := by
  simp [clash?]

theorem clash?_quant_eq_none {old new : Var} {below : Bool} {q : Quantifier} {v : Var}
    {f : Formula} :
    (quant q v f).clash? old new below = none ↔
      v ≠ old ∧ f.clash? old new (below || v == new) = none := by
  by_cases rebound : v = old <;> simp [clash?, rebound]

theorem replace_self (v : Var) (f : Formula) : f.replace v v = f := by
  induction f with
  | holds a b => simp [replace, Var.replace_self]
  | identical a b => simp [replace, Var.replace_self]
  | unit value => rfl
  | not f ih => rw [replace, ih]
  | always f ih => rw [replace, ih]
  | conj k l r left right => rw [replace, left, right]
  | quant q w f ih => rw [replace, ih]

theorem substitute_eq_ok_iff (old new : Var) (f g : Formula) :
    f.substitute old new = .ok g ↔ f.Replaceable old new ∧ g = f.replace old new := by
  by_cases trivial : old = new
  · subst trivial
    simp [substitute, Replaceable, replace_self, eq_comm]
  · cases found : f.clash? old new false with
    | none => simp [substitute, Replaceable, trivial, found, eq_comm]
    | some e => simp [substitute, Replaceable, trivial, found]

/-- Below a binder of `new`, nothing to be replaced may be left. -/
theorem clear_below (old new : Var) (f : Formula) (clear : f.clash? old new true = none) :
    f.replace old new = f ∧ f.isFree old = false := by
  induction f with
  | holds a b =>
      have absent : a ≠ old ∧ b ≠ old := by simpa [clash?] using clear
      simp [replace, Var.replace, isFree, absent]
  | identical a b =>
      have absent : a ≠ old ∧ b ≠ old := by simpa [clash?] using clear
      simp [replace, Var.replace, isFree, absent]
  | unit value => exact ⟨rfl, rfl⟩
  | not f ih =>
      obtain ⟨same, absent⟩ := ih clear
      exact ⟨by rw [replace, same], absent⟩
  | always f ih =>
      obtain ⟨same, absent⟩ := ih clear
      exact ⟨by rw [replace, same], absent⟩
  | conj k l r left right =>
      obtain ⟨first, second⟩ := clash?_conj_eq_none.mp clear
      obtain ⟨leftSame, leftAbsent⟩ := left first
      obtain ⟨rightSame, rightAbsent⟩ := right second
      exact ⟨by rw [replace, leftSame, rightSame], by simp [isFree, leftAbsent, rightAbsent]⟩
  | quant q v f ih =>
      obtain ⟨_, inner⟩ := clash?_quant_eq_none.mp clear
      obtain ⟨same, absent⟩ := ih (by simpa using inner)
      exact ⟨by rw [replace, same], by simp [isFree, absent]⟩

theorem namelessIn_untouched (old new : Var) (f : Formula) (bound : List Var)
    (hidden : f.isFree old → old ∈ bound) :
    (f.namelessIn bound).replace old new = f.namelessIn bound := by
  induction f generalizing bound with
  | holds a b =>
      have left := Var.occurrence_untouched old new a bound
        (fun here => hidden (by simp [isFree, here]))
      have right := Var.occurrence_untouched old new b bound
        (fun here => hidden (by simp [isFree, here]))
      simp [namelessIn, Nameless.replace, left, right]
  | identical a b =>
      have left := Var.occurrence_untouched old new a bound
        (fun here => hidden (by simp [isFree, here]))
      have right := Var.occurrence_untouched old new b bound
        (fun here => hidden (by simp [isFree, here]))
      simp [namelessIn, Nameless.replace, left, right]
  | unit value => rfl
  | not f ih => rw [namelessIn, Nameless.replace, ih bound hidden]
  | always f ih => rw [namelessIn, Nameless.replace, ih bound hidden]
  | conj k l r left right =>
      rw [namelessIn, Nameless.replace,
        left bound (fun free => hidden (by simp [isFree, free])),
        right bound (fun free => hidden (by simp [isFree, free]))]
  | quant q v f ih =>
      have inner : f.isFree old → old ∈ v :: bound := by
        intro free
        by_cases here : v = old
        · simp [here]
        · exact List.mem_cons_of_mem v (hidden (by simp [isFree, free, here]))
      rw [namelessIn, Nameless.replace, ih (v :: bound) inner]

theorem namelessIn_replace (old new : Var) (f : Formula) (bound : List Var)
    (clear : f.clash? old new false = none) (oldOutside : old ∉ bound) (newOutside : new ∉ bound) :
    (f.replace old new).namelessIn bound = (f.namelessIn bound).replace old new := by
  induction f generalizing bound with
  | holds a b =>
      simp only [replace, namelessIn, Nameless.replace,
        Var.occurrence_replace old new _ bound oldOutside newOutside]
  | identical a b =>
      simp only [replace, namelessIn, Nameless.replace,
        Var.occurrence_replace old new _ bound oldOutside newOutside]
  | unit value => rfl
  | not f ih | always f ih =>
      rw [replace, namelessIn, namelessIn, Nameless.replace, ih bound clear oldOutside newOutside]
  | conj k l r left right =>
      obtain ⟨first, second⟩ := clash?_conj_eq_none.mp clear
      rw [replace, namelessIn, namelessIn, Nameless.replace, left bound first oldOutside newOutside,
        right bound second oldOutside newOutside]
  | quant q v f ih =>
      obtain ⟨different, inner⟩ := clash?_quant_eq_none.mp clear
      rw [replace, namelessIn, namelessIn, Nameless.replace]
      by_cases capturing : v = new
      · obtain ⟨same, absent⟩ := clear_below old new f (by simpa [capturing] using inner)
        rw [same, namelessIn_untouched old new f (v :: bound) (by simp [absent])]
      · rw [ih (v :: bound) (by simpa [beq_eq_false_iff_ne.mpr capturing] using inner)
          (by simp [oldOutside, Ne.symm different]) (by simp [newOutside, Ne.symm capturing])]

theorem alphaEq_replace (old new : Var) (f g : Formula) (same : f.alphaEq g)
    (first : f.Replaceable old new) (second : g.Replaceable old new) :
    (f.replace old new).alphaEq (g.replace old new) := by
  by_cases trivial : old = new
  · subst trivial
    rwa [replace_self, replace_self]
  · have firstClear := first.resolve_left trivial
    have secondClear := second.resolve_left trivial
    rw [alphaEq_iff_nameless] at same ⊢
    unfold nameless at same ⊢
    rw [namelessIn_replace old new f [] firstClear List.not_mem_nil List.not_mem_nil,
      namelessIn_replace old new g [] secondClear List.not_mem_nil List.not_mem_nil, same]

end Formula

end LinearCalculus
