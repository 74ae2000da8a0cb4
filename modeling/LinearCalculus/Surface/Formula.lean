import LinearCalculus.Formula.Text

namespace LinearCalculus.Surface

inductive Formula where
  | holds (left right : Var)
  | identical (left right : Var)
  | not (body : Formula)
  /-- A connective; without values it is its unit. -/
  | conj (kind : Connective) (values : List Formula)
  | always (body : Formula)
  /-- A quantifier over several variables, the first one outermost. -/
  | quant (kind : Quantifier) (vars : List Var) (body : Formula)
  /-- An implication that may be used any number of times. -/
  | implies (left right : Formula)
  | iff (left right : Formula)
  | hidden (name : String) (body : Formula)
  deriving Repr

namespace Formula

mutual

def beq : Formula → Formula → Bool
  | holds a b, holds a' b' => a == a' && b == b'
  | identical a b, identical a' b' => a == a' && b == b'
  | not f, not g => f.beq g
  | conj k fs, conj k' gs => k == k' && beqList fs gs
  | always f, always g => f.beq g
  | quant q vs f, quant q' vs' g => q == q' && vs == vs' && f.beq g
  | implies a b, implies a' b' => a.beq a' && b.beq b'
  | iff a b, iff a' b' => a.beq a' && b.beq b'
  | hidden s f, hidden s' g => s == s' && f.beq g
  | _, _ => false

def beqList : List Formula → List Formula → Bool
  | [], [] => true
  | f :: fs, g :: gs => f.beq g && beqList fs gs
  | _, _ => false

end

mutual

theorem beq_refl (f : Formula) : f.beq f = true := by
  match f with
  | holds a b | identical a b => simp [beq]
  | not f | always f => simp [beq, beq_refl f]
  | conj k fs => simp [beq, beqList_refl fs]
  | quant q vs f => simp [beq, beq_refl f]
  | implies a b | iff a b => simp [beq, beq_refl a, beq_refl b]
  | hidden s f => simp [beq, beq_refl f]

theorem beqList_refl (fs : List Formula) : beqList fs fs = true := by
  match fs with
  | [] => rfl
  | f :: fs => simp [beqList, beq_refl f, beqList_refl fs]

end

mutual

theorem eq_of_beq (f g : Formula) (h : f.beq g = true) : f = g := by
  match f, g with
  | holds a b, g => cases g <;> simp_all [beq]
  | identical a b, g => cases g <;> simp_all [beq]
  | not f, g =>
    cases g <;> simp [beq] at h
    rw [eq_of_beq f _ h]
  | always f, g =>
    cases g <;> simp [beq] at h
    rw [eq_of_beq f _ h]
  | conj k fs, g =>
    cases g <;> simp [beq] at h
    rw [h.1, eq_of_beqList fs _ h.2]
  | quant q vs f, g =>
    cases g <;> simp [beq] at h
    rw [h.1.1, h.1.2, eq_of_beq f _ h.2]
  | implies a b, g =>
    cases g <;> simp [beq] at h
    rw [eq_of_beq a _ h.1, eq_of_beq b _ h.2]
  | iff a b, g =>
    cases g <;> simp [beq] at h
    rw [eq_of_beq a _ h.1, eq_of_beq b _ h.2]
  | hidden s f, g =>
    cases g <;> simp [beq] at h
    rw [h.1, eq_of_beq f _ h.2]

theorem eq_of_beqList (fs gs : List Formula) (h : beqList fs gs = true) : fs = gs := by
  match fs, gs with
  | [], gs => cases gs <;> simp_all [beqList]
  | f :: fs, gs =>
    cases gs <;> simp [beqList] at h
    rw [eq_of_beq f _ h.1, eq_of_beqList fs _ h.2]

end

instance : DecidableEq Formula := fun f g =>
  decidable_of_iff (f.beq g = true) ⟨eq_of_beq f g, fun h => h ▸ beq_refl f⟩

def conj? (k : Connective) : Formula → Option (List Formula)
  | conj k' fs => if k' = k then some fs else none
  | _ => none

def bothWays (a b : Formula) : Formula := conj .and [implies a b, implies b a]

mutual

def text : Formula → String
  | holds a b => a.text ++ " ∈ " ++ b.text
  | identical a b => a.text ++ " = " ++ b.text
  | not f => "¬(" ++ f.text ++ ")"
  | conj k [] => unitText k.unit
  | conj k (f :: fs) => "(" ++ f.text ++ textList k fs ++ ")"
  | always f => "!(" ++ f.text ++ ")"
  | quant q vs f => "(" ++ q.text ++ " ".intercalate (vs.map Var.text) ++ ". " ++ f.text ++ ")"
  | implies a b => "(" ++ a.text ++ " ⇒ " ++ b.text ++ ")"
  | iff a b => "(" ++ a.text ++ " ⇔ " ++ b.text ++ ")"
  | hidden name _ => name

def textList (k : Connective) : List Formula → String
  | [] => ""
  | f :: fs => " " ++ k.text ++ " " ++ f.text ++ textList k fs

end

def expandImplies (a b : LinearCalculus.Formula) : LinearCalculus.Formula := .always (.implies a b)

mutual

def expand : Formula → LinearCalculus.Formula
  | holds a b => .holds a b
  | identical a b => .identical a b
  | not f => .not f.expand
  | conj k fs => .chain k (expandList fs)
  | always f => .always f.expand
  | quant q vs f => vs.foldr (.quant q) f.expand
  | implies a b => expandImplies a.expand b.expand
  | iff a b =>
    .chain .and [expandImplies a.expand b.expand, expandImplies b.expand a.expand]
  | hidden _ f => f.expand

def expandList : List Formula → List LinearCalculus.Formula
  | [] => []
  | f :: fs => f.expand :: expandList fs

end

end Formula

end LinearCalculus.Surface
