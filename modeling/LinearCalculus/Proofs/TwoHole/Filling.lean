import LinearCalculus.Proofs.Context.Definedness

namespace LinearCalculus

open Formula (alphaEq_refl)

namespace Variance

/-- Where an arrow in a hole of this variance starts, seen from outside. -/
def start : Variance → Arrow → Formula
  | covariant, f => f.source
  | contravariant, f => f.target

def finish : Variance → Arrow → Formula
  | covariant, f => f.target
  | contravariant, f => f.source

theorem start_flip (v : Variance) (f : Arrow) : v.flip.start f = v.finish f := by
  cases v <;> rfl

theorem finish_flip (v : Variance) (f : Arrow) : v.flip.finish f = v.start f := by
  cases v <;> rfl

end Variance

theorem Context.mapArrow_start_finish (c : Context) (f : Arrow) :
    (c.mapArrow f).source = c.fill (c.variance.start f) ∧
      (c.mapArrow f).target = c.fill (c.variance.finish f) := by
  cases known : c.variance with
  | covariant => exact (c.mapArrow_ends f).1 known
  | contravariant => exact (c.mapArrow_ends f).2 known

namespace TwoHole

structure Core where
  connective : Connective
  left : Context
  right : Context
  deriving DecidableEq, Repr

def core : TwoHole → Core
  | conj k l r => ⟨k, l, r⟩
  | comp inner _ => inner.core

/-- The contexts around the core, outermost first. -/
def outers : TwoHole → List Context
  | conj _ _ _ => []
  | comp inner outer => outer :: inner.outers

def Below (s : Supply) : TwoHole → Prop
  | conj _ l r => l.Below s ∧ r.Below s
  | comp inner outer => inner.Below s ∧ outer.Below s

instance Below.decide (s : Supply) : (h : TwoHole) → Decidable (h.Below s)
  | conj _ l r => inferInstanceAs (Decidable (l.Below s ∧ r.Below s))
  | comp inner outer =>
    have := decide s inner
    inferInstanceAs (Decidable (inner.Below s ∧ outer.Below s))

theorem Below.core {h : TwoHole} {s : Supply} (below : h.Below s) :
    h.core.left.Below s ∧ h.core.right.Below s := by
  induction h with
  | conj k l r => exact below
  | comp inner outer ih => exact ih below.1

theorem alphaEq_fill (h : TwoHole) {x x' y y' : Formula} (first : x.alphaEq x')
    (second : y.alphaEq y') : (h.fill x y).alphaEq (h.fill x' y') := by
  induction h with
  | conj k l r => simp [fill, l.alphaEq_fill first, r.alphaEq_fill second]
  | comp inner outer ih => exact outer.alphaEq_fill ih

theorem mapArrows_ends (h : TwoHole) (f g : Arrow) :
    (h.mapArrows f g).source = h.fill (h.leftVariance.start f) (h.rightVariance.start g) ∧
      (h.mapArrows f g).target =
        h.fill (h.leftVariance.finish f) (h.rightVariance.finish g) := by
  induction h with
  | conj k l r =>
      simp only [mapArrows, Arrow.source, Arrow.target, fill, leftVariance, rightVariance,
        Context.mapArrow_start_finish, and_self]
  | comp inner outer ih =>
      have around := outer.mapArrow_ends (inner.mapArrows f g)
      rw [ih.1, ih.2] at around
      rw [leftVariance, rightVariance]
      cases known : outer.variance with
      | covariant => exact around.1 known
      | contravariant =>
          simp only [Variance.compose, Variance.start_flip, Variance.finish_flip]
          exact around.2 known

theorem leads_mapArrows_right {h : TwoHole} (covariant : h.rightVariance = .covariant)
    (x : Formula) {g : Arrow} {y y' : Formula} (leads : g.Leads y y') :
    (h.mapArrows (.identity x) g).Leads (h.fill x y) (h.fill x y') := by
  have kept : h.leftVariance.start (.identity x) = x ∧
      h.leftVariance.finish (.identity x) = x := by
    cases h.leftVariance <;> exact ⟨rfl, rfl⟩
  have ends := h.mapArrows_ends (.identity x) g
  rw [kept.1, kept.2, covariant] at ends
  constructor
  · rw [ends.1]
    exact h.alphaEq_fill (alphaEq_refl x) leads.source
  · rw [ends.2]
    exact h.alphaEq_fill (alphaEq_refl x) leads.target

end TwoHole

end LinearCalculus
