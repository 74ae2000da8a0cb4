import LinearCalculus.Proofs.Surface.Rearrangement
import LinearCalculus.Proofs.TwoHole.Filling
import Mathlib.Data.List.InsertIdx

namespace LinearCalculus

open Formula (chain)
open Chain (position)

def Chain.behind (k : Connective) (between after : List Formula) : Context :=
  .ofLayers (between.map (.conj k .right) ++ [.conj k .left (chain k after)])

theorem Chain.fill_behind (k : Connective) (between after : List Formula) (y : Formula) :
    (behind k between after).fill y = chain k (between ++ y :: after) := by
  rw [behind, Context.fill_eq_layers, Context.layers_ofLayers, List.foldr_append, List.foldr_map,
    chain_append]
  rfl

theorem Chain.variance_behind (k : Connective) (between after : List Formula) :
    (behind k between after).variance = .covariant := by
  have around := variance_position k between
  rw [position, Context.variance_eq_layers, Context.layers_ofLayers] at around
  rw [behind, Context.variance_eq_layers, Context.layers_ofLayers, Layer.jointVariance_append,
    around]
  rfl

namespace TwoHole

theorem fill_compose (h : TwoHole) (outer : Context) (x y : Formula) :
    (h.compose outer).fill x y = outer.fill (h.fill x y) := by
  unfold compose
  split
  · rename_i bare
    rw [outer.eq_hole_of_isHole bare]
    rfl
  · rfl

theorem variances_compose {h : TwoHole} {outer : Context}
    (covariant : outer.variance = .covariant) :
    (h.compose outer).leftVariance = h.leftVariance ∧
      (h.compose outer).rightVariance = h.rightVariance := by
  unfold compose
  split
  · exact ⟨rfl, rfl⟩
  · rw [leftVariance, rightVariance, covariant]
    exact ⟨rfl, rfl⟩

theorem conjunction_split (k : Connective) (before between after : List Formula) :
    conjunction k (before ++ (between ++ after)) before.length
        (before.length + between.length + 1) =
      .ok ((conj k .hole (Chain.behind k between after)).compose (position k before)) := by
  have within : before.length < before.length + between.length + 1 ∧
      before.length + between.length + 1 < (before ++ (between ++ after)).length + 2 := by
    simp only [List.length_append]
    omega
  rw [conjunction, if_pos within]
  simp [position, Chain.behind]

theorem conjunction_eq_ok_iff (k : Connective) (values : List Formula) (left right : Nat) :
    (∃ h, conjunction k values left right = .ok h) ↔ left < right ∧ right < values.length + 2 := by
  unfold conjunction
  split
  · rename_i within
    exact ⟨fun _ => within, fun _ => ⟨_, rfl⟩⟩
  · rename_i outside
    constructor
    · rintro ⟨h, made⟩
      cases made
    · intro within
      exact absurd within outside

theorem fill_split (k : Connective) (before between after : List Formula) (x y : Formula) :
    ((conj k .hole (Chain.behind k between after)).compose (position k before)).fill x y =
      chain k (before ++ x :: (between ++ y :: after)) := by
  rw [fill_compose, Chain.fill_position, fill, Chain.fill_behind, Chain.chain_append k before]
  rfl

theorem variances_split (k : Connective) (before between after : List Formula) :
    ((conj k .hole (Chain.behind k between after)).compose (position k before)).leftVariance =
        .covariant ∧
      ((conj k .hole (Chain.behind k between after)).compose (position k before)).rightVariance =
        .covariant := by
  have variances := variances_compose (h := conj k .hole (Chain.behind k between after))
    (Chain.variance_position k before)
  rw [variances.1, variances.2]
  exact ⟨rfl, Chain.variance_behind k between after⟩

/-- The list has the two formulas at the positions, and all the values in order at the others. -/
structure Inserted (values : List Formula) (left right : Nat) (x y : Formula)
    (list : List Formula) : Prop where
  length : list.length = values.length + 2
  first : list[left]? = some x
  second : list[right]? = some y
  others : (list.eraseIdx right).eraseIdx left = values

theorem inserted_split (before between after : List Formula) (x y : Formula) :
    Inserted (before ++ (between ++ after)) before.length (before.length + between.length + 1) x y
      (before ++ x :: (between ++ y :: after)) := by
  -- the same list, split at the right hole
  have parts : before ++ x :: (between ++ y :: after) = (before ++ x :: between) ++ y :: after := by
    simp
  have count : before.length + between.length + 1 = (before ++ x :: between).length := by
    simp only [List.length_append, List.length_cons]
    omega
  constructor
  · simp only [List.length_append, List.length_cons]
    omega
  · simp
  · rw [parts, count]
    simp
  · rw [parts, count, Surface.eraseIdx_split, List.append_assoc, List.cons_append,
      Surface.eraseIdx_split]

theorem insertIdx_eraseIdx_of_getElem? {list : List Formula} {i : Nat} {v : Formula}
    (here : list[i]? = some v) : (list.eraseIdx i).insertIdx i v = list := by
  obtain ⟨within, rfl⟩ := List.getElem?_eq_some_iff.mp here
  exact List.insertIdx_eraseIdx_getElem within

theorem Inserted.eq_insertIdx {values list : List Formula} {left right : Nat} {x y : Formula}
    (inserted : Inserted values left right x y list) (ordered : left < right) :
    list = (values.insertIdx left x).insertIdx right y := by
  have remains : (list.eraseIdx right)[left]? = some x :=
    (List.getElem?_eraseIdx_of_lt ordered).trans inserted.first
  rw [← inserted.others, insertIdx_eraseIdx_of_getElem? remains,
    insertIdx_eraseIdx_of_getElem? inserted.second]

theorem exists_cuts (values : List Formula) {left right : Nat} (ordered : left < right)
    (within : right < values.length + 2) :
    ∃ before between after, values = before ++ (between ++ after) ∧ before.length = left ∧
      right = before.length + between.length + 1 := by
  obtain ⟨before, between, after, parts, first, count⟩ :=
    Surface.exists_segments values left (right - 1) (by omega) (by omega)
  exact ⟨before, between, after, parts, first, by omega⟩

/-- Holes can be put at two positions of a list exactly if they come in order and the list, with
the holes in it, reaches that far; the values are then cut within their list. Both holes are
covariant, and filled they give the chain of the one list with the two formulas inserted. -/
theorem conjunction_places_holes (k : Connective) (values : List Formula) (left right : Nat) :
    ((∃ h, conjunction k values left right = .ok h) ↔ left < right ∧ right < values.length + 2) ∧
      ∀ h, conjunction k values left right = .ok h →
        (0 < right ∧ left ≤ right - 1 ∧ right - 1 ≤ values.length) ∧
        h.leftVariance = .covariant ∧ h.rightVariance = .covariant ∧
        ∀ x y, ∃ list, (∀ l, Inserted values left right x y l ↔ l = list) ∧
          h.fill x y = chain k list := by
  refine ⟨conjunction_eq_ok_iff k values left right, ?_⟩
  intro h made
  obtain ⟨ordered, within⟩ := (conjunction_eq_ok_iff k values left right).mp ⟨h, made⟩
  have cuts : 0 < right ∧ left ≤ right - 1 ∧ right - 1 ≤ values.length := by omega
  obtain ⟨before, between, after, rfl, rfl, rfl⟩ := exists_cuts values ordered within
  cases (conjunction_split k before between after).symm.trans made
  have variances := variances_split k before between after
  refine ⟨cuts, variances.1, variances.2, ?_⟩
  intro x y
  have inserted := inserted_split before between after x y
  refine ⟨_, fun l => ⟨fun other => ?_, fun same => same ▸ inserted⟩,
    fill_split k before between after x y⟩
  rw [other.eq_insertIdx ordered, ← inserted.eq_insertIdx ordered]

/-- The holes stand around the second of three values. -/
theorem conjunction_places_holes_around_value :
    let p : Formula := .holds ⟨0⟩ ⟨1⟩
    let q : Formula := .identical ⟨0⟩ ⟨1⟩
    let r : Formula := .not p
    ∃ h, conjunction .or [p, q, r] 1 3 = .ok h ∧ h.leftVariance = .covariant ∧
      h.rightVariance = .covariant ∧
      ∀ x y, h.fill x y = chain .or [p, x, q, y, r] := by
  intro p q r
  obtain ⟨domain, places⟩ := conjunction_places_holes .or [p, q, r] 1 3
  obtain ⟨h, made⟩ := domain.mpr (by decide)
  obtain ⟨_, left, right, filled⟩ := places h made
  refine ⟨h, made, left, right, ?_⟩
  intro x y
  obtain ⟨list, only, result⟩ := filled x y
  rw [result, ← (only [p, x, q, y, r]).mp ⟨rfl, rfl, rfl, rfl⟩]

end TwoHole

end LinearCalculus
