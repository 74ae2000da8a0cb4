import Mathlib.Data.List.InsertIdx
import LinearCalculus.Proofs.Arrow.Inverse
import LinearCalculus.Proofs.Context.Filling
import LinearCalculus.Surface.Expansion

namespace LinearCalculus

open Formula (chain)
open Arrow

namespace Surface

variable {α : Type}

theorem insertIdx_split (before after : List α) (v : α) :
    (before ++ after).insertIdx before.length v = before ++ v :: after := by
  induction before with
  | nil => rfl
  | cons w before ih => simp [List.insertIdx_succ_cons, ih]

theorem eraseIdx_split (before after : List α) (v : α) :
    (before ++ v :: after).eraseIdx before.length = before ++ after := by
  simp [List.eraseIdx_append_of_length_le]

theorem moved_forward (before between after : List α) (v : α) :
    moved (before ++ v :: (between ++ after)) before.length (before.length + between.length) =
      before ++ (between ++ v :: after) := by
  have erased := eraseIdx_split before (between ++ after) v
  have inserted := insertIdx_split (before ++ between) after v
  rw [List.length_append, List.append_assoc, List.append_assoc] at inserted
  simp [moved, erased, inserted]

theorem moved_backward (before between after : List α) (v : α) :
    moved (before ++ (between ++ v :: after)) (before.length + between.length) before.length =
      before ++ v :: (between ++ after) := by
  have erased : (before ++ (between ++ v :: after)).eraseIdx (before.length + between.length) =
      before ++ (between ++ after) := by simp [List.eraseIdx_append_of_length_le]
  simp [moved, erased, insertIdx_split]

theorem map_moved {β : Type} (change : α → β) (values : List α) (start stop : Nat) :
    (moved values start stop).map change = moved (values.map change) start stop := by
  unfold moved
  cases found : values[start]? with
  | none => simp [found]
  | some v => simp [found, List.map_insertIdx, List.eraseIdx_map]

theorem length_moved (values : List α) (start stop : Nat) (second : stop < values.length) :
    (moved values start stop).length = values.length := by
  unfold moved
  cases found : values[start]? with
  | none => rfl
  | some v =>
      have count := List.length_eraseIdx_of_lt (List.getElem?_eq_some_iff.mp found).1
      change ((values.eraseIdx start).insertIdx stop v).length = values.length
      rw [List.length_insertIdx, count]
      split <;> omega

theorem segments_append (values : List α) (first second : Nat) (ordered : first ≤ second) :
    values.take first ++ (segment values first second ++ values.drop second) = values := by
  have rest : values.drop second = (values.drop first).drop (second - first) := by
    rw [List.drop_drop, Nat.add_sub_cancel' ordered]
  rw [rest, segment, List.take_append_drop, List.take_append_drop]

theorem length_segment (values : List α) (start stop : Nat) (within : stop ≤ values.length) :
    (segment values start stop).length = stop - start := by
  rw [segment, List.length_take, List.length_drop]
  omega

theorem exists_segments (values : List α) (first second : Nat) (ordered : first ≤ second)
    (within : second ≤ values.length) :
    ∃ before between after, values = before ++ (between ++ after) ∧ before.length = first ∧
      between.length = second - first := by
  refine ⟨_, _, _, (segments_append values first second ordered).symm, ?_, ?_⟩
  · exact List.length_take_of_le (Nat.le_trans ordered within)
  · exact length_segment values first second within

end Surface

open Surface

namespace Chain

theorem swapped_split (before after : List Formula) (a b : Formula) :
    swapped (before ++ a :: b :: after) before.length = before ++ b :: a :: after := by
  simp [swapped]

theorem swapped_forward (before between after : List Formula) (v : Formula) :
    (List.range' before.length between.length).foldl swapped (before ++ v :: (between ++ after)) =
      before ++ (between ++ v :: after) := by
  induction between generalizing before with
  | nil => rfl
  | cons w between ih =>
      have step := swapped_split before (between ++ after) v w
      have rest := ih (before ++ [w])
      rw [List.length_append, List.append_assoc, List.append_assoc] at rest
      rw [List.length_cons, List.range'_succ, List.foldl_cons, List.cons_append, step]
      exact rest

theorem swapped_backward (before between after : List Formula) (v : Formula) :
    (List.range' before.length between.length).reverse.foldl swapped
        (before ++ (between ++ v :: after)) =
      before ++ v :: (between ++ after) := by
  induction between generalizing before with
  | nil => rfl
  | cons w between ih =>
      have rest := ih (before ++ [w])
      rw [List.length_append, List.append_assoc, List.append_assoc] at rest
      have step := swapped_split before (between ++ after) w v
      rw [List.length_cons, List.range'_succ, List.reverse_cons, List.foldl_append]
      exact (congrArg (swapped · before.length) rest).trans step

theorem swaps_moved (ws : List Formula) (start stop : Nat) (first : start < ws.length)
    (second : stop < ws.length) : (swaps start stop).foldl swapped ws = moved ws start stop := by
  unfold swaps
  split
  · rename_i ordered
    obtain ⟨before, rest, after, rfl, rfl, count⟩ :=
      exists_segments ws start (stop + 1) (by omega) second
    cases rest with
    | nil =>
        simp only [List.length_nil] at count
        omega
    | cons v between =>
        rw [List.length_cons] at count
        have last : stop = before.length + between.length := by omega
        rw [last, Nat.add_sub_cancel_left, List.cons_append, swapped_forward, moved_forward]
  · obtain ⟨before, between, rest, rfl, rfl, count⟩ :=
      exists_segments ws stop start (by omega) (by omega)
    cases rest with
    | nil =>
        simp only [List.length_append, List.length_nil] at first
        omega
    | cons v after =>
        have last : start = before.length + between.length := by omega
        rw [last, Nat.add_sub_cancel_left, swapped_backward, moved_backward]

theorem chain_append (k : Connective) (before after : List Formula) :
    chain k (before ++ after) = before.foldr (.conj k) (chain k after) :=
  List.foldr_append

theorem fill_position (k : Connective) (before : List Formula) (x : Formula) :
    (position k before).fill x = before.foldr (.conj k) x := by
  rw [position, Context.fill_eq_layers, Context.layers_ofLayers, List.foldr_map]
  rfl

theorem variance_position (k : Connective) (before : List Formula) :
    (position k before).variance = .covariant := by
  rw [position, Context.variance_eq_layers, Context.layers_ofLayers]
  induction before with
  | nil => rfl
  | cons v before ih => exact ih

theorem leads_position (k : Connective) (before : List Formula) {f : Arrow} {a b : Formula}
    (leads : f.Leads a b) : ((position k before).mapArrow f).Leads
      (before.foldr (.conj k) a) (before.foldr (.conj k) b) := by
  have inside := Context.leads_mapArrow (variance_position k before) leads
  rwa [fill_position, fill_position] at inside

theorem swapFirst_leads (k : Connective) (a b rest : Formula) :
    ∃ f, swapFirst k a b rest = .ok f ∧
      f.Leads (.conj k a (.conj k b rest)) (.conj k b (.conj k a rest)) :=
  Linked.chain (.of_eq rfl rfl) (.cons (.of_eq rfl rfl) (.cons (.of_eq rfl rfl) (.nil _)))

theorem swap_leads (k : Connective) (ws : List Formula) (p : Nat) :
    ∃ f, swap k ws p = .ok f ∧ f.Leads (chain k ws) (chain k (swapped ws p)) := by
  unfold swap swapped
  split
  · rename_i a b rest known
    obtain ⟨f, exchanged, leads⟩ := swapFirst_leads k a b (chain k rest)
    have inside : ((position k (ws.take p)).mapArrow f).Leads
        ((ws.take p).foldr (.conj k) (chain k (a :: b :: rest)))
        ((ws.take p).foldr (.conj k) (chain k (b :: a :: rest))) :=
      leads_position k (ws.take p) leads
    rw [← chain_append, ← chain_append, ← known, List.take_append_drop] at inside
    exact ⟨_, bind_eq_ok.mpr ⟨f, exchanged, rfl⟩, inside⟩
  · exact ⟨_, rfl, .of_eq rfl rfl⟩

theorem swapAll_leads (k : Connective) (ps : List Nat) (ws : List Formula) (f : Arrow) (a : Formula)
    (leads : f.Leads a (chain k ws)) :
    ∃ g, swapAll k ps ws f = .ok g ∧ g.Leads a (chain k (ps.foldl swapped ws)) := by
  induction ps generalizing ws f with
  | nil => exact ⟨f, rfl, leads⟩
  | cons p ps ih =>
      obtain ⟨next, exchanged, nextLeads⟩ := swap_leads k ws p
      obtain ⟨composed, longer⟩ := leads.compose nextLeads
      obtain ⟨g, done, whole⟩ := ih (swapped ws p) (composite f next) longer
      exact ⟨g, bind_eq_ok.mpr ⟨next, exchanged, bind_eq_ok.mpr ⟨_, composed, done⟩⟩, whole⟩

theorem shift_leads (k : Connective) (ws : List Formula) (start stop : Nat)
    (first : start < ws.length) (second : stop < ws.length) :
    ∃ f, shift k ws start stop = .ok f ∧
      f.Leads (chain k ws) (chain k (moved ws start stop)) := by
  rw [← swaps_moved ws start stop first second]
  exact swapAll_leads k (swaps start stop) ws _ _ (.of_eq rfl rfl)

theorem nest_leads (k : Connective) (rest : Formula) (gs : List Formula) :
    ∃ f, nest k rest gs = .ok f ∧
      f.Leads (gs.foldr (.conj k) rest) (.conj k (chain k gs) rest) := by
  induction gs with
  | nil =>
      obtain ⟨composed, leads⟩ := Leads.compose (f := prim (.introUnit k rest))
        (g := prim (.commute k rest (.unit k.unit))) (.of_eq rfl rfl) (.of_eq rfl rfl)
      exact ⟨_, composed, leads⟩
  | cons g gs ih =>
      obtain ⟨inner, nested, leads⟩ := ih
      obtain ⟨composed, whole⟩ := (leads.onRight k g).compose
        (g := prim (.associateB k g (chain k gs) rest)) (.of_eq rfl rfl)
      exact ⟨_, bind_eq_ok.mpr ⟨inner, nested, composed⟩, whole⟩

theorem reverse_position (k : Connective) (before : List Formula) {f r : Arrow}
    (reversed : f.reverse = .ok r) :
    ((position k before).mapArrow f).reverse = .ok ((position k before).mapArrow r) := by
  rw [Context.mapArrow_eq_layers, Context.mapArrow_eq_layers, position, Context.layers_ofLayers]
  induction before with
  | nil => exact reversed
  | cons v before ih => exact bind_eq_ok.mpr ⟨_, ih, rfl⟩

theorem nest_invertible (k : Connective) (rest : Formula) (gs : List Formula) (f : Arrow)
    (nested : nest k rest gs = .ok f) : ∃ r, f.reverse = .ok r := by
  induction gs generalizing f with
  | nil =>
      obtain ⟨_, rfl⟩ := compose_eq_ok_iff.mp nested
      exact ⟨_, rfl⟩
  | cons g gs ih =>
      obtain ⟨inner, deeper, composed⟩ := bind_eq_ok.mp nested
      obtain ⟨_, rfl⟩ := compose_eq_ok_iff.mp composed
      obtain ⟨r, reversed⟩ := ih inner deeper
      exact ⟨_, by simp only [reverse, reversed, Primitive.reverse?]; rfl⟩

theorem group_leads (k : Connective) (ws : List Formula) (start stop : Nat)
    (ordered : start ≤ stop) :
    ∃ f, group k ws start stop = .ok f ∧
      f.Leads (chain k ws)
        (chain k (ws.take start ++ chain k (segment ws start stop) :: ws.drop stop)) := by
  obtain ⟨f, nested, leads⟩ := nest_leads k (chain k (ws.drop stop)) (segment ws start stop)
  have inside := leads_position k (ws.take start) leads
  rw [← chain_append, ← chain_append, segments_append ws start stop ordered] at inside
  refine ⟨_, bind_eq_ok.mpr ⟨f, nested, rfl⟩, ?_⟩
  rw [chain_append]
  exact inside

theorem group_invertible (k : Connective) (ws : List Formula) (start stop : Nat) (f : Arrow)
    (result : group k ws start stop = .ok f) : ∃ r, f.reverse = .ok r := by
  obtain ⟨nested, inside, result⟩ := bind_eq_ok.mp result
  cases result
  obtain ⟨r, reversed⟩ := nest_invertible k _ _ nested inside
  exact ⟨_, reverse_position k _ reversed⟩

theorem moved_last (ws : List Formula) (i : Nat) (v : Formula) (found : ws[i]? = some v) :
    moved ws i (ws.length - 1) = ws.eraseIdx i ++ [v] := by
  obtain ⟨within, _⟩ := List.getElem?_eq_some_iff.mp found
  have count := List.length_eraseIdx_of_lt within
  rw [moved, found, ← count]
  exact List.insertIdx_length_self

theorem forget_leads (ws : List Formula) (i : Nat) (within : i < ws.length) :
    ∃ f, forget ws i = .ok f ∧ f.Leads (chain .and ws) (chain .and (ws.eraseIdx i)) := by
  obtain ⟨v, found⟩ : ∃ v, ws[i]? = some v := ⟨_, List.getElem?_eq_getElem within⟩
  obtain ⟨shifted, moving, shiftedLeads⟩ := shift_leads .and ws i (ws.length - 1) within (by omega)
  obtain ⟨dropped, dropLeads⟩ := Leads.compose (f := prim (.commute .and v (.unit true)))
    (g := prim (.forget (.unit true) v)) (.of_eq rfl rfl) (.of_eq rfl rfl)
  have inside := leads_position .and (ws.eraseIdx i) dropLeads
  rw [moved_last ws i v found, chain_append] at shiftedLeads
  obtain ⟨composed, whole⟩ := shiftedLeads.compose inside
  refine ⟨_, bind_eq_ok.mpr ⟨shifted, moving, bind_eq_ok.mpr ⟨_, ?_, composed⟩⟩, whole⟩
  rw [found]
  exact dropped

theorem widen_leads (ws : List Formula) (i : Nat) (x : Formula) (within : i ≤ ws.length) :
    ∃ f, widen ws i x = .ok f ∧ f.Leads (chain .or ws) (chain .or (ws.insertIdx i x)) := by
  obtain ⟨inserted, leads⟩ := Leads.compose (f := prim (.widen (chain .or (ws.drop i)) x))
    (g := prim (.commute .or (chain .or (ws.drop i)) x)) (.of_eq rfl rfl) (.of_eq rfl rfl)
  have inside : ((position .or (ws.take i)).mapArrow _).Leads
      ((ws.take i).foldr (.conj .or) (chain .or (ws.drop i)))
      ((ws.take i).foldr (.conj .or) (chain .or (x :: ws.drop i))) :=
    leads_position .or (ws.take i) leads
  have split := insertIdx_split (ws.take i) (ws.drop i) x
  rw [List.length_take, Nat.min_eq_left within, List.take_append_drop] at split
  rw [← chain_append, ← chain_append, List.take_append_drop, ← split] at inside
  exact ⟨_, bind_eq_ok.mpr ⟨_, inserted, rfl⟩, inside⟩

theorem leads_element (k : Connective) (ws : List Formula) (i : Nat) (within : i < ws.length)
    {f : Arrow} {a b : Formula} (leads : f.Leads a b) :
    ((element k ws i).mapArrow f).Leads (chain k (ws.set i a)) (chain k (ws.set i b)) := by
  have covariant : (element k ws i).variance = .covariant := by
    rw [element, Context.variance_compose, variance_position]
    rfl
  have filled (x : Formula) : (element k ws i).fill x = chain k (ws.set i x) := by
    rw [element, Context.fill_compose, fill_position, List.set_eq_take_append_cons_drop,
      if_pos within, chain_append]
    rfl
  have inside := Context.leads_mapArrow covariant leads
  rwa [filled, filled] at inside

end Chain

end LinearCalculus
