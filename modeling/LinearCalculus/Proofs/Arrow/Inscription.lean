import LinearCalculus.Proofs.Arrow.Laws

/-! Arrows with the endpoints that are written down at their nodes.

Whoever makes a node writes its endpoints down, and takes them from those written at its parts
without looking further. The inverse of a primitive rule gets those of the rule exchanged. -/

namespace LinearCalculus

structure Ends where
  source : Formula
  target : Formula
  deriving DecidableEq, Repr

def Ends.exchanged (e : Ends) : Ends := ⟨e.target, e.source⟩

def Arrow.ends (f : Arrow) : Ends := ⟨f.source, f.target⟩

/-- An arrow that has endpoints, right or wrong ones, at every node. -/
inductive Inscribed where
  | identity (a : Formula) (ends : Ends)
  | composite (f g : Inscribed) (ends : Ends)
  | onLeft (k : Connective) (f : Inscribed) (right : Formula) (ends : Ends)
  | onRight (k : Connective) (left : Formula) (f : Inscribed) (ends : Ends)
  | onConj (k : Connective) (f g : Inscribed) (ends : Ends)
  | onNot (f : Inscribed) (ends : Ends)
  | onAlways (f : Inscribed) (ends : Ends)
  | onBody (q : Quantifier) (v : Var) (f : Inscribed) (ends : Ends)
  | prim (p : Primitive) (ends : Ends)
  deriving DecidableEq, Repr

namespace Inscribed

def arrow : Inscribed → Arrow
  | identity a _ => .identity a
  | composite f g _ => .composite f.arrow g.arrow
  | onLeft k f b _ => .onLeft k f.arrow b
  | onRight k a f _ => .onRight k a f.arrow
  | onConj k f g _ => .onConj k f.arrow g.arrow
  | onNot f _ => .onNot f.arrow
  | onAlways f _ => .onAlways f.arrow
  | onBody q v f _ => .onBody q v f.arrow
  | prim p _ => .prim p

def ends : Inscribed → Ends
  | identity _ e | composite _ _ e | onLeft _ _ _ e | onRight _ _ _ e | onConj _ _ _ e
  | onNot _ e | onAlways _ e | onBody _ _ _ e | prim _ e => e

def parts : Inscribed → List Inscribed
  | composite f g _ | onConj _ f g _ => [f, g]
  | onLeft _ f _ _ | onRight _ _ f _ | onNot f _ | onAlways f _ | onBody _ _ f _ => [f]
  | identity _ _ | prim _ _ => []

def nodes : Inscribed → List Inscribed
  | composite f g e => composite f g e :: (f.nodes ++ g.nodes)
  | onLeft k f b e => onLeft k f b e :: f.nodes
  | onRight k a f e => onRight k a f e :: f.nodes
  | onConj k f g e => onConj k f g e :: (f.nodes ++ g.nodes)
  | onNot f e => onNot f e :: f.nodes
  | onAlways f e => onAlways f e :: f.nodes
  | onBody q v f e => onBody q v f e :: f.nodes
  | identity a e => [identity a e]
  | prim p e => [prim p e]

def derived : Inscribed → Ends
  | identity a _ => ⟨a, a⟩
  | composite f g _ => ⟨f.ends.source, g.ends.target⟩
  | onLeft k f b _ => ⟨.conj k f.ends.source b, .conj k f.ends.target b⟩
  | onRight k a f _ => ⟨.conj k a f.ends.source, .conj k a f.ends.target⟩
  | onConj k f g _ => ⟨.conj k f.ends.source g.ends.source, .conj k f.ends.target g.ends.target⟩
  | onNot f _ => ⟨.not f.ends.target, .not f.ends.source⟩
  | onAlways f _ => ⟨.always f.ends.source, .always f.ends.target⟩
  | onBody q v f _ => ⟨.quant q v f.ends.source, .quant q v f.ends.target⟩
  | prim p _ => ⟨p.source, p.target⟩

/-- Made from inscribed arrows that are at hand. -/
inductive Made (hand : List Inscribed) : Inscribed → Prop where
  | kept {r n : Inscribed} (inHand : r ∈ hand) (inside : n ∈ r.nodes) : Made hand n
  | built {r : Inscribed} (parts : ∀ n ∈ r.parts, Made hand n) (root : r.ends = r.derived) :
      Made hand r
  | exchanged {p p' : Primitive} {e : Ends} (inverse : p.reverse? = some p')
      (made : Made hand (prim p e)) : Made hand (prim p' e.exchanged)

end Inscribed

def Arrow.inscribed : Arrow → Inscribed
  | identity a => .identity a ⟨a, a⟩
  | composite f g => .composite f.inscribed g.inscribed (composite f g).ends
  | onLeft k f b => .onLeft k f.inscribed b (onLeft k f b).ends
  | onRight k a f => .onRight k a f.inscribed (onRight k a f).ends
  | onConj k f g => .onConj k f.inscribed g.inscribed (onConj k f g).ends
  | onNot f => .onNot f.inscribed (onNot f).ends
  | onAlways f => .onAlways f.inscribed (onAlways f).ends
  | onBody q v f => .onBody q v f.inscribed (onBody q v f).ends
  | prim p => .prim p (prim p).ends

namespace Arrow

@[simp] theorem arrow_inscribed (f : Arrow) : f.inscribed.arrow = f := by
  induction f with
  | identity a | prim p => rfl
  | composite f g left right | onConj k f g left right =>
      simp only [inscribed, Inscribed.arrow, left, right]
  | onLeft k f b ih | onRight k a f ih | onNot f ih | onAlways f ih | onBody q v f ih =>
      simp only [inscribed, Inscribed.arrow, ih]

@[simp] theorem ends_inscribed (f : Arrow) : f.inscribed.ends = f.ends := by
  cases f <;> rfl

theorem nodes_inscribed (f : Arrow) : f.inscribed.nodes = f.nodes.map inscribed := by
  induction f with
  | identity a | prim p => rfl
  | composite f g left right | onConj k f g left right =>
      simp [inscribed, Inscribed.nodes, nodes, left, right]
  | onLeft k f b ih | onRight k a f ih | onNot f ih | onAlways f ih | onBody q v f ih =>
      simp [inscribed, Inscribed.nodes, nodes, ih]

theorem derived_inscribed (f : Arrow) : f.inscribed.derived = f.ends := by
  cases f with
  | identity a | prim p => rfl
  | composite f g | onConj k f g | onLeft k f b | onRight k a f | onNot f | onAlways f
  | onBody q v f =>
      simp only [inscribed, Inscribed.derived, ends_inscribed]
      rfl

theorem inscribed_made (f : Arrow) (hand : List Inscribed) : f.inscribed.Made hand := by
  have root (f : Arrow) : f.inscribed.ends = f.inscribed.derived := by
    rw [ends_inscribed, derived_inscribed]
  induction f with
  | identity a | prim p => exact .built (by simp [inscribed, Inscribed.parts]) (root _)
  | composite f g left right | onConj k f g left right =>
      exact .built (by simp [inscribed, Inscribed.parts, left, right]) (root _)
  | onLeft k f b ih | onRight k a f ih | onNot f ih | onAlways f ih | onBody q v f ih =>
      exact .built (by simp [inscribed, Inscribed.parts, ih]) (root _)

end Arrow

namespace Inscribed

/-- Every node has its own endpoints. -/
def Faithful (r : Inscribed) : Prop := r = r.arrow.inscribed

theorem faithful_inscribed (f : Arrow) : f.inscribed.Faithful := by
  rw [Faithful, Arrow.arrow_inscribed]

theorem Faithful.ends {r : Inscribed} (faithful : r.Faithful) : r.ends = r.arrow.ends := by
  rw [faithful, Arrow.ends_inscribed, Arrow.arrow_inscribed]

theorem Faithful.of_mem_nodes {r n : Inscribed} (faithful : r.Faithful) (inside : n ∈ r.nodes) :
    n.Faithful := by
  rw [faithful, Arrow.nodes_inscribed] at inside
  rcases List.mem_map.mp inside with ⟨g, _, rfl⟩
  exact faithful_inscribed g

theorem Faithful.arrow_nodes {r : Inscribed} (faithful : r.Faithful) :
    r.nodes.map arrow = r.arrow.nodes := by
  calc
    r.nodes.map arrow = (r.arrow.nodes.map Arrow.inscribed).map arrow := by
      rw [← Arrow.nodes_inscribed, ← faithful]
    _ = r.arrow.nodes := by
      rw [List.map_map]
      exact (List.map_congr_left fun g _ => g.arrow_inscribed).trans (List.map_id _)

theorem Faithful.wellTyped_node {r n : Inscribed} (faithful : r.Faithful)
    (typed : r.arrow.WellTyped) (inside : n ∈ r.nodes) : n.arrow.WellTyped := by
  have node : n.arrow ∈ r.arrow.nodes := faithful.arrow_nodes ▸ List.mem_map_of_mem inside
  exact Arrow.wellTyped_of_mem_nodes _ _ typed node

theorem faithful_of_parts {r : Inscribed} (parts : ∀ n ∈ r.parts, n.Faithful)
    (root : r.ends = r.derived) : r.Faithful := by
  cases r with
  | identity a e | prim p e =>
      cases root
      rfl
  | composite f g e | onConj k f g e =>
      have first : f = f.arrow.inscribed := parts f (by simp [Inscribed.parts])
      have second : g = g.arrow.inscribed := parts g (by simp [Inscribed.parts])
      rw [first, second, derived, Arrow.ends_inscribed, Arrow.ends_inscribed] at root
      cases root
      simp only [Faithful, arrow, Arrow.inscribed, ← first, ← second]
      rfl
  | onLeft k f b e | onRight k a f e | onNot f e | onAlways f e | onBody q v f e =>
      have inner : f = f.arrow.inscribed := parts f (by simp [Inscribed.parts])
      rw [inner, derived, Arrow.ends_inscribed] at root
      cases root
      simp only [Faithful, arrow, Arrow.inscribed, ← inner]
      rfl

/-- Whoever starts from endpoints that are right writes no others down. -/
theorem Made.faithful {hand : List Inscribed} {r : Inscribed} (made : r.Made hand)
    (given : ∀ r ∈ hand, r.Faithful) : r.Faithful := by
  induction made with
  | kept inHand inside => exact (given _ inHand).of_mem_nodes inside
  | built _ root parts => exact faithful_of_parts parts root
  | @exchanged p p' e inverse _ rule =>
      cases rule
      rcases p.reverse?_ends p' inverse with ⟨source, target⟩
      simp only [Faithful, arrow, Arrow.inscribed, Arrow.ends, Arrow.source, Arrow.target, source,
        target]
      rfl

theorem made_iff (r : Inscribed) (f : Arrow) : r.Made [] ∧ r.arrow = f ↔ r = f.inscribed := by
  constructor
  · rintro ⟨made, rfl⟩
    exact made.faithful (by simp)
  · rintro rfl
    exact ⟨f.inscribed_made [], f.arrow_inscribed⟩

end Inscribed

end LinearCalculus
