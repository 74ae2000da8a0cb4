import LinearCalculus.Context.Candidates
import LinearCalculus.Proofs.Context.Definedness

namespace LinearCalculus

def Among (known : Var → Prop) (vs : List Var) : Prop := ∀ v ∈ vs, known v

@[simp] theorem among_nil (known : Var → Prop) : Among known [] := by simp [Among]

@[simp] theorem among_cons {known : Var → Prop} {v : Var} {vs : List Var} :
    Among known (v :: vs) ↔ known v ∧ Among known vs :=
  List.forall_mem_cons

@[simp] theorem among_append {known : Var → Prop} {vs ws : List Var} :
    Among known (vs ++ ws) ↔ Among known vs ∧ Among known ws :=
  List.forall_mem_append

theorem Among.mono {known known' : Var → Prop} {vs : List Var} (among : Among known vs)
    (more : ∀ v, known v → known' v) : Among known' vs :=
  fun v member => more v (among v member)

namespace Formula

@[simp] def vars : Formula → List Var
  | holds a b | identical a b => [a, b]
  | unit _ => []
  | not f | always f => f.vars
  | conj _ l r => l.vars ++ r.vars
  | quant _ v f => v :: f.vars

theorem below_iff_among {f : Formula} {s : Supply} :
    f.Below s ↔ Among (fun v => v.id < s.next) f.vars := by
  induction f with
  | holds a b | identical a b => simp [Below]
  | unit value => simp [Below]
  | not f ih | always f ih => exact ih
  | conj k l r left right => simp [Below, left, right]
  | quant q v f ih => simp [Below, ih]

theorem vars_replace (old new : Var) (f : Formula) : (f.replace old new).vars ⊆ new :: f.vars := by
  have atom (v : Var) : old.replace new v = new ∨ old.replace new v = v := by
    unfold Var.replace
    split <;> simp
  induction f with
  | holds a b | identical a b =>
      have left := atom a
      have right := atom b
      simp only [replace, vars, List.cons_subset, List.mem_cons]
      grind
  | unit value => simp [replace, vars]
  | not f ih | always f ih => exact ih
  | conj k l r left right =>
      simp only [replace, vars, List.append_subset]
      constructor
      · intro v member
        have := left member
        grind
      · intro v member
        have := right member
        grind
  | quant q w f ih =>
      intro v member
      simp only [replace, vars, List.mem_cons] at member ⊢
      rcases member with rfl | inside
      · simp
      · have := ih inside
        grind

end Formula

@[simp] def Primitive.vars : Primitive → List Var
  | commute _ a b | forget a b | widen a b | apply a b | copy a b | zip a b => a.vars ++ b.vars
  | associateA _ a b c | associateB _ a b c | distribute a b c => a.vars ++ b.vars ++ c.vars
  | introUnit _ a | removeUnit _ a | introDoubleDual a | removeDoubleDual a | cojoin a
  | derelict a => a.vars
  | introExists body witness bound | removeForall bound body witness =>
    witness :: bound :: body.vars
  | removeExists x a | introForall x a => x :: a.vars
  | andPastExists a x b | existsPastAnd a x b => a.vars ++ x :: b.vars
  | substitute left right body _ => left :: right :: body.vars

theorem Primitive.vars_ends (p : Primitive) : p.source.vars ⊆ p.vars ∧ p.target.vars ⊆ p.vars := by
  cases p with
  | introExists body witness bound =>
      have inside := body.vars_replace witness bound
      simp only [source, target, vars, Formula.vars]
      grind
  | removeForall bound body witness =>
      have inside := body.vars_replace bound witness
      simp only [source, target, vars, Formula.vars]
      grind
  | substitute left right body way =>
      have inside := body.vars_replace (way.pair left right).1 (way.pair left right).2
      simp only [source, target, vars, Formula.vars]
      cases way <;> grind [Orientation.pair]
  | _ => simp only [source, target, vars, Formula.vars]; grind

namespace Arrow

@[simp] def vars : Arrow → List Var
  | identity a => a.vars
  | composite f g | onConj _ f g => f.vars ++ g.vars
  | onLeft _ f b => f.vars ++ b.vars
  | onRight _ a f => a.vars ++ f.vars
  | onNot f | onAlways f => f.vars
  | onBody _ v f => v :: f.vars
  | prim p => p.vars

theorem vars_ends (f : Arrow) : f.source.vars ⊆ f.vars ∧ f.target.vars ⊆ f.vars := by
  induction f with
  | identity a => simp [source, target, vars]
  | prim p => exact p.vars_ends
  | composite f g left right | onConj k f g left right =>
      simp only [source, target, vars, Formula.vars]
      grind
  | onNot f ih => exact ih.symm
  | onAlways f ih => exact ih
  | onLeft k f b ih | onRight k a f ih | onBody q v f ih =>
      simp only [source, target, vars, Formula.vars]
      grind

theorem among_joinAll {f h : Arrow} {rest : List Arrow} (result : f.joinAll rest = .ok h)
    {known : Var → Prop} (among : ∀ g ∈ f :: rest, Among known g.vars) : Among known h.vars := by
  rw [joinAll_eq_foldl result]
  clear result
  induction rest generalizing f with
  | nil => exact among f List.mem_cons_self
  | cons g rest ih =>
      apply ih
      intro k member
      rcases List.mem_cons.mp member with rfl | later
      · have first := among f List.mem_cons_self
        have second := among g (List.mem_cons_of_mem f List.mem_cons_self)
        simp [first, second]
      · exact among k (List.mem_cons_of_mem f (List.mem_cons_of_mem g later))

end Arrow

def Layer.vars : Layer → List Var
  | not | always => []
  | quant _ v => [v]
  | conj _ _ other => other.vars

theorem Layer.below_iff_among {ls : List Layer} {s : Supply} :
    (∀ l ∈ ls, l.Below s) ↔ Among (fun v => v.id < s.next) (ls.flatMap vars) := by
  induction ls with
  | nil => simp
  | cons l ls ih =>
      have here : l.Below s ↔ Among (fun v => v.id < s.next) l.vars := by
        cases l <;> simp [Below, vars, Formula.below_iff_among]
      rw [List.flatMap_cons, among_append, List.forall_mem_cons]
      exact and_congr here ih

namespace Context

def vars (c : Context) : List Var := c.layers.flatMap Layer.vars

theorem below_iff_among {c : Context} {s : Supply} :
    c.Below s ↔ Among (fun v => v.id < s.next) c.vars :=
  Layer.below_iff_among

section

variable {known : Var → Prop}

@[simp] theorem among_comp {inner outer : Context} :
    Among known (comp inner outer).vars ↔ Among known outer.vars ∧ Among known inner.vars := by
  simp [vars, layers]

@[simp] theorem among_compose {inner outer : Context} :
    Among known (inner.compose outer).vars ↔ Among known outer.vars ∧ Among known inner.vars := by
  simp [vars, layers_compose]

@[simp] theorem among_fill {c : Context} {x : Formula} :
    Among known (c.fill x).vars ↔ Among known c.vars ∧ Among known x.vars := by
  induction c generalizing x with
  | hole => simp [fill, vars, layers]
  | layer l =>
      cases l with
      | conj k hole other =>
          cases hole <;> simp [fill, Layer.fill, vars, layers, Layer.vars, And.comm]
      | not | always | quant q v =>
          simp [fill, Layer.fill, vars, layers, Layer.vars]
  | comp inner outer first second => rw [fill, second, first, among_comp, and_assoc]

@[simp] theorem among_mapArrow {c : Context} {f : Arrow} :
    Among known (c.mapArrow f).vars ↔ Among known c.vars ∧ Among known f.vars := by
  induction c generalizing f with
  | hole => simp [mapArrow, vars, layers]
  | layer l =>
      cases l with
      | conj k hole other =>
          cases hole <;>
            simp [mapArrow, Layer.mapArrow, vars, layers, Layer.vars, And.comm]
      | not | always | quant q v =>
          simp [mapArrow, Layer.mapArrow, vars, layers, Layer.vars]
  | comp inner outer first second => rw [mapArrow, second, first, among_comp, and_assoc]

end

end Context

namespace TwoHole

def vars : TwoHole → List Var
  | conj _ l r => l.vars ++ r.vars
  | comp inner outer => inner.vars ++ outer.vars

end TwoHole

def Transformation.vars : Transformation → List Var
  | importing c b | lifting c b | exporting c b => c.vars ++ b.vars
  | extract outer b _ inner | insert outer b _ inner => outer.vars ++ b.vars ++ inner.vars

def Candidate.vars (c : Candidate) : List Var :=
  c.side.vars ++ c.transformation.vars ++ c.remainder.vars

end LinearCalculus
