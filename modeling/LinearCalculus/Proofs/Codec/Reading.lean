import LinearCalculus.Codec.Arrow
import LinearCalculus.Codec.Surface
import LinearCalculus.Proofs.Json.Document
import LinearCalculus.Proofs.Variables

namespace LinearCalculus

namespace Json

theorem itemsDepth_le {items : List Json} {n : Nat} :
    itemsDepth items ≤ n ↔ ∀ j ∈ items, j.depth ≤ n := by
  induction items with
  | nil => simp [itemsDepth]
  | cons j items ih => rw [itemsDepth, Nat.max_le, ih, List.forall_mem_cons]

theorem depth_array_le {items : List Json} {levels : Nat} (room : (array items).depth ≤ levels) :
    ∃ inner, levels = inner + 1 ∧ ∀ j ∈ items, j.depth ≤ inner := by
  obtain ⟨inner, rfl⟩ := Nat.exists_eq_add_of_le' (Nat.le_trans (Nat.le_add_left 1 _) room)
  exact ⟨inner, rfl, itemsDepth_le.mp (Nat.le_of_succ_le_succ room)⟩

theorem depth_tagged_le {name : String} {j : Json} {levels : Nat}
    (room : (tagged name j).depth ≤ levels) : ∃ inner, levels = inner + 1 ∧ j.depth ≤ inner := by
  obtain ⟨inner, rfl⟩ := Nat.exists_eq_add_of_le' (Nat.le_trans (Nat.le_add_left 1 _) room)
  exact ⟨inner, rfl, Nat.le_trans (Nat.le_max_left _ _) (Nat.le_of_succ_le_succ room)⟩

theorem membersDepth_le {members : List (List Char × Json)} {n : Nat} :
    membersDepth members ≤ n ↔ ∀ m ∈ members, m.2.depth ≤ n := by
  induction members with
  | nil => simp [membersDepth]
  | cons m members ih => rw [membersDepth, Nat.max_le, ih, List.forall_mem_cons]

theorem depth_tagged_array_le {name : String} {items : List Json} {levels : Nat}
    (room : (tagged name (array items)).depth ≤ levels) :
    ∃ inner, levels = inner + 2 ∧ ∀ j ∈ items, j.depth ≤ inner := by
  obtain ⟨outer, rfl, inside⟩ := depth_tagged_le room
  obtain ⟨inner, rfl, each⟩ := depth_array_le inside
  exact ⟨inner, rfl, each⟩

theorem depth_tagged_record_le {name : String} {members : List (String × Json)} {levels : Nat}
    (room : (tagged name (record members)).depth ≤ levels) :
    ∃ inner, levels = inner + 2 ∧ ∀ m ∈ members, m.2.depth ≤ inner := by
  obtain ⟨outer, rfl, inside⟩ := depth_tagged_le room
  obtain ⟨inner, rfl⟩ := Nat.exists_eq_add_of_le' (Nat.le_trans (Nat.le_add_left 1 _) inside)
  have each := membersDepth_le.mp (Nat.le_of_succ_le_succ inside)
  exact ⟨inner, rfl, fun m member => each _ (List.mem_map_of_mem member)⟩

end Json

/-- The rule as a value, in which the members of a record are sorted by name. -/
def Primitive.toValue : Primitive → Json
  | .introExists body witness bound => .tagged "IntroExists" (.record
      [("body", body.toJson), ("bound", bound.toJson), ("witness", witness.toJson)])
  | .removeForall bound body witness => .tagged "RemoveForall" (.record
      [("body", body.toJson), ("bound", bound.toJson), ("witness", witness.toJson)])
  | .substitute l r body way => .tagged "Substitute" (.record
      [("body", body.toJson), ("direction", way.toJson), ("left", l.toJson), ("right", r.toJson)])
  | p => p.toJson

def Arrow.toJsonBy (write : Primitive → Json) : Arrow → Json
  | .identity a => .tagged "Identity" a.toJson
  | .composite f g => .tagged "Composite" (.array [f.toJsonBy write, g.toJsonBy write])
  | .onLeft k f b => .tagged "OnLeft" (.array [k.toJson, f.toJsonBy write, b.toJson])
  | .onRight k a f => .tagged "OnRight" (.array [k.toJson, a.toJson, f.toJsonBy write])
  | .onConj k f g => .tagged "OnConj" (.array [k.toJson, f.toJsonBy write, g.toJsonBy write])
  | .onNot f => .tagged "OnNot" (f.toJsonBy write)
  | .onAlways f => .tagged "OnAlways" (f.toJsonBy write)
  | .onBody q v f => .tagged "OnBody" (.array [q.toJson, v.toJson, f.toJsonBy write])
  | .prim p => write p

theorem Arrow.toJson_eq (f : Arrow) : f.toJson = f.toJsonBy Primitive.toJson := by
  induction f with
  | identity a | prim p => rfl
  | composite f g left right | onConj k f g left right => rw [toJson, toJsonBy, left, right]
  | onLeft k f b ih | onRight k a f ih | onNot f ih | onAlways f ih | onBody q v f ih =>
      rw [toJson, toJsonBy, ih]

namespace Decoder

def Reads {α : Type} (x : Decoder α) (a : α) (s : Supply) : Prop := x.run s = (.ok a, s)

section Combinators

variable {α β γ δ : Type} {s : Supply} {a : α} {b : β} {c : γ} {d : δ}

theorem reads_pure (a : α) : Reads (pure a) a s := rfl

theorem reads_bind {x : Decoder α} {next : α → Decoder β} (first : Reads x a s)
    (rest : Reads (next a) b s) : Reads (x >>= next) b s := by
  unfold Reads at *
  rw [ExceptT.run_bind]
  simp only [bind, StateT.bind, first]
  exact rest

theorem reads_map {x : Decoder α} {make : α → β} (reads : Reads x a s) :
    Reads (make <$> x) (make a) s := by
  rw [map_eq_pure_bind]
  exact reads_bind reads (reads_pure _)

theorem reads_need : Reads (need (some a)) a s := rfl

theorem reads_item {decode : Json → Decoder α} {j : Json} {rest : List Json}
    (reads : Reads (decode j) a s) : Reads (item decode (j :: rest)) (a, rest) s :=
  reads_bind reads (reads_pure _)

variable {first : Json → Decoder α} {second : Json → Decoder β} {third : Json → Decoder γ}
  {fourth : Json → Decoder δ} {j k l m : Json}

theorem reads_two (one : Reads (first j) a s) (two : Reads (second k) b s) :
    Reads (Decoder.two first second [j, k]) (a, b) s :=
  reads_bind (reads_item one) (reads_bind (reads_item two) rfl)

theorem reads_three (one : Reads (first j) a s) (two : Reads (second k) b s)
    (three : Reads (third l) c s) :
    Reads (Decoder.three first second third [j, k, l]) (a, b, c) s :=
  reads_bind (reads_item one) (reads_bind (reads_item two) (reads_bind (reads_item three) rfl))

theorem reads_four (one : Reads (first j) a s) (two : Reads (second k) b s)
    (three : Reads (third l) c s) (four : Reads (fourth m) d s) :
    Reads (Decoder.four first second third fourth [j, k, l, m]) (a, b, c, d) s :=
  reads_bind (reads_item one) (reads_bind (reads_item two) (reads_bind (reads_item three)
    (reads_bind (reads_item four) rfl)))

theorem reads_choice {form : Form} {levels : Nat} {named : String → Option α} {name : String}
    (known : named name = some a) : Reads (choice form levels named (.ofString name)) a s := by
  have tag : form.tagged? (.ofString name) = some ⟨name, none, true⟩ := by
    simp [Form.tagged?, Json.ofString, Json.textOf?_escape]
  unfold choice
  rw [tag]
  refine reads_bind reads_need ?_
  rw [known]
  exact reads_bind reads_need (reads_pure a)

theorem reads_argumentOf {form : Form} {decode : String → Json → Decoder α} {name : String}
    (plain : Json.escape name.toList = name.toList) (reads : Reads (decode name j) a s) :
    Reads (argumentOf form decode (.tagged name j)) a s := by
  have tag : form.tagged? (.tagged name j) = some ⟨name, some j, true⟩ := by
    simp [Form.tagged?, Json.tagged, Json.textOf?_plain plain]
  unfold argumentOf
  rw [tag]
  exact reads_bind reads_need (reads_bind reads_need (reads_bind reads rfl))

end Combinators

section Names

variable {s : Supply} (form : Form) (levels : Nat)

theorem reads_connective (k : Connective) : Reads (connective form levels k.toJson) k s := by
  cases k <;> exact reads_choice rfl

theorem reads_quantifier (q : Quantifier) : Reads (quantifier form levels q.toJson) q s := by
  cases q <;> exact reads_choice rfl

theorem reads_orientation (way : Orientation) :
    Reads (orientation form levels way.toJson) way s := by
  cases way <;> exact reads_choice rfl

end Names

theorem reads_members_cons {form : Form} {levels : Nat} {names : List Field} {s : Supply}
    {fs fs' result : Fields} {f : Field} {name : String} {j : Json}
    {rest : List (List Char × Json)} (plain : Json.escape name.toList = name.toList)
    (found : names.find? (·.name == name) = some f) (new : fs.has f = false)
    (here : Reads (field form levels fs f j) fs' s)
    (others : Reads (members form levels names fs' rest) result s) :
    Reads (members form levels names fs ((name.toList, j) :: rest)) result s := by
  rw [members, Json.textOf?_plain plain]
  refine reads_bind reads_need ?_
  simp only [found, new]
  exact reads_bind rfl (reads_bind here others)

section Values

variable {s : Supply} (bounded : s.next ≤ Supply.capacity) (form : Form)
include bounded

theorem reads_var {v : Var} (below : v.id < s.next) : Reads (var v.toJson) v s := by
  have small : v.id < Supply.capacity := Nat.lt_of_lt_of_le below bounded
  have kept : s.reserve v = s := by
    cases s
    exact congrArg Supply.mk (Nat.max_eq_left below)
  unfold Reads var Var.toJson Json.ofNat
  rw [Json.toList_toString]
  simp only [Json.natural?_toDigits, if_pos small]
  change (Except.ok v, s.reserve v) = _
  rw [kept]

theorem reads_formula (f : Formula) (below : Among (fun v => v.id < s.next) f.vars) (levels : Nat)
    (room : f.toJson.depth ≤ levels) : Reads (formula form levels f.toJson) f s := by
  induction f generalizing levels with
  | holds a b | identical a b =>
      obtain ⟨inner, rfl, _⟩ := Json.depth_tagged_array_le room
      obtain ⟨first, others⟩ := among_cons.mp below
      have second := (among_cons.mp others).1
      have pair := reads_two (reads_var bounded first) (reads_var bounded second)
      exact reads_argumentOf rfl (reads_bind pair (reads_pure _))
  | unit value =>
      obtain ⟨inner, rfl, _⟩ := Json.depth_tagged_le room
      cases value <;> exact reads_argumentOf rfl (reads_map (reads_choice rfl))
  | not f ih | always f ih =>
      obtain ⟨inner, rfl, inside⟩ := Json.depth_tagged_le room
      exact reads_argumentOf rfl (reads_map (ih below inner inside))
  | conj k l r left right =>
      obtain ⟨inner, rfl, each⟩ := Json.depth_tagged_array_le room
      obtain ⟨first, second⟩ := among_append.mp below
      have one := left first inner (each _ (by simp))
      have two := right second inner (each _ (by simp))
      have arguments := reads_three (reads_connective form inner k) one two
      exact reads_argumentOf rfl (reads_bind arguments (reads_pure _))
  | quant q v f ih =>
      obtain ⟨inner, rfl, each⟩ := Json.depth_tagged_array_le room
      obtain ⟨first, second⟩ := among_cons.mp below
      have body := ih second inner (each _ (by simp))
      have arguments := reads_three (reads_quantifier form inner q) (reads_var bounded first) body
      exact reads_argumentOf rfl (reads_bind arguments (reads_pure _))

theorem reads_primitive (p : Primitive) (below : Among (fun v => v.id < s.next) p.vars)
    (levels : Nat) (room : p.toJson.depth ≤ levels) :
    Reads (arrow form levels p.toJson) (.prim p) s := by
  have content := reads_formula bounded form
  cases p with
  | commute k a b =>
      obtain ⟨inner, rfl, each⟩ := Json.depth_tagged_array_le room
      obtain ⟨first, second⟩ := among_append.mp below
      have one := content a first inner (each _ (by simp))
      have two := content b second inner (each _ (by simp))
      have arguments := reads_three (reads_connective form inner k) one two
      exact reads_argumentOf rfl (reads_map (reads_bind arguments (reads_pure _)))
  | associateA k a b c | associateB k a b c =>
      obtain ⟨inner, rfl, each⟩ := Json.depth_tagged_array_le room
      obtain ⟨both, third⟩ := among_append.mp below
      obtain ⟨first, second⟩ := among_append.mp both
      have one := content a first inner (each _ (by simp))
      have two := content b second inner (each _ (by simp))
      have three := content c third inner (each _ (by simp))
      have arguments := reads_four (reads_connective form inner k) one two three
      exact reads_argumentOf rfl (reads_map (reads_bind arguments (reads_pure _)))
  | introUnit k a | removeUnit k a =>
      obtain ⟨inner, rfl, each⟩ := Json.depth_tagged_array_le room
      have one := content a below inner (each _ (by simp))
      have arguments := reads_two (reads_connective form inner k) one
      exact reads_argumentOf rfl (reads_map (reads_bind arguments (reads_pure _)))
  | distribute a b c =>
      obtain ⟨inner, rfl, each⟩ := Json.depth_tagged_array_le room
      obtain ⟨both, third⟩ := among_append.mp below
      obtain ⟨first, second⟩ := among_append.mp both
      have one := content a first inner (each _ (by simp))
      have two := content b second inner (each _ (by simp))
      have three := content c third inner (each _ (by simp))
      have arguments := reads_three one two three
      exact reads_argumentOf rfl (reads_map (reads_bind arguments (reads_pure _)))
  | forget a b | widen a b | apply a b | copy a b | zip a b =>
      obtain ⟨inner, rfl, each⟩ := Json.depth_tagged_array_le room
      obtain ⟨first, second⟩ := among_append.mp below
      have one := content a first inner (each _ (by simp))
      have two := content b second inner (each _ (by simp))
      exact reads_argumentOf rfl (reads_map (reads_bind (reads_two one two) (reads_pure _)))
  | introDoubleDual a | removeDoubleDual a | cojoin a | derelict a =>
      obtain ⟨inner, rfl, inside⟩ := Json.depth_tagged_le room
      exact reads_argumentOf rfl (reads_map (reads_map (content a below inner inside)))
  | removeExists x a | introForall x a =>
      obtain ⟨inner, rfl, each⟩ := Json.depth_tagged_array_le room
      obtain ⟨first, second⟩ := among_cons.mp below
      have body := content a second inner (each _ (by simp))
      have arguments := reads_two (reads_var bounded first) body
      exact reads_argumentOf rfl (reads_map (reads_bind arguments (reads_pure _)))
  | andPastExists a x b | existsPastAnd a x b =>
      obtain ⟨inner, rfl, each⟩ := Json.depth_tagged_array_le room
      obtain ⟨first, both⟩ := among_append.mp below
      obtain ⟨second, third⟩ := among_cons.mp both
      have one := content a first inner (each _ (by simp))
      have two := content b third inner (each _ (by simp))
      have arguments := reads_three one (reads_var bounded second) two
      exact reads_argumentOf rfl (reads_map (reads_bind arguments (reads_pure _)))
  | introExists body witness bound =>
      obtain ⟨inner, rfl, each⟩ := Json.depth_tagged_record_le room
      obtain ⟨first, both⟩ := among_cons.mp below
      obtain ⟨second, third⟩ := among_cons.mp both
      have inside := content body third inner (each _ List.mem_cons_self)
      have named := reads_var bounded first
      have binder := reads_var bounded second
      have record : Reads (fields form [.body, .witness, .bound] (inner + 1) (.record
          [("body", body.toJson), ("witness", witness.toJson), ("bound", bound.toJson)]))
          ⟨body, witness, bound, none, none, none⟩ s := by
        refine reads_members_cons rfl rfl rfl (reads_bind inside (reads_pure _)) ?_
        refine reads_members_cons rfl rfl rfl (reads_bind named (reads_pure _)) ?_
        refine reads_members_cons rfl rfl rfl (reads_bind binder (reads_pure _)) ?_
        exact reads_pure _
      exact reads_argumentOf rfl (reads_map (reads_bind record rfl))
  | removeForall bound body witness =>
      obtain ⟨inner, rfl, each⟩ := Json.depth_tagged_record_le room
      obtain ⟨first, both⟩ := among_cons.mp below
      obtain ⟨second, third⟩ := among_cons.mp both
      have inside := content body third inner (each ("body", _) (by simp))
      have named := reads_var bounded first
      have binder := reads_var bounded second
      have record : Reads (fields form [.bound, .body, .witness] (inner + 1) (.record
          [("bound", bound.toJson), ("body", body.toJson), ("witness", witness.toJson)]))
          ⟨body, witness, bound, none, none, none⟩ s := by
        refine reads_members_cons rfl rfl rfl (reads_bind binder (reads_pure _)) ?_
        refine reads_members_cons rfl rfl rfl (reads_bind inside (reads_pure _)) ?_
        refine reads_members_cons rfl rfl rfl (reads_bind named (reads_pure _)) ?_
        exact reads_pure _
      exact reads_argumentOf rfl (reads_map (reads_bind record rfl))
  | substitute l r body way =>
      obtain ⟨inner, rfl, each⟩ := Json.depth_tagged_record_le room
      obtain ⟨first, both⟩ := among_cons.mp below
      obtain ⟨second, third⟩ := among_cons.mp both
      have inside := content body third inner (each ("body", _) (by simp))
      have left := reads_var bounded first
      have right := reads_var bounded second
      have record : Reads (fields form [.left, .right, .body, .direction] (inner + 1) (.record
          [("left", l.toJson), ("right", r.toJson), ("body", body.toJson),
            ("direction", way.toJson)])) ⟨body, none, none, l, r, way⟩ s := by
        refine reads_members_cons rfl rfl rfl (reads_bind left (reads_pure _)) ?_
        refine reads_members_cons rfl rfl rfl (reads_bind right (reads_pure _)) ?_
        refine reads_members_cons rfl rfl rfl (reads_bind inside (reads_pure _)) ?_
        refine reads_members_cons rfl rfl rfl
          (reads_bind (reads_orientation form inner way) (reads_pure _)) ?_
        exact reads_pure _
      exact reads_argumentOf rfl (reads_map (reads_bind record rfl))

theorem reads_primitive_value (p : Primitive) (below : Among (fun v => v.id < s.next) p.vars)
    (levels : Nat) (room : p.toValue.depth ≤ levels) :
    Reads (arrow form levels p.toValue) (.prim p) s := by
  cases p with
  | introExists body witness bound | removeForall bound body witness =>
      obtain ⟨inner, rfl, each⟩ := Json.depth_tagged_record_le room
      obtain ⟨first, both⟩ := among_cons.mp below
      obtain ⟨second, third⟩ := among_cons.mp both
      have inside := reads_formula bounded form body third inner (each _ List.mem_cons_self)
      have named := reads_var bounded first
      have binder := reads_var bounded second
      -- the two rules have the same record, but ask for the fields in different orders
      have record (names : List Field) (all : ∀ f ∈ [Field.body, .bound, .witness],
          names.find? (·.name == f.name) = some f) : Reads (fields form names (inner + 1) (.record
          [("body", body.toJson), ("bound", bound.toJson), ("witness", witness.toJson)]))
          ⟨body, witness, bound, none, none, none⟩ s := by
        refine reads_members_cons rfl (all .body (by simp)) rfl
          (reads_bind inside (reads_pure _)) ?_
        refine reads_members_cons rfl (all .bound (by simp)) rfl
          (reads_bind binder (reads_pure _)) ?_
        refine reads_members_cons rfl (all .witness (by simp)) rfl
          (reads_bind named (reads_pure _)) ?_
        exact reads_pure _
      exact reads_argumentOf rfl (reads_map (reads_bind (record _ (by decide)) rfl))
  | substitute l r body way =>
      obtain ⟨inner, rfl, each⟩ := Json.depth_tagged_record_le room
      obtain ⟨first, both⟩ := among_cons.mp below
      obtain ⟨second, third⟩ := among_cons.mp both
      have inside := reads_formula bounded form body third inner (each _ List.mem_cons_self)
      have left := reads_var bounded first
      have right := reads_var bounded second
      have record : Reads (fields form [.left, .right, .body, .direction] (inner + 1) (.record
          [("body", body.toJson), ("direction", way.toJson), ("left", l.toJson),
            ("right", r.toJson)])) ⟨body, none, none, l, r, way⟩ s := by
        refine reads_members_cons rfl rfl rfl (reads_bind inside (reads_pure _)) ?_
        refine reads_members_cons rfl rfl rfl
          (reads_bind (reads_orientation form inner way) (reads_pure _)) ?_
        refine reads_members_cons rfl rfl rfl (reads_bind left (reads_pure _)) ?_
        refine reads_members_cons rfl rfl rfl (reads_bind right (reads_pure _)) ?_
        exact reads_pure _
      exact reads_argumentOf rfl (reads_map (reads_bind record rfl))
  | _ => exact reads_primitive bounded form _ below levels room

end Values

section Arrows

variable {s : Supply} {form : Form}

theorem reads_checked {x : Decoder Arrow} {f : Arrow} (reads : Reads x f s)
    (clear : f.fault? = none) : Reads (checked x) f s := by
  refine reads_bind reads ?_
  rw [clear]
  rfl

/-- The arrows inside are checked as they are read, so that all of them have to be well-typed. The
arrow itself may have a fault. -/
theorem reads_arrow {write : Primitive → Json}
    (primitives : ∀ p, Among (fun v => v.id < s.next) p.vars → ∀ levels,
      (write p).depth ≤ levels → Reads (arrow form levels (write p)) (.prim p) s)
    (bounded : s.next ≤ Supply.capacity) (f : Arrow) (parts : ∀ g ∈ f.parts, g.WellTyped)
    (below : Among (fun v => v.id < s.next) f.vars) (levels : Nat)
    (room : (f.toJsonBy write).depth ≤ levels) :
    Reads (arrow form levels (f.toJsonBy write)) f s := by
  have clear {g : Arrow} (typed : g.WellTyped) : g.fault? = none := (g.wellTyped_iff.mp typed).2
  have deeper {g : Arrow} (typed : g.WellTyped) : ∀ h ∈ g.parts, h.WellTyped :=
    (g.wellTyped_iff.mp typed).1
  induction f generalizing levels with
  | identity a =>
      obtain ⟨inner, rfl, inside⟩ := Json.depth_tagged_le room
      exact reads_argumentOf rfl (reads_map (reads_formula bounded form a below inner inside))
  | prim p => exact primitives p below levels room
  | onNot f ih | onAlways f ih =>
      obtain ⟨inner, rfl, inside⟩ := Json.depth_tagged_le room
      have typed := parts f List.mem_cons_self
      exact reads_argumentOf rfl
        (reads_map (reads_checked (ih (deeper typed) below inner inside) (clear typed)))
  | composite f g left right =>
      obtain ⟨inner, rfl, each⟩ := Json.depth_tagged_array_le room
      obtain ⟨first, second⟩ := among_append.mp below
      have typed := parts f List.mem_cons_self
      have typed' := parts g (List.mem_cons_of_mem _ List.mem_cons_self)
      exact reads_argumentOf rfl (reads_bind (reads_two
        (reads_checked (left (deeper typed) first inner (each _ (by simp))) (clear typed))
        (reads_checked (right (deeper typed') second inner (each _ (by simp))) (clear typed')))
        (reads_pure _))
  | onConj k f g left right =>
      obtain ⟨inner, rfl, each⟩ := Json.depth_tagged_array_le room
      obtain ⟨first, second⟩ := among_append.mp below
      have typed := parts f List.mem_cons_self
      have typed' := parts g (List.mem_cons_of_mem _ List.mem_cons_self)
      exact reads_argumentOf rfl (reads_bind (reads_three (reads_connective form inner k)
        (reads_checked (left (deeper typed) first inner (each _ (by simp))) (clear typed))
        (reads_checked (right (deeper typed') second inner (each _ (by simp))) (clear typed')))
        (reads_pure _))
  | onLeft k f b ih =>
      obtain ⟨inner, rfl, each⟩ := Json.depth_tagged_array_le room
      obtain ⟨first, second⟩ := among_append.mp below
      have typed := parts f List.mem_cons_self
      exact reads_argumentOf rfl (reads_bind (reads_three (reads_connective form inner k)
        (reads_checked (ih (deeper typed) first inner (each _ (by simp))) (clear typed))
        (reads_formula bounded form b second inner (each _ (by simp)))) (reads_pure _))
  | onRight k a f ih =>
      obtain ⟨inner, rfl, each⟩ := Json.depth_tagged_array_le room
      obtain ⟨first, second⟩ := among_append.mp below
      have typed := parts f List.mem_cons_self
      exact reads_argumentOf rfl (reads_bind (reads_three (reads_connective form inner k)
        (reads_formula bounded form a first inner (each _ (by simp)))
        (reads_checked (ih (deeper typed) second inner (each _ (by simp))) (clear typed)))
        (reads_pure _))
  | onBody q v f ih =>
      obtain ⟨inner, rfl, each⟩ := Json.depth_tagged_array_le room
      obtain ⟨first, second⟩ := among_cons.mp below
      have typed := parts f List.mem_cons_self
      exact reads_argumentOf rfl (reads_bind (reads_three (reads_quantifier form inner q)
        (reads_var bounded first)
        (reads_checked (ih (deeper typed) second inner (each _ (by simp))) (clear typed)))
        (reads_pure _))

end Arrows

end Decoder

namespace Surface.Formula

theorem tree_induction {motive : Formula → Prop} (atHolds : ∀ a b, motive (holds a b))
    (atIdentical : ∀ a b, motive (identical a b)) (atNot : ∀ f, motive f → motive (not f))
    (atConj : ∀ k fs, (∀ f ∈ fs, motive f) → motive (conj k fs))
    (atAlways : ∀ f, motive f → motive (always f))
    (atQuant : ∀ q vs f, motive f → motive (quant q vs f))
    (atImplies : ∀ a b, motive a → motive b → motive (implies a b))
    (atIff : ∀ a b, motive a → motive b → motive (iff a b))
    (atHidden : ∀ name f, motive f → motive (hidden name f)) (f : Formula) : motive f :=
  @Formula.rec motive (fun fs => ∀ f ∈ fs, motive f) atHolds atIdentical atNot atConj atAlways
    atQuant atImplies atIff atHidden (by simp)
    (fun _ _ first others => List.forall_mem_cons.mpr ⟨first, others⟩) f

mutual

def vars : Formula → List Var
  | holds a b | identical a b => [a, b]
  | not f | always f => f.vars
  | conj _ fs => varsList fs
  | quant _ vs f => vs ++ f.vars
  | implies a b | iff a b => a.vars ++ b.vars
  | hidden _ f => f.vars

def varsList : List Formula → List Var
  | [] => []
  | f :: fs => f.vars ++ varsList fs

end

theorem among_varsList {known : Var → Prop} {fs : List Formula} :
    Among known (varsList fs) ↔ ∀ f ∈ fs, Among known f.vars := by
  induction fs with
  | nil => simp [varsList]
  | cons f fs ih => rw [varsList, among_append, ih, List.forall_mem_cons]

theorem toJsonList_eq_map (fs : List Formula) : toJsonList fs = fs.map toJson := by
  induction fs with
  | nil => rfl
  | cons f fs ih => rw [toJsonList, ih, List.map_cons]

end Surface.Formula

namespace Decoder

section Surface

variable {s : Supply} (form : Form)

theorem reads_mapM {α : Type} {decode : Json → Decoder α} {encode : α → Json} {as : List α}
    (each : ∀ a ∈ as, Reads (decode (encode a)) a s) :
    Reads ((as.map encode).mapM decode) as s := by
  induction as with
  | nil => rfl
  | cons a as ih =>
      obtain ⟨first, others⟩ := List.forall_mem_cons.mp each
      rw [List.map_cons, List.mapM_cons]
      exact reads_bind first (reads_bind (ih others) (reads_pure _))

theorem reads_surface (bounded : s.next ≤ Supply.capacity) (f : Surface.Formula)
    (below : Among (fun v => v.id < s.next) f.vars) (levels : Nat)
    (room : f.toJson.depth ≤ levels) : Reads (surfaceFormula form levels f.toJson) f s := by
  induction f using Surface.Formula.tree_induction generalizing levels with
  | atHolds a b | atIdentical a b =>
      obtain ⟨inner, rfl, _⟩ := Json.depth_tagged_array_le room
      obtain ⟨first, others⟩ := among_cons.mp below
      have pair := reads_two (reads_var bounded first)
        (reads_var bounded (among_cons.mp others).1)
      exact reads_argumentOf rfl (reads_bind pair (reads_pure _))
  | atNot f ih | atAlways f ih =>
      obtain ⟨inner, rfl, inside⟩ := Json.depth_tagged_le room
      exact reads_argumentOf rfl (reads_map (ih below inner inside))
  | atConj k fs ih =>
      obtain ⟨outer, rfl, each⟩ := Json.depth_tagged_array_le room
      obtain ⟨inner, rfl, inside⟩ :=
        Json.depth_array_le (each (.array (Surface.Formula.toJsonList fs)) (by simp))
      have known := Surface.Formula.among_varsList.mp below
      rw [Surface.Formula.toJson]
      rw [Surface.Formula.toJsonList_eq_map] at inside ⊢
      have values : Reads ((fs.map Surface.Formula.toJson).mapM (surfaceFormula form inner)) fs s :=
        reads_mapM fun f member =>
          ih f member (known f member) inner (inside _ (List.mem_map_of_mem member))
      exact reads_argumentOf rfl
        (reads_bind (reads_two (reads_connective form (inner + 1) k) values) (reads_pure _))
  | atQuant q vs f ih =>
      obtain ⟨outer, rfl, each⟩ := Json.depth_tagged_array_le room
      obtain ⟨inner, rfl, _⟩ := Json.depth_array_le (each (.array (vs.map Var.toJson)) (by simp))
      obtain ⟨bound, inside⟩ := among_append.mp below
      have binders : Reads ((vs.map Var.toJson).mapM var) vs s :=
        reads_mapM fun v member => reads_var bounded (bound v member)
      exact reads_argumentOf rfl (reads_bind (reads_three (reads_quantifier form (inner + 1) q)
        binders (ih inside (inner + 1) (each _ (by simp)))) (reads_pure _))
  | atImplies a b left right | atIff a b left right =>
      obtain ⟨inner, rfl, each⟩ := Json.depth_tagged_array_le room
      obtain ⟨first, second⟩ := among_append.mp below
      have arguments := reads_two (left first inner (each _ (by simp)))
        (right second inner (each _ (by simp)))
      exact reads_argumentOf rfl (reads_bind arguments (reads_pure _))
  | atHidden name f ih =>
      obtain ⟨inner, rfl, each⟩ := Json.depth_tagged_array_le room
      have title : Reads (Decoder.name (.ofString name)) name s := by
        rw [Json.ofString, Decoder.name, Json.textOf?_escape]
        exact reads_need
      have arguments := reads_two title (ih below inner (each _ (by simp)))
      exact reads_argumentOf rfl (reads_bind arguments (reads_pure _))

end Surface

end Decoder

end LinearCalculus
