import LinearCalculus.Proofs.Json.Lexeme

/-! Documents that have been written are read back.

The reader goes through the text with a bound on its nesting. Twice the length of what it still
has to read is enough, so the induction is on that bound and not on the document. -/

namespace LinearCalculus.Json

mutual

/-- Put together by the writer: numbers are digits, and strings have their escapes. -/
def Written : Json → Prop
  | null | bool _ => True
  | number lexeme => ∃ n, lexeme = Nat.toDigits 10 n
  | string lexeme => ∃ s, lexeme = escape s
  | array items => WrittenItems items
  | object members => WrittenMembers members
  | broken => False

def WrittenItems : List Json → Prop
  | [] => True
  | v :: rest => v.Written ∧ WrittenItems rest

def WrittenMembers : List (List Char × Json) → Prop
  | [] => True
  | (name, v) :: rest => (∃ s, name = escape s) ∧ v.Written ∧ WrittenMembers rest

end

section Steps

theorem skipBlanks_cons {c : Char} (visible : isBlank c = false) (s : List Char) :
    skipBlanks (c :: s) = c :: s := by
  simp [skipBlanks, visible]

theorem not_isBlank_of_isDigit {c : Char} (digit : c.isDigit) : isBlank c = false := by
  simp only [isBlank, Bool.or_eq_false_iff, beq_eq_false_iff_ne]
  refine ⟨⟨⟨?_, ?_⟩, ?_⟩, ?_⟩ <;> (rintro rfl; cases digit)

theorem render_eq_cons {j : Json} (written : j.Written) :
    ∃ c s, j.render = c :: s ∧ isBlank c = false ∧ c ≠ ']' := by
  cases j with
  | broken => exact written.elim
  | null => exact ⟨'n', _, rfl, by decide, by decide⟩
  | bool value => cases value <;> exact ⟨_, _, rfl, by decide, by decide⟩
  | number lexeme =>
      obtain ⟨n, rfl⟩ := written
      obtain ⟨c, rest, digits, digit⟩ := toDigits_eq_cons n
      refine ⟨c, rest, digits, not_isBlank_of_isDigit digit, ?_⟩
      rintro rfl
      cases digit
  | string lexeme => exact ⟨'"', _, rfl, by decide, by decide⟩
  | array items => cases items <;> exact ⟨'[', _, rfl, by decide, by decide⟩
  | object members =>
      rcases members with _ | ⟨⟨name, v⟩, rest⟩ <;> exact ⟨'\x7b', _, rfl, by decide, by decide⟩

variable {n : Nat} {s t rest : List Char}

theorem readScalar_digits (m : Nat) (closes : Closes rest) :
    readScalar (Nat.toDigits 10 m ++ rest) = (number (Nat.toDigits 10 m), some rest) := by
  have reading := number?_toDigits m closes
  obtain ⟨c, more, digits, digit⟩ := toDigits_eq_cons m
  rw [digits, List.cons_append] at reading ⊢
  unfold readScalar
  split
  iterate 4
    rename_i start
    rw [(List.cons.inj start).1] at digit
    cases digit
  rw [reading]

theorem readValue_digits (m : Nat) (closes : Closes rest) :
    readValue (n + 1) (Nat.toDigits 10 m ++ rest) = (number (Nat.toDigits 10 m), some rest) := by
  have reading := readScalar_digits m closes
  obtain ⟨c, more, digits, digit⟩ := toDigits_eq_cons m
  rw [digits, List.cons_append] at reading ⊢
  rw [readValue, skipBlanks_cons (not_isBlank_of_isDigit digit)]
  split
  iterate 2
    rename_i start
    rw [(List.cons.inj start).1] at digit
    cases digit
  exact reading

theorem readValue_string (l : List Char) :
    readValue (n + 1) ('"' :: escape l ++ '"' :: rest) = (string (escape l), some rest) := by
  rw [List.cons_append, readValue, skipBlanks_cons (by decide)]
  change readScalar ('"' :: (escape l ++ '"' :: rest)) = _
  rw [readScalar, string?_escape]

theorem readValue_array {items : List Json} {c : Char} (visible : isBlank c = false)
    (other : c ≠ ']') (inside : readItems n (c :: s) = (items, some rest)) :
    readValue (n + 1) ('[' :: c :: s) = (array items, some rest) := by
  rw [readValue, skipBlanks_cons (by decide)]
  simp only [skipBlanks_cons visible]
  split
  · rename_i start
    exact absurd (List.cons.inj start).1 other
  · rw [inside]

theorem readValue_object {members : List (List Char × Json)}
    (inside : readMembers n ('"' :: s) = (members, some rest)) :
    readValue (n + 1) ('\x7b' :: '"' :: s) = (object members, some rest) := by
  rw [readValue, skipBlanks_cons (by decide)]
  simp only [skipBlanks_cons (c := '"') (by decide)]
  change (object (readMembers n ('"' :: s)).1, (readMembers n ('"' :: s)).2) = _
  rw [inside]

theorem readItems_last {v : Json} (here : readValue n s = (v, some (']' :: rest))) :
    readItems (n + 1) s = ([v], some rest) := by
  simp only [readItems, here, skipBlanks_cons (c := ']') (by decide)]

theorem readItems_more {v : Json} {items : List Json}
    (here : readValue n s = (v, some (',' :: t))) (inside : readItems n t = (items, some rest)) :
    readItems (n + 1) s = (v :: items, some rest) := by
  simp only [readItems, here, skipBlanks_cons (c := ',') (by decide), inside]

theorem readMembers_last {v : Json} (l : List Char)
    (here : readValue n s = (v, some ('\x7d' :: rest))) :
    readMembers (n + 1) ('"' :: escape l ++ '"' :: ':' :: s) = ([(escape l, v)], some rest) := by
  rw [List.cons_append]
  simp only [readMembers, skipBlanks_cons (c := '"') (by decide), string?_escape,
    skipBlanks_cons (c := ':') (by decide), here, skipBlanks_cons (c := '\x7d') (by decide)]

theorem readMembers_more {v : Json} {members : List (List Char × Json)} (l : List Char)
    (here : readValue n s = (v, some (',' :: t)))
    (inside : readMembers n t = (members, some rest)) :
    readMembers (n + 1) ('"' :: escape l ++ '"' :: ':' :: s) =
      ((escape l, v) :: members, some rest) := by
  rw [List.cons_append]
  simp only [readMembers, skipBlanks_cons (c := '"') (by decide), string?_escape,
    skipBlanks_cons (c := ':') (by decide), here, skipBlanks_cons (c := ',') (by decide), inside]

end Steps

theorem length_render_pos {j : Json} (written : j.Written) : 0 < j.render.length := by
  obtain ⟨c, s, starts, _⟩ := render_eq_cons written
  rw [starts]
  exact Nat.succ_pos _

theorem length_renderItems_pos (items : List Json) : 0 < (renderItems items).length := by
  cases items <;> simp [renderItems]

theorem length_renderMembers_pos (members : List (List Char × Json)) :
    0 < (renderMembers members).length := by
  rcases members with _ | ⟨⟨name, v⟩, rest⟩ <;> simp [renderMembers]

/-- By induction on the bound: behind each step there is less of the text than of the bound. -/
theorem read_render (n : Nat) :
    (∀ (j : Json) (rest : List Char), j.Written → Closes rest → 2 * j.render.length ≤ n →
        readValue n (j.render ++ rest) = (j, some rest)) ∧
      (∀ (v : Json) (items : List Json) (rest : List Char), v.Written → WrittenItems items →
        2 * (v.render ++ renderItems items).length ≤ n →
        readItems n (v.render ++ (renderItems items ++ rest)) = (v :: items, some rest)) ∧
      ∀ (l : List Char) (v : Json) (members : List (List Char × Json)) (rest : List Char),
        v.Written → WrittenMembers members → 2 * (v.render ++ renderMembers members).length ≤ n →
        readMembers n ('"' :: escape l ++ '"' :: ':' ::
            (v.render ++ (renderMembers members ++ rest))) =
          ((escape l, v) :: members, some rest) := by
  induction n with
  | zero =>
      refine ⟨fun j rest written _ enough => ?_, fun v items rest written _ enough => ?_,
        fun l v members rest written _ enough => ?_⟩
      · exact absurd (length_render_pos written) (by omega)
      · rw [List.length_append] at enough
        exact absurd (length_render_pos written) (by omega)
      · rw [List.length_append] at enough
        exact absurd (length_render_pos written) (by omega)
  | succ n ih =>
      obtain ⟨value, items, members⟩ := ih
      refine ⟨fun j rest written closes enough => ?_, fun v vs rest first others enough => ?_,
        fun l v ms rest first others enough => ?_⟩
      · cases j with
        | broken => exact written.elim
        | null => rfl
        | bool value => cases value <;> rfl
        | number lexeme =>
            obtain ⟨m, rfl⟩ := written
            exact readValue_digits m closes
        | string lexeme =>
            obtain ⟨l, rfl⟩ := written
            simpa [render] using readValue_string l
        | array vs =>
            cases vs with
            | nil => rfl
            | cons v vs =>
                obtain ⟨first, others⟩ := written
                simp only [render, List.cons_append, List.append_assoc, List.length_cons]
                  at enough ⊢
                have inside := items v vs rest first others (by omega)
                obtain ⟨c, s, starts, visible, other⟩ := render_eq_cons first
                rw [starts] at inside ⊢
                exact readValue_array visible other inside
        | object ms =>
            rcases ms with _ | ⟨⟨name, v⟩, ms⟩
            · rfl
            · obtain ⟨⟨l, rfl⟩, first, others⟩ := written
              simp only [render, List.cons_append, List.append_assoc, List.length_cons,
                List.length_append] at enough ⊢
              exact readValue_object (members l v ms rest first others (by simp; omega))
      · have tail := length_renderItems_pos vs
        rw [List.length_append] at enough
        cases vs with
        | nil =>
            have here := value v (']' :: rest) first (.inr (.inl rfl)) (by omega)
            exact readItems_last here
        | cons w vs =>
            obtain ⟨second, others⟩ := others
            simp only [renderItems, List.cons_append, List.append_assoc, List.length_cons]
              at enough ⊢
            have here := value v (',' :: (w.render ++ (renderItems vs ++ rest))) first (.inl rfl)
              (by omega)
            exact readItems_more here (items w vs rest second others (by omega))
      · have tail := length_renderMembers_pos ms
        rw [List.length_append] at enough
        rcases ms with _ | ⟨⟨name, w⟩, ms⟩
        · have here := value v ('\x7d' :: rest) first (.inr (.inr rfl)) (by omega)
          exact readMembers_last l here
        · obtain ⟨⟨l', rfl⟩, second, others⟩ := others
          simp only [renderMembers, List.cons_append, List.append_assoc, List.length_cons,
            List.length_append] at enough ⊢
          have here := value v (',' :: '"' :: (escape l' ++ '"' :: ':' ::
            (w.render ++ (renderMembers ms ++ rest)))) first (.inl rfl) (by omega)
          exact readMembers_more l here (members l' w ms rest second others (by simp; omega))

theorem read_toText {j : Json} (written : j.Written) : Document.read j.toText = ⟨j, true⟩ := by
  have reading := (read_render (2 * j.render.length + 2)).1 j [] written trivial (by omega)
  rw [List.append_nil] at reading
  simp only [Document.read, toText, String.toList_ofList, reading]
  rfl

/-- The first document has been put together by the writer, and the second one is its value. -/
structure Legible (j j' : Json) : Prop where
  written : j.Written
  value : j.canonical? = some j'

structure LegibleItems (items items' : List Json) : Prop where
  written : WrittenItems items
  value : canonicalItems? items = some items'

/-- Members whose names need no escapes; their values are sorted by name. -/
structure LegibleMembers (members members' : List (List Char × Json)) : Prop where
  written : WrittenMembers members
  value : canonicalMembers? members = some members'
  plain : ∀ m ∈ members', escape m.1 = m.1

theorem Legible.ofText? {j j' : Json} (legible : Legible j j') :
    ofText? j.toText = if j.depth ≤ textLevels then some j' else none := by
  simp only [Json.ofText?, read_toText legible.written, Bool.true_and, decide_eq_true_eq,
    legible.value]

theorem legible_ofNat {n : Nat} (small : n < Supply.capacity) : Legible (ofNat n) (ofNat n) := by
  unfold ofNat
  rw [toList_toString]
  exact ⟨⟨n, rfl⟩, if_pos (fitsDouble_toDigits small)⟩

theorem legible_ofString (s : String) : Legible (ofString s) (ofString s) := by
  refine ⟨⟨s.toList, rfl⟩, ?_⟩
  simp [ofString, canonical?]

theorem legibleItems_nil : LegibleItems [] [] := ⟨trivial, rfl⟩

theorem legibleItems_cons {v v' : Json} {items items' : List Json} (first : Legible v v')
    (others : LegibleItems items items') : LegibleItems (v :: items) (v' :: items') := by
  refine ⟨⟨first.written, others.written⟩, ?_⟩
  simp [canonicalItems?, first.value, others.value]

theorem legible_array {items items' : List Json} (inside : LegibleItems items items') :
    Legible (array items) (array items') := by
  refine ⟨inside.written, ?_⟩
  simp [canonical?, inside.value]

theorem legibleMembers_nil : LegibleMembers [] [] := ⟨trivial, rfl, by simp⟩

theorem mem_insertMember {name : List Char} {v : Json} {members : List (List Char × Json)}
    {m : List Char × Json} (member : m ∈ insertMember name v members) :
    m = (name, v) ∨ m ∈ members := by
  fun_induction insertMember name v members with
  | case1 => simpa using member
  | case2 name' v' rest before => simpa using member
  | case3 v' rest before => exact .inr member
  | case4 name' v' rest before other ih =>
      rcases List.mem_cons.mp member with rfl | later
      · exact .inr List.mem_cons_self
      · exact (ih later).imp id (List.mem_cons_of_mem _)

theorem legibleMembers_cons {name : List Char} {v v' : Json}
    {members members' : List (List Char × Json)} (plain : escape name = name)
    (first : Legible v v') (others : LegibleMembers members members') :
    LegibleMembers ((name, v) :: members) (insertMember name v' members') := by
  have unescaped : unescape name = some name := by
    have escaped := unescape_escape name
    rwa [plain] at escaped
  refine ⟨⟨⟨name, plain.symm⟩, first.written, others.written⟩, ?_, fun m member => ?_⟩
  · simp [canonicalMembers?, unescaped, first.value, others.value]
  · rcases mem_insertMember member with rfl | old
    · exact plain
    · exact others.plain m old

theorem legible_object {members members' : List (List Char × Json)}
    (inside : LegibleMembers members members') : Legible (object members) (object members') := by
  have same : members'.map (fun m => (escape m.1, m.2)) = members' :=
    (List.map_congr_left fun m member => by rw [inside.plain m member]; rfl).trans
      (List.map_id members')
  refine ⟨inside.written, ?_⟩
  simp [canonical?, inside.value, same]

theorem legible_tagged {name : String} {j j' : Json} (plain : escape name.toList = name.toList)
    (argument : Legible j j') : Legible (tagged name j) (tagged name j') :=
  legible_object (legibleMembers_cons plain argument legibleMembers_nil)

end LinearCalculus.Json
