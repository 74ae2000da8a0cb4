import LinearCalculus.Json.Canonical
import LinearCalculus.Var

namespace LinearCalculus.Json

section Strings

theorem short_or_control_or_plain (c : Char) :
    (∃ letter, shortEscape? c = some letter) ∨ (shortEscape? c = none ∧ c.toNat < 0x20) ∨
      (shortEscape? c = none ∧ c ≠ '"' ∧ c ≠ '\\' ∧ 0x20 ≤ c.toNat) := by
  cases short : shortEscape? c with
  | some letter => exact .inl ⟨letter, rfl⟩
  | none =>
      have quote : c ≠ '"' := by rintro rfl; cases short
      have slash : c ≠ '\\' := by rintro rfl; cases short
      rcases Nat.lt_or_ge c.toNat 0x20 with small | large
      · exact .inr (.inl ⟨rfl, small⟩)
      · exact .inr (.inr ⟨rfl, quote, slash, large⟩)

theorem escape_short {c letter : Char} (short : shortEscape? c = some letter) (s : List Char) :
    escape (c :: s) = '\\' :: letter :: escape s := by
  rw [escape, short]

theorem escape_control {c : Char} (long : shortEscape? c = none) (small : c.toNat < 0x20)
    (s : List Char) :
    escape (c :: s) = '\\' :: 'u' :: '0' :: '0' :: hexDigit (c.toNat / 16) ::
      hexDigit (c.toNat % 16) :: escape s := by
  simp only [escape, long, if_pos small]

theorem escape_plain {c : Char} (long : shortEscape? c = none) (large : 0x20 ≤ c.toNat)
    (s : List Char) : escape (c :: s) = c :: escape s := by
  simp only [escape, long, if_neg (Nat.not_lt.mpr large)]

theorem hexDigit_spec : ∀ n < 16, hexValue (hexDigit n) = n ∧ isHex (hexDigit n) := by
  decide

theorem unescape_plain {c : Char} (slash : c ≠ '\\') (s : List Char) :
    unescape (c :: s) = (unescape s).map (c :: ·) := by
  rw [unescape] <;> · intros; simp_all

theorem unescape_short {c letter : Char} (short : shortEscape? c = some letter) (s : List Char) :
    unescape ('\\' :: letter :: s) = (unescape s).map (c :: ·) := by
  unfold shortEscape? at short
  split at short <;> cases short <;> simp [unescape, escaped?]

@[simp] theorem unescape_escape (s : List Char) : unescape (escape s) = some s := by
  induction s with
  | nil => rfl
  | cons c s ih =>
      rcases short_or_control_or_plain c with ⟨letter, short⟩ | ⟨long, small⟩ |
        ⟨long, quote, slash, large⟩
      · rw [escape_short short, unescape_short short, ih]
        rfl
      · have code : codeUnit '0' '0' (hexDigit (c.toNat / 16)) (hexDigit (c.toNat % 16)) =
            c.toNat := by
          rw [codeUnit, (hexDigit_spec (c.toNat / 16) (by omega)).1,
            (hexDigit_spec (c.toNat % 16) (by omega)).1]
          have zero : hexValue '0' = 0 := by decide
          omega
        have below : c.toNat < 0xD800 := by omega
        rw [escape_control long small, unescape.eq_def]
        simp [code, below, ih]
      · rw [escape_plain long large, unescape_plain slash, ih]
        rfl

theorem textOf?_escape (s : String) : textOf? (escape s.toList) = some s := by
  simp [textOf?]

theorem textOf?_plain {name : String} (plain : escape name.toList = name.toList) :
    textOf? name.toList = some name := by
  rw [← plain]
  exact textOf?_escape name

theorem string?_plain {c : Char} (quote : c ≠ '"') (slash : c ≠ '\\') (large : 0x20 ≤ c.toNat)
    (s : List Char) :
    string? (c :: s) = (string? s).map fun (lexeme, rest) => (c :: lexeme, rest) := by
  rw [string?]
  · simp [slash, Nat.not_lt.mpr large]
  all_goals intros; simp_all

theorem string?_short {c letter : Char} (short : shortEscape? c = some letter) (s : List Char) :
    string? ('\\' :: letter :: s) =
      (string? s).map fun (lexeme, rest) => ('\\' :: letter :: lexeme, rest) := by
  unfold shortEscape? at short
  split at short <;> cases short <;> simp [string?, escaped?]

theorem string?_escape (s rest : List Char) :
    string? (escape s ++ '"' :: rest) = some (escape s, rest) := by
  induction s with
  | nil => rfl
  | cons c s ih =>
      rcases short_or_control_or_plain c with ⟨letter, short⟩ | ⟨long, small⟩ |
        ⟨long, quote, slash, large⟩
      · rw [escape_short short, List.cons_append, List.cons_append, string?_short short, ih]
        rfl
      · have high := (hexDigit_spec (c.toNat / 16) (by omega)).2
        have low := (hexDigit_spec (c.toNat % 16) (by omega)).2
        have zero : isHex '0' := by decide
        rw [escape_control long small]
        simp [string?, high, low, zero, ih]
      · rw [escape_plain long large, List.cons_append, string?_plain quote slash large, ih]
        rfl

end Strings

section Numbers

theorem toList_toString (n : Nat) : (toString n).toList = Nat.toDigits 10 n := by
  rw [Nat.toString_eq_repr, Nat.toList_repr]

theorem isDigit_of_mem {n : Nat} {c : Char} (member : c ∈ Nat.toDigits 10 n) : c.isDigit :=
  Nat.isDigit_of_mem_toDigits (by decide) (by decide) member

theorem toDigits_eq_cons (n : Nat) : ∃ c rest, Nat.toDigits 10 n = c :: rest ∧ c.isDigit := by
  rcases front : Nat.toDigits 10 n with _ | ⟨c, rest⟩
  · exact absurd front Nat.toDigits_ne_nil
  · exact ⟨c, rest, rfl, isDigit_of_mem (n := n) (by simp [front])⟩

@[simp] theorem natural?_toDigits (n : Nat) : natural? (Nat.toDigits 10 n) = some n := by
  have all : (Nat.toDigits 10 n).all Char.isDigit := List.all_eq_true.mpr fun _ => isDigit_of_mem
  have value : (Nat.toDigits 10 n).foldl (fun m c => 10 * m + (c.toNat - '0'.toNat)) 0 = n :=
    Nat.ofDigitChars_toDigits (by decide) (by decide)
  rw [natural?, if_pos (by simp [all, Nat.toDigits_ne_nil]), value]

theorem eq_zero_of_toDigits {n : Nat} {rest : List Char}
    (starts : Nat.toDigits 10 n = '0' :: rest) : n = 0 := by
  induction n using Nat.strongRecOn generalizing rest with
  | ind n ih =>
      by_cases single : n < 10
      · rw [Nat.toDigits_of_lt_base single] at starts
        have digit : ∀ m < 10, m.digitChar = '0' → m = 0 := by decide
        exact digit n single (List.cons.inj starts).1
      · rw [Nat.toDigits_of_base_le (by decide) (Nat.le_of_not_lt single)] at starts
        obtain ⟨c, front', front, _⟩ := toDigits_eq_cons (n / 10)
        rw [front, List.cons_append] at starts
        rw [(List.cons.inj starts).1] at front
        have smaller := ih (n / 10) (by omega) front
        omega

def Delimited : List Char → Prop
  | [] => True
  | c :: _ => c.isDigit = false

theorem digits_toDigits (n : Nat) {rest : List Char} (delimited : Delimited rest) :
    digits (Nat.toDigits 10 n ++ rest) = (Nat.toDigits 10 n, rest) := by
  have all : ∀ c ∈ Nat.toDigits 10 n, c.isDigit := fun _ => isDigit_of_mem
  have ends : rest.takeWhile Char.isDigit = [] ∧ rest.dropWhile Char.isDigit = rest := by
    cases rest with
    | nil => exact ⟨rfl, rfl⟩
    | cons c rest => simp [show c.isDigit = false from delimited]
  rw [digits, List.takeWhile_append_of_pos all, List.dropWhile_append_of_pos all, ends.1, ends.2,
    List.append_nil]

theorem toDigits_append_inj {m n : Nat} {rest rest' : List Char} (ends : Delimited rest)
    (ends' : Delimited rest') (same : Nat.toDigits 10 m ++ rest = Nat.toDigits 10 n ++ rest') :
    m = n ∧ rest = rest' := by
  have read := digits_toDigits m ends
  rw [same, digits_toDigits n ends'] at read
  obtain ⟨numerals, behind⟩ := Prod.mk.inj read
  have values := congrArg natural? numerals
  rw [natural?_toDigits, natural?_toDigits] at values
  exact ⟨(Option.some.inj values).symm, behind.symm⟩

def Closes : List Char → Prop
  | [] => True
  | c :: _ => c = ',' ∨ c = ']' ∨ c = '\x7d'

theorem Closes.delimited {rest : List Char} (closes : Closes rest) : Delimited rest := by
  cases rest with
  | nil => trivial
  | cons c rest => rcases closes with rfl | rfl | rfl <;> rfl

theorem number?_toDigits (n : Nat) {rest : List Char} (closes : Closes rest) :
    number? (Nat.toDigits 10 n ++ rest) = some (Nat.toDigits 10 n, rest) := by
  have whole : integer? (Nat.toDigits 10 n ++ rest) = some (Nat.toDigits 10 n, rest) := by
    rw [integer?, digits_toDigits n closes.delimited]
    split
    · rename_i none
      exact absurd (Prod.mk.inj none).1 Nat.toDigits_ne_nil
    · rename_i c more other superfluous
      have digits := (Prod.mk.inj superfluous).1
      rw [eq_zero_of_toDigits digits] at digits
      cases digits
    · rfl
  have fraction : fraction? rest = some ([], rest) := by
    cases rest with
    | nil => rfl
    | cons c rest => rcases closes with rfl | rfl | rfl <;> rfl
  have exponent : exponent? rest = some ([], rest) := by
    cases rest with
    | nil => rfl
    | cons c rest => rcases closes with rfl | rfl | rfl <;> rfl
  have unsigned : unsigned? (Nat.toDigits 10 n ++ rest) = some (Nat.toDigits 10 n, rest) := by
    simp [unsigned?, whole, fraction, exponent]
  rw [number?, unsigned]
  intro s minus
  obtain ⟨c, front', front, digit⟩ := toDigits_eq_cons n
  rw [front, List.cons_append] at minus
  rw [(List.cons.inj minus).1] at digit
  cases digit

/-- An identity has at most twenty digits, far less than a number of double precision can have. -/
theorem fitsDouble_toDigits {n : Nat} (small : n < Supply.capacity) :
    (magnitude (Nat.toDigits 10 n)).fitsDouble := by
  have unsigned : (Nat.toDigits 10 n).dropWhile (· == '-') = Nat.toDigits 10 n := by
    obtain ⟨c, front', front, digit⟩ := toDigits_eq_cons n
    have other : c ≠ '-' := by rintro rfl; cases digit
    simp [front, other]
  have whole : digits (Nat.toDigits 10 n) = (Nat.toDigits 10 n, []) := by
    have ended : digits (Nat.toDigits 10 n ++ []) = (Nat.toDigits 10 n, []) :=
      digits_toDigits n trivial
    rwa [List.append_nil] at ended
  have value : magnitude (Nat.toDigits 10 n) = ⟨n, 0⟩ := by
    simp [magnitude, unsigned, whole, digitsValue, exponentValue]
  have short : (Nat.toDigits 10 n).length ≤ 20 :=
    (Nat.length_toDigits_le_iff (by decide) (by decide)).mpr (Nat.lt_trans small (by decide))
  rw [value, Decimal.fitsDouble]
  split
  · rfl
  · rw [if_pos]
    change ((Nat.toDigits 10 n).length : Int) + 0 < 309
    omega

end Numbers

end LinearCalculus.Json
