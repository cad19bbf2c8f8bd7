import Bitemporal.Json.Parse
import Bitemporal.Proofs.Digits

/-!
# JSON texts are read back

`Json.parse?_text`: the text of a value is read as that value, whatever its strings, numbers and
nesting, unless it holds a `Json.other`, which has no text of its own (`Json.Plain`).

The proof follows the values.  A value is read back in front of whatever may follow it in a text
(`Json.Reads`): digits end before a comma or a bracket, an escaped character stands for itself,
and twice as many steps as there are characters are enough at every depth.
-/

namespace Bitemporal.Json

/-- A value without `Json.other` at any depth. -/
inductive Plain : Json → Prop
  | null : Plain .null
  | bool (b : Bool) : Plain (.bool b)
  | natural (n : Nat) : Plain (.natural n)
  | string (s : String) : Plain (.string s)
  | array {items : List Json} : (∀ item ∈ items, item.Plain) → Plain (.array items)
  | object {members : List (String × Json)} : (∀ member ∈ members, member.2.Plain) →
  Plain (.object members)

/-- What may follow a value in a text: nothing, a comma or a closing bracket. -/
def Stops (rest : List Char) : Prop := ∀ c, rest.head? = some c → c = ',' ∨ c = ']' ∨ c = '}'

theorem Stops.nil : Stops [] := by simp [Stops]

theorem Stops.comma (rest : List Char) : Stops (',' :: rest) := by simp [Stops]

theorem Stops.bracket (rest : List Char) : Stops (']' :: rest) := by simp [Stops]

theorem Stops.brace (rest : List Char) : Stops ('}' :: rest) := by simp [Stops]

theorem skipBlanks_cons {c : Char} {cs : List Char} (solid : isBlank c = false) :
    skipBlanks (c :: cs) = c :: cs := by
  simp [skipBlanks, solid]

/-! ## Numbers -/

section Numbers

variable {digits rest : List Char} {n : Nat}

/-- Digits are read up to what stops a number. -/
theorem digits1?_append (nonempty : digits ≠ []) (all : ∀ c ∈ digits, c.isDigit = true)
    (stops : Stops rest) : digits1? (digits ++ rest) = some (digits, rest) := by
  have head : ∀ c, rest.head? = some c → c.isDigit = false := by
    intro c found
    rcases stops c found with rfl | rfl | rfl <;> decide
  have ends : rest.takeWhile Char.isDigit = [] ∧ rest.dropWhile Char.isDigit = rest := by
    cases rest with
    | nil => simp
    | cons c rest => simp [head c rfl]
  rw [digits1?, List.takeWhile_append_of_pos all, List.dropWhile_append_of_pos all, ends.1,
    ends.2]
  simp [nonempty]

/-- The digits of a number are read back: only zero starts with a zero, and it
has no other digit. -/
theorem integerPart?_toDigits (stops : Stops rest) :
    integerPart? (Nat.toDigits 10 n ++ rest) = some (n, rest) := by
  have canonical : ¬ ((Nat.toDigits 10 n).head? = some '0' ∧ (Nat.toDigits 10 n).length ≠ 1) := by
    rintro ⟨zero, long⟩
    by_cases positive : n = 0
    · simp [positive] at long
    · exact head?_toDigits_ne_zero positive zero
  rw [integerPart?, digits1?_append Nat.toDigits_ne_nil (fun _ => isDigit_of_mem_toDigits) stops]
  simpa [Nat.ofDigitChars_ten_toDigits] using canonical

theorem fraction?_of_stops (stops : Stops rest) : fraction? rest = some (false, rest) := by
  cases rest with
  | nil => rfl
  | cons c rest => rcases stops c rfl with rfl | rfl | rfl <;> rfl

theorem exponent?_of_stops (stops : Stops rest) : exponent? rest = some (false, rest) := by
  cases rest with
  | nil => rfl
  | cons c rest => rcases stops c rfl with rfl | rfl | rfl <;> rfl

/-- A natural number is read back from its digits. -/
theorem number?_toDigits (stops : Stops rest) :
    number? (Nat.toDigits 10 n ++ rest) = some (.natural n, rest) := by
  have unsigned : unsignedNumber? (Nat.toDigits 10 n ++ rest) = some (.natural n, rest) := by
    simp [unsignedNumber?, integerPart?_toDigits stops, fraction?_of_stops stops,
      exponent?_of_stops stops]
  obtain ⟨c, cs, shape, digit⟩ := exists_toDigits n
  rw [shape] at unsigned ⊢
  rw [List.cons_append, number?.eq_def]
  split
  · simp_all
  · exact unsigned

end Numbers

/-! ## Strings -/

section Strings

variable {c : Char} {cs rest rest' : List Char} {items : List StringItem}

/-- Control characters are written with two digits that count. -/
theorem hexEscape_eq : ∀ n < 32,
    hexEscape n = ['\\', 'u', '0', '0', Nat.digitChar (n / 16), Nat.digitChar (n % 16)] ∧
      hexUnit? '0' '0' (Nat.digitChar (n / 16)) (Nat.digitChar (n % 16)) = some n := by
  decide

/-- A character that is written into a string is read back as itself. -/
theorem stringItems?_escapeChar (read : stringItems? rest = some (items, rest')) :
    stringItems? (escapeChar c ++ rest) = some (.char c :: items, rest') := by
  unfold escapeChar
  split
  iterate 7
    · simp [stringItems?, escaped?, read]
  · rename_i quote backslash _ _ _ _ _
    split
    · rename_i control
      obtain ⟨shape, unit⟩ := hexEscape_eq c.toNat control
      have item : StringItem.ofUnit c.toNat = .char c := by
        rw [StringItem.ofUnit, if_neg (by omega), if_neg (by omega), Char.ofNat_toNat]
      rw [shape]
      simp [stringItems?, unit, read, item]
    · rw [List.singleton_append, stringItems?.eq_def]
      split <;> simp_all

theorem joinItems?_chars (cs : List Char) : joinItems? (cs.map .char) = some cs := by
  induction cs with
  | nil => rfl
  | cons c cs ih => simp [joinItems?, ih]

/-- A string is read back from its text, whatever characters it has. -/
theorem string?_quote (s : String) (rest : List Char) :
    string? (s.toList.flatMap escapeChar ++ '"' :: rest) = some (some s, rest) := by
  have items (cs : List Char) :
      stringItems? (cs.flatMap escapeChar ++ '"' :: rest) = some (cs.map .char, rest) := by
    induction cs with
    | nil => rfl
    | cons c cs ih =>
      rw [List.flatMap_cons, List.append_assoc]
      exact stringItems?_escapeChar ih
  simp [string?, items, joinItems?_chars]

end Strings

theorem quote_append (s : String) (rest : List Char) :
    quote s ++ rest = '"' :: (s.toList.flatMap escapeChar ++ '"' :: rest) := by simp [quote]

/-! ## Values -/

/-- The text of a value is read back as the value, in front of whatever may follow it. -/
def Reads (j : Json) : Prop :=
  ∀ steps rest, 2 * j.chars.length ≤ steps → Stops rest →
    value? steps (j.chars ++ rest) = some (j, rest)

theorem isBlank_of_isDigit {c : Char} (digit : c.isDigit = true) : isBlank c = false := by
  rw [Bool.eq_false_iff]
  intro blank
  simp only [isBlank, Bool.or_eq_true, decide_eq_true_eq] at blank
  rcases blank with ((rfl | rfl) | rfl) | rfl <;> revert digit <;> decide

/-- The text of a value starts with no blank, and no bracket closes before it. -/
theorem exists_chars (j : Json) : ∃ c cs, j.chars = c :: cs ∧ isBlank c = false ∧ c ≠ ']' := by
  cases j with
  | natural n =>
    obtain ⟨c, cs, shape, digit⟩ := exists_toDigits n
    refine ⟨c, cs, by rw [chars, shape], isBlank_of_isDigit digit, ?_⟩
    rintro rfl
    revert digit
    decide
  | bool b => cases b <;> exact ⟨_, _, rfl, by decide, by decide⟩
  | null | string | array | object | other => exact ⟨_, _, rfl, by decide, by decide⟩

theorem length_chars_pos (j : Json) : 0 < j.chars.length := by
  obtain ⟨c, cs, shape, -⟩ := j.exists_chars
  simp [shape]

/-- A bound on steps that is long enough for a value leaves one for its head. -/
theorem Reads.exists_steps {j : Json} {steps : Nat} (enough : 2 * j.chars.length ≤ steps) :
    ∃ n, steps = n + 1 :=
  Nat.exists_eq_succ_of_ne_zero (by have := j.length_chars_pos; omega)

theorem reads_null : Reads .null := by
  intro steps rest enough _
  obtain ⟨n, rfl⟩ := Reads.exists_steps enough
  rfl

theorem reads_bool (b : Bool) : Reads (.bool b) := by
  intro steps rest enough _
  obtain ⟨n, rfl⟩ := Reads.exists_steps enough
  cases b <;> rfl

theorem reads_natural (n : Nat) : Reads (.natural n) := by
  intro steps rest enough stops
  obtain ⟨k, rfl⟩ := Reads.exists_steps enough
  obtain ⟨c, cs, shape, digit⟩ := exists_toDigits n
  have number := number?_toDigits (n := n) stops
  rw [shape, List.cons_append] at number
  rw [chars, shape, List.cons_append, value?.eq_def]
  dsimp only
  rw [skipBlanks_cons (isBlank_of_isDigit digit)]
  -- No value but a number starts with a digit.
  split <;> simp_all

/-- A string is read back, whatever characters it holds. -/
theorem reads_string (s : String) : Reads (.string s) := by
  intro steps rest enough _
  obtain ⟨n, rfl⟩ := Reads.exists_steps enough
  rw [chars, quote_append, value?.eq_def]
  dsimp only
  rw [skipBlanks_cons (by decide)]
  simp [string?_quote]

/-- The items of a list are read back up to the closing bracket. -/
theorem items?_itemChars {items : List Json} (nonempty : items ≠ [])
    (reads : ∀ item ∈ items, item.Reads) (steps : Nat) (rest : List Char)
    (enough : 2 * (itemChars items).length + 1 ≤ steps) :
    items? steps (itemChars items ++ ']' :: rest) = some (items, rest) := by
  induction items generalizing steps with
  | nil => exact absurd rfl nonempty
  | cons item others ih =>
    obtain ⟨n, rfl⟩ : ∃ n, steps = n + 1 := Nat.exists_eq_succ_of_ne_zero (by omega)
    cases others with
    | nil =>
      rw [itemChars] at enough ⊢
      have first := reads item (by simp) n (']' :: rest) (by omega) (.bracket rest)
      simp [items?, first, skipBlanks_cons, isBlank]
    | cons next others =>
      rw [itemChars] at enough ⊢
      simp only [List.length_append, List.length_cons] at enough
      have first := reads item (by simp) n (',' :: (itemChars (next :: others) ++ ']' :: rest))
        (by omega) (.comma _)
      have later := ih (by simp) (fun item member => reads item (by simp_all)) n (by omega)
      simp [items?, first, later, skipBlanks_cons, isBlank]

theorem exists_itemChars (item : Json) (others : List Json) :
    ∃ c cs, itemChars (item :: others) = c :: cs ∧ isBlank c = false ∧ c ≠ ']' := by
  obtain ⟨c, cs, shape, solid, inner⟩ := item.exists_chars
  cases others with
  | nil => exact ⟨c, cs, by rw [itemChars, shape], solid, inner⟩
  | cons next others => exact ⟨c, _, by rw [itemChars, shape, List.cons_append], solid, inner⟩

theorem reads_array {items : List Json} (reads : ∀ item ∈ items, item.Reads) :
    Reads (.array items) := by
  intro steps rest enough _
  obtain ⟨n, rfl⟩ := Reads.exists_steps enough
  rw [chars] at enough ⊢
  cases items with
  | nil => rfl
  | cons item others =>
    simp only [List.length_append, List.length_cons] at enough
    have items := items?_itemChars (by simp) reads n rest (by omega)
    obtain ⟨c, cs, shape, solid, inner⟩ := exists_itemChars item others
    rw [shape] at items ⊢
    simp only [List.cons_append, List.append_assoc, List.nil_append] at items ⊢
    rw [value?.eq_def]
    dsimp only
    rw [skipBlanks_cons (by decide)]
    simp [skipBlanks_cons solid, items, inner]

/-- The members of an object are read back up to the closing brace. -/
theorem members?_memberChars {members : List (String × Json)} (nonempty : members ≠ [])
    (reads : ∀ member ∈ members, member.2.Reads) (steps : Nat) (rest : List Char)
    (enough : 2 * (memberChars members).length + 1 ≤ steps) :
    members? steps (memberChars members ++ '}' :: rest) =
      some (members.map fun member => (some member.1, member.2), rest) := by
  induction members generalizing steps with
  | nil => exact absurd rfl nonempty
  | cons member others ih =>
    obtain ⟨name, value⟩ := member
    obtain ⟨n, rfl⟩ : ∃ n, steps = n + 1 := Nat.exists_eq_succ_of_ne_zero (by omega)
    cases others with
    | nil =>
      rw [memberChars] at enough ⊢
      simp only [List.length_append, List.length_cons] at enough
      have first := reads (name, value) (by simp) n ('}' :: rest) (by dsimp only; omega)
        (.brace rest)
      simp [members?, quote_append, string?_quote, first, skipBlanks_cons, isBlank]
    | cons next others =>
      rw [memberChars] at enough ⊢
      simp only [List.length_append, List.length_cons] at enough
      have first := reads (name, value) (by simp) n
        (',' :: (memberChars (next :: others) ++ '}' :: rest)) (by dsimp only; omega) (.comma _)
      have later := ih (by simp) (fun member listed => reads member (by simp_all)) n (by omega)
      simp [members?, quote_append, string?_quote, first, later, skipBlanks_cons, isBlank]

/-- Members whose names could be read make an object. -/
theorem ofMembers_named (members : List (String × Json)) :
    ofMembers (members.map fun member => (some member.1, member.2)) = .object members := by
  have named : (members.map fun member => (some member.1, member.2)).mapM
      (fun member : Option String × Json => member.1.map fun name => (name, member.2)) =
      some members := by
    induction members with
    | nil => rfl
    | cons member others ih => simp [ih]
  rw [ofMembers, named]

theorem reads_object {members : List (String × Json)}
    (reads : ∀ member ∈ members, member.2.Reads) : Reads (.object members) := by
  intro steps rest enough _
  obtain ⟨n, rfl⟩ := Reads.exists_steps enough
  rw [chars] at enough ⊢
  cases members with
  | nil => rfl
  | cons member others =>
    simp only [List.length_append, List.length_cons] at enough
    have inner := members?_memberChars (by simp) reads n rest (by omega)
    obtain ⟨cs, shape⟩ : ∃ cs, memberChars (member :: others) = '"' :: cs := by
      cases others <;> simp [memberChars, quote]
    rw [shape] at inner ⊢
    simp only [List.cons_append, List.append_assoc, List.nil_append] at inner ⊢
    rw [value?.eq_def]
    dsimp only
    rw [skipBlanks_cons (by decide)]
    simpa [skipBlanks_cons, isBlank, inner] using ofMembers_named (member :: others)

/-- A value without fractions is read back from its text. -/
theorem Plain.reads {j : Json} (plain : j.Plain) : j.Reads := by
  induction plain with
  | null => exact reads_null
  | bool b => exact reads_bool b
  | natural n => exact reads_natural n
  | string s => exact reads_string s
  | array _ ih => exact reads_array ih
  | object _ ih => exact reads_object ih

/-- The text of a value is read as that value. -/
theorem parse?_text {j : Json} (plain : j.Plain) : parse? j.text = some j := by
  have read := plain.reads (2 * j.chars.length + 2) [] (by omega) .nil
  rw [List.append_nil] at read
  rw [parse?, text, String.toList_ofList, read]
  rfl

end Bitemporal.Json
