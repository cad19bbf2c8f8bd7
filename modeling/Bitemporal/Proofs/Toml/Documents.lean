import Bitemporal.Proofs.Digits
import Bitemporal.Proofs.Toml.Strings

/-!
# TOML documents of plain settings are read back

A setting is a line with a key without quotes and the text of one value (`Setting`).  A document
of such lines holds the values of the settings in their order, if no two have one key
(`parse?_settings`).
-/

namespace Bitemporal.Toml

variable {c : Char} {cs rest : List Char} {n : Nat}

/-! ## Whole numbers -/

theorem hexDigit?_of_isDigit (digit : c.isDigit = true) :
    hexDigit? c = some (c.toNat - '0'.toNat) := by
  have decimal : '0' ≤ c ∧ c ≤ '9' := by
    simpa [Char.isDigit, Char.le_def] using digit
  rw [hexDigit?, if_pos decimal]
  rfl

theorem digitsValue_of_isDigit (digits : ∀ c ∈ cs, c.isDigit = true) :
    digitsValue 10 cs = Nat.ofDigitChars 10 cs 0 := by
  refine List.foldl_ext _ _ _ fun n c member => ?_
  rw [hexDigit?_of_isDigit (digits c member), Option.getD_some, Nat.mul_comm]

theorem digitsValue_toDigits (n : Nat) : digitsValue 10 (Nat.toDigits 10 n) = n := by
  rw [digitsValue_of_isDigit fun _ => isDigit_of_mem_toDigits, Nat.ofDigitChars_ten_toDigits]

/-- The digits of a number end where a line ends. -/
theorem moreDigits?_append (digits : ∀ c ∈ cs, c.isDigit = true) (rest : List Char) :
    moreDigits? Char.isDigit (cs ++ '\n' :: rest) = some (cs, '\n' :: rest) := by
  induction cs with
  | nil => rfl
  | cons c cs ih =>
    obtain ⟨digit, others⟩ := List.forall_mem_cons.mp digits
    rw [List.cons_append, moreDigits?.eq_def]
    split
    · simp_all
    · rename_i shape
      rw [(List.cons.inj shape).1] at digit
      cases digit
    · simp_all

theorem decimalDigits?_toDigits (n : Nat) (rest : List Char) :
    decimalDigits? (Nat.toDigits 10 n ++ '\n' :: rest) =
      some (Nat.toDigits 10 n, '\n' :: rest) := by
  by_cases zero : n = 0
  · subst zero
    rfl
  · obtain ⟨c, cs, shape, digit⟩ := exists_toDigits n
    have leading := head?_toDigits_ne_zero zero
    have digits : ∀ c ∈ cs, c.isDigit = true := fun d member =>
      isDigit_of_mem_toDigits (n := n) (by simp [shape, member])
    rw [shape] at leading ⊢
    rw [List.cons_append, decimalDigits?.eq_def]
    split
    · simp_all
    · simp [digits?, digit, moreDigits?_append digits]

theorem sign_of_isDigit (digit : c.isDigit = true) : sign (c :: cs) = (false, c :: cs) := by
  unfold sign
  split <;> simp_all

theorem dropWhile_isDigit_append (digits : ∀ c ∈ cs, c.isDigit = true) (rest : List Char) :
    (cs ++ '\n' :: rest).dropWhile Char.isDigit = '\n' :: rest := by
  rw [List.dropWhile_append_of_pos digits]
  rfl

/-- The digits of a date are followed by a hyphen. -/
theorem startsDate_eq_false (after : cs.dropWhile Char.isDigit = '\n' :: rest) :
    startsDate cs = false := by
  unfold startsDate
  split
  · rw [Bool.eq_false_iff]
    intro digits
    simp_all [List.dropWhile]
  · rfl

/-- The digits of a time of day are followed by a colon. -/
theorem startsTime_eq_false (after : cs.dropWhile Char.isDigit = '\n' :: rest) :
    startsTime cs = false := by
  unfold startsTime
  split
  · rename_i a b more
    by_cases digits : a.isDigit = true ∧ b.isDigit = true
    · simp_all [List.dropWhile]
    · rw [twoDigits?, if_neg]
      · rfl
      · simp_all
  · rfl

/-- A number of at most 63 bits is read back from its digits. -/
theorem decimal?_toDigits (fits : n ≤ 9223372036854775807) (rest : List Char) :
    decimal? (Nat.toDigits 10 n ++ '\n' :: rest) = some (.integer n, '\n' :: rest) := by
  have whole := decimalDigits?_toDigits n rest
  have unsigned : sign (Nat.toDigits 10 n ++ '\n' :: rest) =
      (false, Nat.toDigits 10 n ++ '\n' :: rest) := by
    obtain ⟨c, cs, shape, digit⟩ := exists_toDigits n
    rw [shape, List.cons_append, sign_of_isDigit digit]
  have small : integer? (n : Int) = some (.integer n) := if_pos ⟨by omega, by omega⟩
  simp [decimal?, unsigned, whole, fraction?, exponent?, digitsValue_toDigits, small]

/-- A number is read as a number, and not as a date, a time or a number in another base. -/
theorem scalar?_toDigits (fits : n ≤ 9223372036854775807) (rest : List Char) :
    scalar? (Nat.toDigits 10 n ++ '\n' :: rest) = some (.integer n, '\n' :: rest) := by
  have digits : ∀ c ∈ Nat.toDigits 10 n, c.isDigit = true := fun _ => isDigit_of_mem_toDigits
  have after := dropWhile_isDigit_append digits rest
  have number := decimal?_toDigits fits rest
  rw [scalar?.eq_def, startsDate_eq_false after, startsTime_eq_false after,
    if_neg Bool.false_ne_true, if_neg Bool.false_ne_true]
  by_cases zero : n = 0
  · subst zero
    exact number
  · obtain ⟨c, cs, shape, digit⟩ := exists_toDigits n
    have leading := head?_toDigits_ne_zero zero
    rw [shape] at leading number ⊢
    rw [List.cons_append] at number ⊢
    split
    · simp_all
    · simp_all
    · simp_all
    · rw [sign_of_isDigit digit]
      split
      · simp_all
      · simp_all
      · exact number

/-! ## Values at the end of a line -/

/-- A text at the end of a line is read as a value.  It does not start with a blank, which would
be passed over. -/
structure Reads (text : List Char) (value : Toml) : Prop where
  exists_cons : ∃ c cs, text = c :: cs ∧ isBlank c = false
  value?_append : ∀ levels rest, value? levels (text ++ '\n' :: rest) = some (value, '\n' :: rest)

/-- A quoted text starts with a quotation mark of either kind. -/
theorem quote_eq_cons (s : String) : ∃ cs, quote s = '"' :: cs ∨ quote s = '\'' :: cs := by
  cases form : StringForm.of s.toList <;> simp [quote, form]

theorem isBlank_of_isBareKeyChar (bare : isBareKeyChar c = true) : isBlank c = false := by
  rw [Bool.eq_false_iff]
  intro blank
  simp only [isBlank, Bool.or_eq_true, decide_eq_true_eq] at blank
  rcases blank with rfl | rfl <;> cases bare

theorem isBareKeyChar_of_isDigit (digit : c.isDigit = true) : isBareKeyChar c = true := by
  simp [isBareKeyChar, Char.isAlphanum, digit]

namespace Reads

/-- A quoted text is read as the string, in whichever form it is written. -/
theorem string (s : String) : Reads (quote s) (.string s) where
  exists_cons := by
    obtain ⟨cs, shape | shape⟩ := quote_eq_cons s
    · exact ⟨'"', cs, shape, rfl⟩
    · exact ⟨'\'', cs, shape, rfl⟩
  value?_append levels rest := by
    have read : string? (quote s ++ '\n' :: rest) = some (s.toList, '\n' :: rest) := by
      refine string?_quote s fun d first => ?_
      cases first
      decide
    obtain ⟨cs, shape | shape⟩ := quote_eq_cons s
    · rw [shape, List.cons_append] at read ⊢
      simp [value?, read]
    · rw [shape, List.cons_append] at read ⊢
      simp [value?, read]

theorem integer (fits : n ≤ 9223372036854775807) : Reads (Nat.toDigits 10 n) (.integer n) where
  exists_cons := by
    obtain ⟨c, cs, shape, digit⟩ := exists_toDigits n
    exact ⟨c, cs, shape, isBlank_of_isBareKeyChar (isBareKeyChar_of_isDigit digit)⟩
  value?_append levels rest := by
    have read := scalar?_toDigits fits rest
    obtain ⟨c, cs, shape, digit⟩ := exists_toDigits n
    rw [shape, List.cons_append] at read ⊢
    rw [value?.eq_def]
    dsimp only
    split <;> simp_all

end Reads

/-! ## Lines -/

/-- A line with a key without quotes and the text of a value. -/
structure Setting where
  /-- The key. -/
  name : String
  /-- The text of the value. -/
  text : List Char
  /-- The value. -/
  value : Toml
  name_ne : name.toList ≠ []
  bare : ∀ c ∈ name.toList, isBareKeyChar c = true
  reads : Reads text value

namespace Setting

variable {s : Setting} {settings : List Setting}

/-- The characters of the line. -/
def line (s : Setting) : List Char := s.name.toList ++ ' ' :: '=' :: ' ' :: (s.text ++ ['\n'])

/-- What the line states. -/
def statement (s : Setting) : Statement := .value [] s.name s.value

/-- What the line adds to the table of the document. -/
def entry (s : Setting) : String × Toml := (s.name, s.value)

end Setting

theorem skipBlanks_cons (solid : isBlank c = false) : skipBlanks (c :: cs) = c :: cs := by
  rw [skipBlanks, List.dropWhile_cons_of_neg (by simp [solid])]

/-- A key without quotes starts with no mark that means something else at the start of a line. -/
theorem ne_of_isBareKeyChar (bare : isBareKeyChar c = true) :
    c ≠ '"' ∧ c ≠ '\'' ∧ c ≠ '[' ∧ c ≠ '#' ∧ c ≠ '\n' ∧ c ≠ '\r' ∧ c ≠ '\ufeff' := by
  refine ⟨?_, ?_, ?_, ?_, ?_, ?_, ?_⟩ <;> rintro rfl <;> cases bare

namespace Setting

theorem exists_name (s : Setting) : ∃ c cs, s.name.toList = c :: cs ∧ isBareKeyChar c = true := by
  obtain ⟨c, cs, shape⟩ := List.exists_cons_of_ne_nil s.name_ne
  exact ⟨c, cs, shape, s.bare c (by rw [shape]; exact List.mem_cons_self)⟩

theorem simpleKey?_append (s : Setting) (rest : List Char) :
    simpleKey? (s.name.toList ++ ' ' :: rest) = some (s.name, ' ' :: rest) := by
  have taken : (s.name.toList ++ ' ' :: rest).takeWhile isBareKeyChar = s.name.toList := by
    rw [List.takeWhile_append_of_pos s.bare]
    simp [isBareKeyChar]
  have dropped : (s.name.toList ++ ' ' :: rest).dropWhile isBareKeyChar = ' ' :: rest := by
    rw [List.dropWhile_append_of_pos s.bare]
    rfl
  obtain ⟨c, cs, shape, bare⟩ := s.exists_name
  have name : String.ofList (c :: cs) = s.name := by rw [← shape, String.ofList_toList]
  have marks := ne_of_isBareKeyChar bare
  rw [shape, List.cons_append] at taken dropped ⊢
  rw [simpleKey?.eq_def]
  split
  · simp_all
  · simp_all
  · simp [taken, dropped, name]

theorem key?_append (s : Setting) (rest : List Char) :
    key? nestingLimit (s.name.toList ++ ' ' :: '=' :: rest) =
      some (([], s.name), '=' :: rest) := by
  have part := s.simpleKey?_append ('=' :: rest)
  obtain ⟨c, cs, shape, bare⟩ := s.exists_name
  rw [shape, List.cons_append] at part ⊢
  rw [nestingLimit, key?, skipBlanks_cons (isBlank_of_isBareKeyChar bare), part]
  rfl

/-- A line is read as the name and the value of its setting. -/
theorem pair?_line (levels : Nat) (s : Setting) (rest : List Char) :
    pair? (value? levels) (s.line ++ rest) = some ((([], s.name), s.value), '\n' :: rest) := by
  have key := s.key?_append (' ' :: (s.text ++ '\n' :: rest))
  obtain ⟨c, cs, shape, solid⟩ := s.reads.exists_cons
  have read := s.reads.value?_append levels rest
  have text : skipBlanks (' ' :: (s.text ++ '\n' :: rest)) = s.text ++ '\n' :: rest := by
    rw [shape]
    exact skipBlanks_cons solid
  have shape : s.line ++ rest = s.name.toList ++
      ' ' :: '=' :: ' ' :: (s.text ++ '\n' :: rest) := by simp [line]
  rw [shape]
  simp [pair?, key, text, read]

theorem exists_line (s : Setting) : ∃ c cs, s.line = c :: cs ∧ isBareKeyChar c = true := by
  obtain ⟨c, cs, shape, bare⟩ := s.exists_name
  exact ⟨c, _, by rw [line, shape, List.cons_append], bare⟩

/-- A line is read as one statement. -/
theorem statement?_append (s : Setting) (rest : List Char) :
    statement? (s.line ++ rest) = some (s.statement, rest) := by
  have pair := s.pair?_line nestingLimit rest
  obtain ⟨c, cs, shape, bare⟩ := s.exists_line
  have marks := ne_of_isBareKeyChar bare
  rw [shape, List.cons_append] at pair ⊢
  rw [statement?.eq_def]
  split
  · simp_all
  · simp_all
  · rw [pair]
    rfl

/-- The statements of a document are read line by line. -/
theorem statements?_append (s : Setting) (lines : Nat) (rest : List Char) :
    statements? (lines + 1) (s.line ++ rest) = (statements? lines rest).map
      (s.statement :: ·) := by
  have statement := s.statement?_append rest
  obtain ⟨c, cs, shape, bare⟩ := s.exists_line
  have marks := ne_of_isBareKeyChar bare
  rw [shape, List.cons_append] at statement ⊢
  rw [statements?.eq_def]
  simp only [skipBlanks_cons (isBlank_of_isBareKeyChar bare)]
  split
  · simp_all
  · simp_all
  · simp_all
  · simp_all
  · rw [statement, Option.map_eq_bind]
    rfl

/-- A document of settings states them one after the other. -/
theorem statements?_lines (settings : List Setting) {lines : Nat}
    (enough : settings.length < lines) :
    statements? lines (settings.flatMap line) = some (settings.map statement) := by
  induction settings generalizing lines with
  | nil =>
    obtain ⟨lines, rfl⟩ := Nat.exists_eq_succ_of_ne_zero (Nat.ne_zero_of_lt enough)
    rfl
  | cons s settings ih =>
    obtain ⟨lines, rfl⟩ := Nat.exists_eq_succ_of_ne_zero (Nat.ne_zero_of_lt enough)
    rw [List.flatMap_cons, statements?_append, ih (Nat.lt_of_succ_lt_succ enough)]
    rfl

end Setting

/-! ## The table of a document -/

namespace Entries

variable {entries : Entries} {name : String}

theorem get?_eq_none_iff : entries.get? name = none ↔ name ∉ entries.map Prod.fst := by
  rw [get?, List.lookup_eq_none_iff]
  constructor
  · rintro others member
    obtain ⟨entry, found, rfl⟩ := List.mem_map.mp member
    simpa using others entry found
  · intro fresh entry member
    rw [bne_iff_ne]
    rintro rfl
    exact fresh (List.mem_map_of_mem member)

theorem put_of_not_mem (fresh : name ∉ entries.map Prod.fst) (value : Toml) :
    entries.put name value = entries ++ [(name, value)] := by
  induction entries with
  | nil => rfl
  | cons entry entries ih =>
    rw [List.map_cons, List.mem_cons, not_or] at fresh
    rw [put, if_neg (Ne.symm fresh.1), ih fresh.2, List.cons_append]

theorem insert_of_not_mem (fresh : name ∉ entries.map Prod.fst) (value : Toml) :
    entries.insert [] name value = some (entries ++ [(name, value)]) := by
  rw [insert, editAt, get?_eq_none_iff.mpr fresh, put_of_not_mem fresh]
  rfl

end Entries

namespace Setting

/-- Settings with different keys add their entries to the table one after the other. -/
theorem build?_statements {settings : List Setting} {root : Entries}
    (distinct : (root.map Prod.fst ++ settings.map name).Nodup) :
    Entries.build? (settings.map statement) [] root = some (root ++ settings.map entry) := by
  induction settings generalizing root with
  | nil => rw [List.map_nil, List.map_nil, List.append_nil, Entries.build?]
  | cons s settings ih =>
    have fresh : s.name ∉ root.map Prod.fst := by
      rw [List.map_cons, List.nodup_append] at distinct
      exact fun member => distinct.2.2 _ member _ List.mem_cons_self rfl
    have others : ((root ++ [s.entry]).map Prod.fst ++ settings.map name).Nodup := by
      simpa [entry] using distinct
    have more := ih others
    rw [List.append_assoc] at more
    rw [List.map_cons, statement, Entries.build?, Entries.editAt, Entries.insert_of_not_mem fresh]
    exact more

theorem length_le_length_lines (settings : List Setting) :
    settings.length ≤ (settings.flatMap line).length := by
  induction settings with
  | nil => exact le_rfl
  | cons s settings ih =>
    obtain ⟨c, cs, shape, -⟩ := s.exists_line
    rw [List.flatMap_cons, shape, List.length_append, List.length_cons, List.length_cons]
    omega

/-- A document of settings starts with no byte order mark. -/
theorem skipMark_lines (settings : List Setting) :
    skipMark (settings.flatMap line) = settings.flatMap line := by
  cases settings with
  | nil => rfl
  | cons s settings =>
    obtain ⟨c, cs, shape, bare⟩ := s.exists_line
    have marks := ne_of_isBareKeyChar bare
    rw [List.flatMap_cons, shape, List.cons_append, skipMark.eq_def]
    split <;> simp_all

/-- A document of settings with different keys holds their values. -/
theorem parse?_settings {text : String} {settings : List Setting}
    (lines : text.toList = settings.flatMap line) (distinct : (settings.map name).Nodup) :
    parse? text = some (settings.map entry) := by
  have statements :=
    statements?_lines settings (Nat.lt_succ_of_le (length_le_length_lines settings))
  simp only [parse?, lines, skipMark_lines, statements]
  exact build?_statements distinct

end Setting

end Bitemporal.Toml
