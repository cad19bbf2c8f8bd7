import Bitemporal.Toml.Parse
import Bitemporal.Toml.Text
import Mathlib.Data.List.Infix
import Mathlib.Tactic.SplitIfs

/-!
# TOML strings are read back

A string is read back from its text, whatever characters it holds and whatever form is chosen for
it (`string?_quote`).  What is behind it:

* between double quotes, each character is written in a way that stands for it (`Spells`);
* a string stands as it is between single quotes only if nothing in it ends the string before
  its end;
* of a run of double quotes no more than two stand for themselves, so that three of them only
  come at the end (`not_three_prefix_basicChars`).  Quotes right before that end are read together
  with it (`closing?_append`);
* a string with a line break starts on a line of its own, since one line break after the opening
  quotes is passed over (`skipNewline_lead`).
-/

namespace Bitemporal.Toml

variable {c q : Char} {cs rest rest' : List Char}

/-! ## Characters between double quotes -/

/-- How a character may stand between double quotes: escaped by a letter or by its number, or as
it is.  A double quote stands as it is only if `quotes` allow it, and a line break only in a
string of several lines. -/
inductive Spells (multi : Bool) (quotes : Nat) (c : Char) : List Char → Prop
  | letter {e : Char} : escaped? e = some c → Spells multi quotes c ['\\', e]
  | number {h i j k : Char} : hexChar? [h, i, j, k] = some c →
  Spells multi quotes c ['\\', 'u', h, i, j, k]
  | itself : c ≠ '\\' → (c = '"' → quotes ≠ 0) → (isPlain c = true ∨ multi = true ∧ c = '\n') →
      Spells multi quotes c [c]

/-- The number of a control character is written with two digits that count. -/
theorem hexEscape_eq : ∀ n < 128,
    hexEscape n = ['\\', 'u', '0', '0', (Nat.digitChar (n / 16)).toUpper,
      (Nat.digitChar (n % 16)).toUpper] ∧
      hexChar? ['0', '0', (Nat.digitChar (n / 16)).toUpper, (Nat.digitChar (n % 16)).toUpper] =
        some (Char.ofNat n) := by
  decide

/-- Each character of a basic string is written in one of the three ways. -/
theorem spells_basicChar (multi : Bool) (quotes : Nat) (c : Char) :
    Spells multi quotes c (basicChar multi quotes c) := by
  unfold basicChar
  split
  · exact .letter rfl
  · exact .letter rfl
  · cases multi with
    | false => exact .letter rfl
    | true => exact .itself (by decide) (fun same => absurd same (by decide)) (.inr ⟨rfl, rfl⟩)
  · exact .letter rfl
  · exact .letter rfl
  · split
    · exact .letter rfl
    · rename_i allowed
      exact .itself (by decide) (fun _ => allowed) (.inl rfl)
  · exact .letter rfl
  · rename_i quote backslash
    split
    · rename_i control
      have small : c.toNat < 128 := by
        simp only [Bool.or_eq_true, decide_eq_true_eq] at control
        omega
      obtain ⟨shape, number⟩ := hexEscape_eq c.toNat small
      rw [Char.ofNat_toNat] at number
      rw [shape]
      exact .number number
    · rename_i plain
      refine .itself backslash (fun same => absurd same quote) (.inl ?_)
      simp only [Bool.or_eq_true, decide_eq_true_eq, not_or, not_lt] at plain
      simp [isPlain, plain]

/-! ## Strings on one line -/

/-- A character is read back in whichever way it is written. -/
theorem basicString?_spelled {written : List Char} (spells : Spells false 0 c written)
    (read : basicString? rest = some (cs, rest')) :
    basicString? (written ++ rest) = some (c :: cs, rest') := by
  cases spells with
  | letter known =>
    unfold escaped? at known
    split at known <;> cases known <;> simp [basicString?, escaped?, read]
  | number known => simp [basicString?, known, read]
  | itself backslash quote plain =>
    have solid : c ≠ '"' := fun same => quote same rfl
    rw [List.singleton_append, basicString?.eq_def]
    split <;> simp_all

theorem basicString?_basicChars (cs rest : List Char) :
    basicString? (basicChars false 0 cs ++ '"' :: rest) = some (cs, rest) := by
  induction cs with
  | nil => rfl
  | cons c cs ih =>
    rw [basicChars, List.append_assoc]
    refine basicString?_spelled (spells_basicChar false 0 c) ?_
    simpa [quoteAllowance] using ih

/-- A string without controls and single quotes is read back as it stands. -/
theorem literalString?_append (plain : ∀ c ∈ cs, isPlain c = true ∧ c ≠ '\'') (rest : List Char) :
    literalString? (cs ++ '\'' :: rest) = some (cs, rest) := by
  induction cs with
  | nil => rfl
  | cons c cs ih =>
    obtain ⟨⟨plain, solid⟩, others⟩ := List.forall_mem_cons.mp plain
    rw [List.cons_append, literalString?.eq_def]
    split
    · simp_all
    · simp_all
    · simp_all

/-! ## The end of a string of several lines -/

/-- Up to two quotes before the closing ones belong to the string. -/
theorem closing?_append (few : cs = [] ∨ cs = [q] ∨ cs = [q, q])
    (stops : ∀ d, rest.head? = some d → d ≠ q) :
    closing? q (cs ++ q :: q :: q :: rest) = some (cs, rest) := by
  cases rest with
  | nil => rcases few with rfl | rfl | rfl <;> simp [closing?]
  | cons d more =>
    have other : d ≠ q := stops d rfl
    rcases few with rfl | rfl | rfl <;> cases more <;> simp [closing?, other]

theorem closing?_eq_none_of {d e : Char} (other : ¬ (c = q ∧ d = q ∧ e = q)) :
    closing? q (c :: d :: e :: rest) = none := by
  simp only [closing?, Bool.and_eq_true, decide_eq_true_eq, and_assoc]
  exact if_neg other

/-- Before its last two quotes, a string without three quotes in a row does not end. -/
theorem closing?_eq_none (many : ¬ (cs = [] ∨ cs = [q] ∨ cs = [q, q]))
    (quiet : ¬ [q, q, q] <+: cs) : closing? q (cs ++ q :: q :: q :: rest) = none := by
  match cs with
  | [] => simp at many
  | [c] => exact closing?_eq_none_of fun same => many (.inr (.inl (by rw [same.1])))
  | [c, d] => exact closing?_eq_none_of fun same => many (.inr (.inr (by rw [same.1, same.2.1])))
  | c :: d :: e :: more =>
    refine closing?_eq_none_of fun same => quiet ?_
    rw [same.1, same.2.1, same.2.2]
    exact List.prefix_append [q, q, q] more

/-! ## Strings of several lines, as they stand -/

/-- A run of quotation marks is at most the longest one. -/
theorem add_le_longestRun (run count : Nat) (after : List Char) :
    run + count ≤ longestRun q run (List.replicate count q ++ after) := by
  induction count generalizing run with
  | zero =>
    rw [List.replicate_zero, List.nil_append, Nat.add_zero]
    induction after generalizing run with
    | nil => exact le_rfl
    | cons c after ih =>
      rw [longestRun]
      split
      · exact (Nat.le_succ run).trans (ih (run + 1))
      · exact le_max_left _ _
  | succ count ih =>
    rw [List.replicate_succ, List.cons_append, longestRun, if_pos rfl, Nat.add_comm count,
      ← Nat.add_assoc]
    exact ih (run + 1)

/-- No run is longer than the longest one. -/
theorem le_longestRun {count : Nat} (run : Nat) (found : List.replicate count q <:+: cs) :
    count ≤ longestRun q run cs := by
  obtain ⟨before, after, rfl⟩ := found
  rw [List.append_assoc]
  induction before generalizing run with
  | nil => exact (Nat.le_add_left count run).trans (add_le_longestRun run count after)
  | cons c before ih =>
    rw [List.cons_append, longestRun]
    split
    · exact ih (run + 1)
    · exact (ih 0).trans (le_max_right _ _)

theorem ne_return_of_plain (plain : isPlain c = true ∨ c = '\n') : c ≠ '\r' := by
  rintro rfl
  rcases plain with plain | same
  · cases plain
  · cases same

/-- At a character, a string between three single quotes ends or goes on. -/
theorem multiLiteralString?_of_closing {done : List Char × List Char}
    (ends : closing? '\'' (c :: rest) = some done) (solid : c ≠ '\r') :
    multiLiteralString? (c :: rest) = some done := by
  rw [multiLiteralString?.eq_def]
  split <;> simp_all

theorem multiLiteralString?_of_plain (goesOn : closing? '\'' (c :: rest) = none)
    (plain : isPlain c = true ∨ c = '\n') (read : multiLiteralString? rest = some (cs, rest')) :
    multiLiteralString? (c :: rest) = some (c :: cs, rest') := by
  have solid := ne_return_of_plain plain
  rw [multiLiteralString?.eq_def]
  split <;> simp_all

/-- A literal string of several lines is read back if it holds no three marks in a row. -/
theorem multiLiteralString?_append (plain : ∀ c ∈ cs, isPlain c = true ∨ c = '\n')
    (quiet : ¬ ['\'', '\'', '\''] <:+: cs) (stops : ∀ d, rest.head? = some d → d ≠ '\'') :
    multiLiteralString? (cs ++ '\'' :: '\'' :: '\'' :: rest) = some (cs, rest) := by
  induction cs with
  | nil => exact multiLiteralString?_of_closing (closing?_append (.inl rfl) stops) (by decide)
  | cons c cs ih =>
    obtain ⟨here, others⟩ := List.forall_mem_cons.mp plain
    by_cases few : c :: cs = [] ∨ c :: cs = ['\''] ∨ c :: cs = ['\'', '\'']
    · have quote : c = '\'' := by rcases few with few | few | few <;> cases few <;> rfl
      refine multiLiteralString?_of_closing (closing?_append few stops) ?_
      rw [quote]
      decide
    · refine multiLiteralString?_of_plain
        (closing?_eq_none few fun early => quiet early.isInfix) here ?_
      exact ih others fun later => quiet (later.trans (List.suffix_cons c cs).isInfix)

/-! ## Strings of several lines, with escapes -/

/-- At a character as it stands, a string between three double quotes ends or goes on. -/
theorem multiBasicString?_of_closing {done : List Char × List Char}
    (ends : closing? '"' (c :: rest) = some done) (solid : c ≠ '\r') (solid' : c ≠ '\\') :
    multiBasicString? false (c :: rest) = some done := by
  rw [multiBasicString?.eq_def]
  split <;> simp_all

theorem multiBasicString?_of_plain (goesOn : closing? '"' (c :: rest) = none)
    (plain : isPlain c = true ∨ c = '\n') (solid : c ≠ '\\')
    (read : multiBasicString? false rest = some (cs, rest')) :
    multiBasicString? false (c :: rest) = some (c :: cs, rest') := by
  have solid' := ne_return_of_plain plain
  rw [multiBasicString?.eq_def]
  split <;> simp_all

theorem multiBasicString?_letter {e : Char} (known : escaped? e = some c)
    (read : multiBasicString? false rest = some (cs, rest')) :
    multiBasicString? false ('\\' :: e :: rest) = some (c :: cs, rest') := by
  unfold escaped? at known
  split at known <;> cases known <;> simp [multiBasicString?, escaped?, read]

theorem multiBasicString?_number {h i j k : Char} (known : hexChar? [h, i, j, k] = some c)
    (read : multiBasicString? false rest = some (cs, rest')) :
    multiBasicString? false ('\\' :: 'u' :: h :: i :: j :: k :: rest) =
      some (c :: cs, rest') := by
  simp [multiBasicString?, known, read]

/-- No more double quotes stand as they are at the start of a text than are allowed there. -/
theorem not_prefix_basicChars (multi : Bool) (quotes : Nat) (cs : List Char) :
    ¬ List.replicate (quotes + 1) '"' <+: basicChars multi quotes cs := by
  induction cs generalizing quotes with
  | nil => simp [basicChars]
  | cons c cs ih =>
    rw [basicChars, List.replicate_succ]
    have spells := spells_basicChar multi quotes c
    generalize basicChar multi quotes c = written at spells
    cases spells with
    | letter known => simp
    | number known => simp
    | itself backslash allowed plain =>
      rw [List.singleton_append, List.cons_prefix_cons]
      rintro ⟨rfl, more⟩
      obtain ⟨left, rfl⟩ := Nat.exists_eq_succ_of_ne_zero (allowed rfl)
      exact ih left (by simpa using more)

/-- What is written between three double quotes never starts with three of them. -/
theorem not_three_prefix_basicChars {quotes : Nat} (few : quotes ≤ 2) (cs : List Char) :
    ¬ ['"', '"', '"'] <+: basicChars true quotes cs := by
  intro early
  have start : List.replicate (quotes + 1) '"' <+: List.replicate 3 '"' := by
    rw [List.prefix_replicate_iff, List.length_replicate]
    exact ⟨Nat.succ_le_succ few, rfl⟩
  exact not_prefix_basicChars true quotes cs (start.trans early)

theorem multiBasicString?_of_few (few : cs = [] ∨ cs = ['"'] ∨ cs = ['"', '"'])
    (stops : ∀ d, rest.head? = some d → d ≠ '"') :
    multiBasicString? false (cs ++ '"' :: '"' :: '"' :: rest) = some (cs, rest) := by
  have ends := closing?_append few stops
  rcases few with rfl | rfl | rfl <;>
    exact multiBasicString?_of_closing ends (by decide) (by decide)

/-- Never more than two marks in a row are left as they are. -/
theorem next_allowance_le {quotes : Nat} (few : quotes ≤ 2) (c : Char) :
    (if c = '"' && quotes ≠ 0 then quotes - 1 else quoteAllowance true) ≤ 2 := by
  split
  · omega
  · exact le_rfl

/-- A string between three double quotes is read back from its characters, whatever they are. -/
theorem multiBasicString?_basicChars {quotes : Nat} (few : quotes ≤ 2) (cs : List Char)
    (stops : ∀ d, rest.head? = some d → d ≠ '"') :
    multiBasicString? false (basicChars true quotes cs ++ '"' :: '"' :: '"' :: rest) =
      some (cs, rest) := by
  induction cs generalizing quotes with
  | nil => exact multiBasicString?_of_few (.inl rfl) stops
  | cons c cs ih =>
    have quiet := not_three_prefix_basicChars few (c :: cs)
    have read := ih (next_allowance_le few c)
    rw [basicChars] at quiet ⊢
    generalize basicChars true _ cs = next at quiet read ⊢
    have spells := spells_basicChar true quotes c
    generalize basicChar true quotes c = written at quiet spells ⊢
    cases spells with
    | letter known => exact multiBasicString?_letter known read
    | number known => exact multiBasicString?_number known read
    | itself backslash _ plain =>
      rw [List.singleton_append] at quiet ⊢
      by_cases last : c :: next = [] ∨ c :: next = ['"'] ∨ c :: next = ['"', '"']
      · -- These quotes and the closing ones are read at once, so `read` only says that `next`
        -- stands for itself.
        have next_last : next = [] ∨ next = ['"'] ∨ next = ['"', '"'] := by
          rcases last with last | last | last <;> cases last
          · exact .inl rfl
          · exact .inr (.inl rfl)
        rw [multiBasicString?_of_few next_last stops] at read
        cases read
        exact multiBasicString?_of_few last stops
      · refine multiBasicString?_of_plain (closing?_eq_none last quiet) ?_ backslash read
        exact plain.imp_right And.right

/-! ## Any string -/

/-- A string with a line break starts on a line of its own, so that no line break of its own is
passed over. -/
theorem skipNewline_lead (solid : '\n' ∉ cs → ∀ c, rest.head? = some c → c ≠ '\n' ∧ c ≠ '\r') :
    skipNewline ((if cs.contains '\n' then ['\n'] else []) ++ rest) = rest := by
  split
  · rfl
  · rename_i absent
    cases rest with
    | nil => rfl
    | cons c rest =>
      obtain ⟨feed, ret⟩ := solid (by simpa using absent) c rfl
      rw [List.nil_append, skipNewline, newline?.eq_def]
      split <;> simp_all

theorem isPlain_or_newline (shown : needsEscape c = false) : isPlain c = true ∨ c = '\n' := by
  by_cases feed : c = '\n'
  · exact .inr feed
  · refine .inl ?_
    simp only [needsEscape, feed, ne_eq, not_false_eq_true, decide_true, Bool.true_and] at shown
    simp only [isPlain]
    by_cases tab : c = '\t'
    · simp [tab]
    · simpa [tab] using shown

theorem head_plain_append (plain : ∀ c ∈ cs, isPlain c = true ∨ c = '\n') (absent : '\n' ∉ cs)
    (first : (cs ++ '\'' :: rest).head? = some c) : c ≠ '\n' ∧ c ≠ '\r' := by
  cases cs with
  | nil =>
    cases first
    decide
  | cons d cs =>
    cases first
    exact ⟨fun same => absent (same ▸ List.mem_cons_self),
      ne_return_of_plain (plain c List.mem_cons_self)⟩

theorem head_basicChars_append {quotes : Nat} (absent : '\n' ∉ cs)
    (first : (basicChars true quotes cs ++ '"' :: rest).head? = some c) :
    c ≠ '\n' ∧ c ≠ '\r' := by
  cases cs with
  | nil =>
    cases first
    decide
  | cons d cs =>
    rw [basicChars] at first
    have spells := spells_basicChar true quotes d
    generalize basicChar true quotes d = written at spells first
    cases spells with
    | letter known =>
      cases first
      decide
    | number known =>
      cases first
      decide
    | itself backslash allowed plain =>
      cases first
      exact ⟨fun same => absent (same ▸ List.mem_cons_self),
        ne_return_of_plain (plain.imp_right And.right)⟩

/-- A string that stands as it is between single quotes has no controls, single
quotes or line breaks. -/
theorem StringForm.of_literal (form : StringForm.of cs = .literal) :
    (∀ c ∈ cs, needsEscape c = false) ∧ longestRun '\'' 0 cs = 0 ∧ '\n' ∉ cs := by
  simp only [StringForm.of] at form
  split_ifs at form with basic literal
  simpa [and_assoc] using literal

/-- A string that stands as it is between three single quotes has no controls and no three single
quotes in a row. -/
theorem StringForm.of_multiLiteral (form : StringForm.of cs = .multiLiteral) :
    (∀ c ∈ cs, needsEscape c = false) ∧ longestRun '\'' 0 cs ≤ 2 := by
  simp only [StringForm.of] at form
  split_ifs at form with basic literal multiBasic multiLiteral
  simpa using multiLiteral

/-- After one double quote that no two more follow, a string on one line starts. -/
theorem string?_of_double (solid : ¬ ['"', '"'] <+: cs) :
    string? ('"' :: cs) = basicString? cs := by
  rw [string?.eq_def]
  split <;> simp_all

/-- A text that starts with one single mark is a literal string. -/
theorem string?_of_single (solid : ¬ ['\'', '\''] <+: cs) :
    string? ('\'' :: cs) = literalString? cs := by
  rw [string?.eq_def]
  split <;> simp_all

/-- Two quotes in a row do not start a text in which a string without quotes at its start ends. -/
theorem not_two_prefix_append (solid : ¬ [q] <+: cs) (stops : ∀ d, rest.head? = some d → d ≠ q) :
    ¬ [q, q] <+: cs ++ q :: rest := by
  cases cs with
  | nil =>
    cases rest with
    | nil => simp
    | cons d rest => simpa [eq_comm] using stops d rfl
  | cons c cs =>
    rw [List.cons_append, List.cons_prefix_cons]
    rintro ⟨rfl, -⟩
    exact solid (List.prefix_append [q] cs)

/-- A string is read back from its text, whatever its characters are. -/
theorem string?_quote (s : String) (stops : ∀ d, rest.head? = some d → d ≠ '"' ∧ d ≠ '\'') :
    string? (quote s ++ rest) = some (s.toList, rest) := by
  have double : ∀ d, rest.head? = some d → d ≠ '"' := fun d first => (stops d first).1
  have single : ∀ d, rest.head? = some d → d ≠ '\'' := fun d first => (stops d first).2
  unfold quote
  generalize s.toList = cs
  cases form : StringForm.of cs with
  | basic =>
    have solid := not_two_prefix_append (not_prefix_basicChars false 0 cs) double
    simpa [form, string?_of_double solid] using basicString?_basicChars cs rest
  | literal =>
    obtain ⟨shown, noQuote, noBreak⟩ := StringForm.of_literal form
    have absent : '\'' ∉ cs := fun member => by
      have run : 1 ≤ longestRun '\'' 0 cs :=
        le_longestRun 0 ((List.singleton_infix_iff _ _).mpr member)
      omega
    have plain : ∀ c ∈ cs, isPlain c = true ∧ c ≠ '\'' := fun c member =>
      ⟨(isPlain_or_newline (shown c member)).resolve_right fun same => noBreak (same ▸ member),
        fun same => absent (same ▸ member)⟩
    have start : ¬ ['\''] <+: cs :=
      fun first => absent ((List.singleton_infix_iff _ _).mp first.isInfix)
    simpa [form, string?_of_single (not_two_prefix_append start single)]
      using literalString?_append plain rest
  | multiBasic =>
    have read := multiBasicString?_basicChars (le_refl 2) cs double
    rw [← skipNewline_lead fun absent _ first => head_basicChars_append absent first] at read
    simpa [form, string?] using read
  | multiLiteral =>
    obtain ⟨shown, noQuotes⟩ := StringForm.of_multiLiteral form
    have plain : ∀ c ∈ cs, isPlain c = true ∨ c = '\n' :=
      fun c member => isPlain_or_newline (shown c member)
    have quiet : ¬ ['\'', '\'', '\''] <:+: cs := fun found => by
      have run : 3 ≤ longestRun '\'' 0 cs := le_longestRun 0 found
      omega
    have read := multiLiteralString?_append plain quiet single
    rw [← skipNewline_lead fun absent _ first => head_plain_append plain absent first] at read
    simpa [form, string?] using read

end Bitemporal.Toml
