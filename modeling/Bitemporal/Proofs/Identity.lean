import Bitemporal.Fault
import Mathlib.Data.List.Basic

/-!
# The texts of identities

The text of an object and the text of a record are exact formats (`ExactFormat`): a text is
read exactly if it has the right number of parts, none of them empty, and what is read from it
has it as its text.  Any other text is refused by name.  The two readers cut a text
differently.  The one for objects looks at all fields between separators
(`separatedFields_eq_iff`), the one for records at the last separator first
(`cutAtLast?_eq_some_iff`) and then reads what comes before it as an object.

* `ObjectId.exactFormat`, `RecordId.exactFormat`: the two formats.
* `ObjectId.legible_generate`, `ObjectId.legible_atVersion`: identities that a master draws, and
  those that it numbers.
-/

namespace Bitemporal

/-! ## Fields and cuts -/

section Fields

variable {separator : Char} {l front back : List Char} {fields : List (List Char)}

/-- Fields are what the library splits a list into. -/
theorem separatedFields_eq_splitOn (separator : Char) (l : List Char) :
    separatedFields separator l = l.splitOn separator := by
  induction l with
  | nil => rfl
  | cons c rest ih =>
    rw [List.splitOn_eq_splitOnP, List.splitOnP_cons_eq_if_modifyHead, ← List.splitOn_eq_splitOnP,
      separatedFields, ih]
    by_cases here : c = separator
    · simp [here]
    · obtain ⟨field, fields, shape⟩ :=
        List.exists_cons_of_ne_nil (List.splitOn_ne_nil separator rest)
      simp [here, shape]

theorem not_mem_of_mem_separatedFields {field : List Char}
    (member : field ∈ separatedFields separator l) : separator ∉ field := by
  induction l generalizing field with
  | nil =>
    rw [List.mem_singleton.mp member]
    exact List.not_mem_nil
  | cons c rest ih =>
    unfold separatedFields at member
    split at member
    · rcases List.mem_cons.mp member with rfl | later
      · exact List.not_mem_nil
      · exact ih later
    · rename_i other
      split at member
      · rename_i first fields shape
        rw [shape] at ih
        rcases List.mem_cons.mp member with rfl | later
        · rw [List.mem_cons, not_or]
          exact ⟨fun same => other same.symm, ih List.mem_cons_self⟩
        · exact ih (List.mem_cons_of_mem first later)
      · rw [List.mem_singleton.mp member, List.mem_singleton]
        exact fun same => other same.symm

/-- The fields of a text are the one list of texts without separators that
separators join to the text. -/
theorem separatedFields_eq_iff :
    separatedFields separator l = fields ↔
      fields ≠ [] ∧ (∀ field ∈ fields, separator ∉ field) ∧
      [separator].intercalate fields = l := by
  rw [separatedFields_eq_splitOn]
  constructor
  · rintro rfl
    refine ⟨List.splitOn_ne_nil separator l, fun field member => ?_,
      List.intercalate_splitOn separator⟩
    rw [← separatedFields_eq_splitOn] at member
    exact not_mem_of_mem_separatedFields member
  · rintro ⟨nonempty, free, rfl⟩
    exact List.splitOn_intercalate separator free nonempty

theorem cutAtLast?_eq_none_iff : cutAtLast? separator l = none ↔ separator ∉ l := by
  induction l with
  | nil => simp [cutAtLast?]
  | cons c rest ih =>
    rw [cutAtLast?, List.mem_cons, not_or, ← ih]
    cases cutAtLast? separator rest with
    | some cut => simp
    | none => simp [eq_comm]

/-- A list is cut at its last separator. -/
theorem cutAtLast?_append (last : separator ∉ back) :
    cutAtLast? separator (front ++ separator :: back) = some (front, back) := by
  induction front with
  | nil => simp [cutAtLast?, cutAtLast?_eq_none_iff.mpr last]
  | cons c front ih => rw [List.cons_append, cutAtLast?, ih]

/-- A text is cut where no separator follows. -/
theorem cutAtLast?_eq_some_iff :
    cutAtLast? separator l = some (front, back) ↔
      l = front ++ separator :: back ∧ separator ∉ back := by
  constructor
  · intro cut
    induction l generalizing front with
    | nil => cases cut
    | cons c rest ih =>
      rw [cutAtLast?] at cut
      split at cut
      · rename_i front' back' later
        cases cut
        obtain ⟨rfl, last⟩ := ih later
        exact ⟨rfl, last⟩
      · rename_i free
        split at cut
        · rename_i here
          cases cut
          exact ⟨by rw [here, List.nil_append], cutAtLast?_eq_none_iff.mp free⟩
        · cases cut
  · rintro ⟨rfl, last⟩
    exact cutAtLast?_append last

end Fields

/-! ## Parts -/

/-- A part of an identity that survives its text: it is not empty and holds no separator. -/
def IsIdPart (part : String) : Prop := part ≠ "" ∧ idSeparator ∉ part.toList

/-- The check of a part is what a part must be. -/
theorem isIdPart_iff {part : String} : isIdPart part = true ↔ IsIdPart part := by
  simp [isIdPart, IsIdPart]

/-- A text consists of `n` parts that are not empty, with just `n - 1` separators, which stand
between them. -/
def HasParts (n : Nat) (text : String) : Prop :=
  ∃ parts : List String, parts.length = n ∧ (∀ part ∈ parts, IsIdPart part) ∧
    text.toList = [idSeparator].intercalate (parts.map String.toList)

/-- Both parts of an object survive its text. -/
def ObjectId.Legible (o : ObjectId) : Prop := IsIdPart o.scheme ∧ IsIdPart o.value

/-- All parts of a record's identity survive its text. -/
def RecordId.Legible (r : RecordId) : Prop := r.object.Legible ∧ IsIdPart r.version

namespace ObjectId

variable {o : ObjectId} {scheme value text : String}

theorem toList_text (o : ObjectId) :
    o.text.toList = o.scheme.toList ++ idSeparator :: o.value.toList := by
  simp [ObjectId.text]

/-- An identity is valid exactly if its text can be read. -/
theorem isValid_iff : o.isValid = true ↔ o.Legible := by
  rw [isValid, Bool.and_eq_true, isIdPart_iff, isIdPart_iff, Legible]

theorem validate_eq_ok_iff : o.validate = .ok () ↔ o.Legible := by
  rw [validate, ← isValid_iff]
  cases o.isValid <;> simp

/-- An identity is made of two parts that can be read. -/
theorem make_eq_ok_iff : make scheme value = .ok o ↔ o = ⟨scheme, value⟩ ∧ o.Legible := by
  rw [make, validate, ← isValid_iff]
  split
  · rename_i valid
    constructor
    · intro made
      cases made
      exact ⟨rfl, valid⟩
    · rintro ⟨rfl, -⟩
      rfl
  · rename_i invalid
    constructor
    · intro made
      cases made
    · rintro ⟨rfl, valid⟩
      exact absurd valid invalid

/-- What cannot be made is refused by its text. -/
theorem make_cases (scheme value : String) :
    (∃ o, make scheme value = .ok o) ∨
      make scheme value = .error (.invalidId (⟨scheme, value⟩ : ObjectId).text) := by
  rw [make, validate]
  split
  · exact .inl ⟨_, rfl⟩
  · exact .inr rfl

/-- Two fields with a separator between them are the text. -/
theorem text_of_separatedFields {first second : List Char}
    (fields : separatedFields idSeparator text.toList = [first, second]) :
    ObjectId.text ⟨String.ofList first, String.ofList second⟩ = text := by
  have joined := (separatedFields_eq_iff.mp fields).2.2
  rw [List.intercalate_cons_cons, List.intercalate_singleton] at joined
  rw [← String.toList_inj, toList_text, String.toList_ofList, String.toList_ofList, ← joined,
    List.append_assoc]
  rfl

/-- The text of a legible identity has two fields. -/
theorem separatedFields_text (legible : o.Legible) :
    separatedFields idSeparator o.text.toList = [o.scheme.toList, o.value.toList] := by
  refine separatedFields_eq_iff.mpr ⟨List.cons_ne_nil _ _, ?_, ?_⟩
  · simp [legible.1.2, legible.2.2]
  · rw [toList_text, List.intercalate_cons_cons, List.intercalate_singleton, List.append_assoc]
    rfl

/-- An object is read from its text only, and only if both its parts survive. -/
theorem ofText_eq_ok_iff : ofText text = .ok o ↔ o.text = text ∧ o.Legible := by
  constructor
  · intro read
    unfold ofText at read
    split at read
    · rename_i fields
      obtain ⟨rfl, legible⟩ := make_eq_ok_iff.mp read
      exact ⟨text_of_separatedFields fields, legible⟩
    · cases read
  · rintro ⟨rfl, legible⟩
    rw [ofText, separatedFields_text legible]
    exact make_eq_ok_iff.mpr ⟨by rw [String.ofList_toList, String.ofList_toList], legible⟩

/-- What is no object is refused by name. -/
theorem ofText_cases (text : String) :
    (∃ o, ofText text = .ok o) ∨ ofText text = .error (.invalidId text) := by
  unfold ofText
  split
  · rename_i first second fields
    have made := make_cases (String.ofList first) (String.ofList second)
    rwa [text_of_separatedFields fields] at made
  · exact .inr rfl

/-- The texts with the right number of parts are those of legible identities. -/
theorem hasParts_iff : HasParts 2 text ↔ ∃ o : ObjectId, o.text = text ∧ o.Legible := by
  constructor
  · rintro ⟨parts, two, survive, joined⟩
    obtain ⟨scheme, value, rfl⟩ := List.length_eq_two.mp two
    refine ⟨⟨scheme, value⟩, ?_, survive scheme (by simp), survive value (by simp)⟩
    rw [← String.toList_inj, joined, toList_text]
    simp [List.intercalate_cons_cons]
  · rintro ⟨o, rfl, legible⟩
    refine ⟨[o.scheme, o.value], rfl, ?_, ?_⟩
    · simp [legible.1, legible.2]
    · simp [toList_text, List.intercalate_cons_cons]

end ObjectId

namespace RecordId

variable {r : RecordId} {text : String}

theorem toList_text (r : RecordId) :
    r.text.toList = r.object.text.toList ++ idSeparator :: r.version.toList := by
  simp [RecordId.text]

/-- A record is read from its text only, and only if all its parts survive. -/
theorem ofText_eq_ok_iff : ofText text = .ok r ↔ r.text = text ∧ r.Legible := by
  constructor
  · intro read
    unfold ofText at read
    split at read
    · rename_i lineage version cut
      obtain ⟨joined, -⟩ := cutAtLast?_eq_some_iff.mp cut
      split at read
      · rename_i part
        split at read
        · rename_i o found
          cases read
          obtain ⟨front, legible⟩ := ObjectId.ofText_eq_ok_iff.mp found
          refine ⟨?_, legible, isIdPart_iff.mp part⟩
          rw [← String.toList_inj, toList_text, joined]
          simp [ObjectId.atVersion, front]
        · cases read
      · cases read
    · cases read
  · rintro ⟨rfl, legible, part⟩
    have cut : cutAtLast? idSeparator r.text.toList =
        some (r.object.text.toList, r.version.toList) := by
      rw [toList_text]
      exact cutAtLast?_append part.2
    have found : ObjectId.ofText r.object.text = .ok r.object :=
      ObjectId.ofText_eq_ok_iff.mpr ⟨rfl, legible⟩
    rw [ofText, cut]
    dsimp only
    rw [String.ofList_toList, String.ofList_toList, if_pos (isIdPart_iff.mpr part), found]
    rfl

/-- What is no record is refused by name. -/
theorem ofText_cases (text : String) :
    (∃ r, ofText text = .ok r) ∨ ofText text = .error (.invalidId text) := by
  unfold ofText
  split
  · split
    · split
      · exact .inl ⟨_, rfl⟩
      · exact .inr rfl
    · exact .inr rfl
  · exact .inr rfl

/-- The texts with the right number of parts are those of legible identities. -/
theorem hasParts_iff : HasParts 3 text ↔ ∃ r : RecordId, r.text = text ∧ r.Legible := by
  constructor
  · rintro ⟨parts, three, survive, joined⟩
    obtain ⟨scheme, value, version, rfl⟩ := List.length_eq_three.mp three
    refine ⟨⟨⟨scheme, value⟩, version⟩, ?_, ⟨survive scheme (by simp), survive value (by simp)⟩,
      survive version (by simp)⟩
    rw [← String.toList_inj, joined, toList_text, ObjectId.toList_text]
    simp [List.intercalate_cons_cons]
  · rintro ⟨r, rfl, legible, part⟩
    refine ⟨[r.object.scheme, r.object.value, r.version], rfl, ?_, ?_⟩
    · simp [legible.1, legible.2, part]
    · simp [toList_text, ObjectId.toList_text, List.intercalate_cons_cons]

end RecordId

/-! ## Exact formats -/

/-- `text` is an exact format of `n` parts: `read` accepts just the texts with so many parts, each
as the one value that has it as its text, and refuses any other text by name.  A value is read
back exactly if it is legible. -/
structure ExactFormat {ι : Type} (n : Nat) (text : ι → String) (read : String → Except Fault ι)
    (Legible : ι → Prop) : Prop where
  accepts_iff : ∀ t, (∃ i, read t = .ok i) ↔ HasParts n t
  text_of_read : ∀ t i, read t = .ok i → text i = t
  refuses : ∀ t, ¬ HasParts n t → read t = .error (.invalidId t)
  read_text_iff : ∀ i, read (text i) = .ok i ↔ Legible i
  injective : ∀ i j, Legible i → Legible j → text i = text j → i = j

/-- A format is exact if reading undoes writing and fails for everything else. -/
theorem ExactFormat.of_read {ι : Type} {n : Nat} {text : ι → String}
    {read : String → Except Fault ι} {Legible : ι → Prop}
    (reads : ∀ {t i}, read t = .ok i ↔ text i = t ∧ Legible i)
    (cases : ∀ t, (∃ i, read t = .ok i) ∨ read t = .error (.invalidId t))
    (parts : ∀ {t}, HasParts n t ↔ ∃ i, text i = t ∧ Legible i) :
    ExactFormat n text read Legible where
  accepts_iff t := by simp only [parts, reads]
  text_of_read t i accepted := (reads.mp accepted).1
  refuses t bad := by
    rcases cases t with ⟨i, accepted⟩ | refused
    · exact absurd (parts.mpr ⟨i, reads.mp accepted⟩) bad
    · exact refused
  read_text_iff i := by simp only [reads, true_and]
  injective i j left right same := by
    have first := reads.mpr ⟨rfl, left⟩
    have second := reads.mpr ⟨rfl, right⟩
    rw [same, second] at first
    exact (Except.ok.inj first).symm

theorem ObjectId.exactFormat : ExactFormat 2 ObjectId.text ObjectId.ofText ObjectId.Legible :=
  .of_read ofText_eq_ok_iff ofText_cases hasParts_iff

theorem RecordId.exactFormat : ExactFormat 3 RecordId.text RecordId.ofText RecordId.Legible :=
  .of_read ofText_eq_ok_iff ofText_cases hasParts_iff

/-- A text with one separator names no record. -/
example : RecordId.ofText (ObjectId.text ⟨"loan", "7"⟩) = .error (.invalidId "loan~7") := by
  decide

/-! ## Identities that are made -/

theorem digitChar_ne_idSeparator : ∀ d < 16, Nat.digitChar d ≠ idSeparator := by decide

/-- Digits are no separators. -/
theorem idSeparator_not_mem_toDigits {base : Nat} (many : 1 < base) (few : base ≤ 16) (n : Nat) :
    idSeparator ∉ Nat.toDigits base n := by
  induction n using Nat.strongRecOn with
  | ind n ih =>
    rw [Nat.toDigits_eq_if many]
    split
    · rename_i small
      rw [List.mem_singleton]
      exact (digitChar_ne_idSeparator n (Nat.lt_of_lt_of_le small few)).symm
    · have shorter : n / base < n := Nat.div_lt_self (by omega) many
      have last : n % base < 16 := Nat.lt_of_lt_of_le (Nat.mod_lt n (by omega)) few
      rw [List.mem_append, List.mem_singleton, not_or]
      exact ⟨ih (n / base) shorter, (digitChar_ne_idSeparator _ last).symm⟩

theorem isIdPart_repr (n : Nat) : IsIdPart (Nat.repr n) := by
  rw [Nat.repr_eq_ofList_toDigits]
  refine ⟨fun empty => Nat.toDigits_ne_nil (b := 10) (n := n) ?_, ?_⟩
  · rwa [← String.toList_eq_nil_iff, String.toList_ofList] at empty
  · rw [String.toList_ofList]
    exact idSeparator_not_mem_toDigits (by decide) (by decide) n

theorem Uuid.isIdPart_text (u : Uuid) : IsIdPart u.text := by
  have shape : u.text.toList = paddedDigits 16 32 u.bits := String.toList_ofList
  refine ⟨fun empty => ?_, ?_⟩
  · rw [← String.toList_eq_nil_iff, shape] at empty
    have long : (paddedDigits 16 32 u.bits).length = max 32 (Nat.toDigits 16 u.bits).length :=
      List.length_leftpad
    rw [empty, List.length_nil] at long
    omega
  · rw [shape, paddedDigits, List.leftpad, List.mem_append, not_or]
    refine ⟨fun padding => ?_, idSeparator_not_mem_toDigits (by decide) (by decide) u.bits⟩
    exact absurd (List.eq_of_mem_replicate padding) (by decide)

/-- A generated identity is legible if its scheme is a part. -/
theorem ObjectId.legible_generate {scheme : String} (part : IsIdPart scheme) (drawn : Uuid) :
    (ObjectId.generate scheme drawn).Legible := ⟨part, drawn.isIdPart_text⟩

theorem ObjectId.legible_atVersion {o : ObjectId} (legible : o.Legible) (n : Nat) :
    (o.atVersion (Nat.repr n)).Legible := ⟨legible, isIdPart_repr n⟩

end Bitemporal
