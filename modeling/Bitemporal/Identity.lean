import Bitemporal.Digits
import Std.Data.TreeMap

/-!
Identities of lineages and of their records, and the text of both.

A lineage of documents is named by a scheme and a value within it; a record of the lineage by a
version besides. The texts `scheme~value` and `scheme~value~version` are exact formats for parts
that are not empty and hold no separator (`isIdPart`); other parts can be built, but their text is
not read back.
-/

namespace Bitemporal

/-- The character between the parts of an identifier. -/
def idSeparator : Char := '~'

/-- Whether a part survives the text of an identifier: it is not empty and holds no separator. -/
def isIdPart (part : String) : Bool := !part.toList.isEmpty && !part.toList.contains idSeparator

/-- The fields of a text between its separators: one more than there are separators. -/
def separatedFields (separator : Char) : List Char → List (List Char)
  | [] => [[]]
  | c :: rest =>
    if c = separator then [] :: separatedFields separator rest
    else
      match separatedFields separator rest with
      | field :: fields => (c :: field) :: fields
      | [] => [[c]]

/-- A text cut at its last separator, if it has one. -/
def cutAtLast? (separator : Char) : List Char → Option (List Char × List Char)
  | [] => none
  | c :: rest =>
    match cutAtLast? separator rest with
    | some (front, back) => some (c :: front, back)
    | none => if c = separator then some ([], rest) else none

/-- The identity of a lineage of documents. It never changes. -/
@[ext]
structure ObjectId where
  /-- The scheme that owns the lineage. -/
  scheme : String
  /-- The value within the scheme. -/
  value : String
deriving DecidableEq

/-- The identity of one record of a lineage. -/
@[ext]
structure RecordId where
  /-- The lineage. -/
  object : ObjectId
  /-- The version within the lineage; it carries no time. -/
  version : String
deriving DecidableEq

/-- A random 128-bit value, from which the identity of a new lineage is made. -/
structure Uuid where
  /-- The value as a number. -/
  bits : Nat
  /-- The value has 128 bits. -/
  bits_lt : bits < 340282366920938463463374607431768211456

namespace Uuid

/-- The value whose bits are the low 128 bits of a number. -/
def ofNat (n : Nat) : Uuid :=
  ⟨n % 340282366920938463463374607431768211456, Nat.mod_lt _ (by decide)⟩

/-- The value as 32 lower-case hexadecimal digits. -/
def text (u : Uuid) : String := String.ofList (paddedDigits 16 32 u.bits)

end Uuid

namespace ObjectId

instance : Ord ObjectId := ⟨compareLex (compareOn (·.scheme)) (compareOn (·.value))⟩

theorem compare_def :
    compare (α := ObjectId) = compareLex (compareOn (·.scheme)) (compareOn (·.value)) := rfl

instance : Std.TransOrd ObjectId := inferInstanceAs <| Std.TransCmp (compareLex _ _)

instance : Std.LawfulEqOrd ObjectId where
  eq_of_compare {a b} h := by
    simp only [compare_def, compareLex_eq_eq] at h
    exact ObjectId.ext (Std.LawfulEqOrd.eq_of_compare h.1) (Std.LawfulEqOrd.eq_of_compare h.2)

/-- The text `scheme~value`. -/
def text (o : ObjectId) : String := o.scheme ++ String.singleton idSeparator ++ o.value

/-- Whether the text of the identity is read back. -/
def isValid (o : ObjectId) : Bool := isIdPart o.scheme && isIdPart o.value

/-- A new identity in `scheme`. -/
def generate (scheme : String) (drawn : Uuid) : ObjectId := ⟨scheme, drawn.text⟩

end ObjectId

namespace RecordId

instance : Ord RecordId := ⟨compareLex (compareOn (·.object)) (compareOn (·.version))⟩

theorem compare_def :
    compare (α := RecordId) = compareLex (compareOn (·.object)) (compareOn (·.version)) := rfl

instance : Std.TransOrd RecordId := inferInstanceAs <| Std.TransCmp (compareLex _ _)

instance : Std.LawfulEqOrd RecordId where
  eq_of_compare {a b} h := by
    simp only [compare_def, compareLex_eq_eq] at h
    exact RecordId.ext (Std.LawfulEqOrd.eq_of_compare h.1) (Std.LawfulEqOrd.eq_of_compare h.2)

/-- The text `scheme~value~version`. -/
def text (r : RecordId) : String := r.object.text ++ String.singleton idSeparator ++ r.version

end RecordId

/-- The identity of the record of `o` with that version. -/
def ObjectId.atVersion (o : ObjectId) (version : String) : RecordId := ⟨o, version⟩

end Bitemporal
