import Bitemporal.Json.Parse

/-!
JSON forms of types.

A form writes a value of its type and reads it back. A structure is written as an object with its
fields in order; it is also read from an object with other fields besides, in any order, and from
a list of its fields. A named field may stand only once.
-/

namespace Bitemporal

/-- A way to write the values of a type as JSON, and to read them. -/
class JsonForm (α : Type) where
  /-- The JSON value of a value. -/
  write : α → Json
  /-- The value that a JSON value stands for. -/
  read? : Json → Option α

namespace JsonForm

variable {α : Type} [JsonForm α]

/-- The compact JSON text of a value. -/
def text (a : α) : String := (write a).text

/-- The value that a JSON text stands for. -/
def ofText? (text : String) : Option α := (Json.parse? text).bind read?

/-- The value of a field that must be there. -/
def required (field : Option Json) : Option α := field.bind read?

/-- The value of a field that may be missing or null. -/
def optional (field : Option Json) : Option (Option α) :=
  match field with
  | none => some none
  | some .null => some none
  | some value => (read? value).map some

/-- The value of a field that may be missing. -/
def withDefault (default : α) (field : Option Json) : Option α :=
  match field with
  | none => some default
  | some value => read? value

/-- The JSON value of an optional value. -/
def writeOption : Option α → Json
  | some a => write a
  | none => .null

end JsonForm

namespace Json

/-- The largest number that a form reads. -/
def maxNatural : Nat := 18446744073709551615

/-- A natural number of at most 64 bits. -/
def natural64? : Json → Option Nat
  | natural n => if n ≤ maxNatural then some n else none
  | _ => none

/-- The value of the only member with a name, nothing if there is none; refused
if there are several. -/
def member? (members : List (String × Json)) (name : String) : Option (Option Json) :=
  match members.filter (fun member => member.1 = name) with
  | [] => some none
  | [member] => some (some member.2)
  | _ => none

/-- The fields of a structure with these names: those of an object, where some may be missing, or
those of a list that has them all. -/
def fields? (names : List String) : Json → Option (List (Option Json))
  | object members => names.mapM (member? members)
  | array items => if items.length = names.length then some (items.map some) else none
  | _ => none

/-- The fields of a structure with these names, of which the last ones may
be missing in a list. -/
def leadingFields? (names : List String) : Json → Option (List (Option Json))
  | object members => names.mapM (member? members)
  | array items =>
    if items.length ≤ names.length then
      some (items.map some ++ List.replicate (names.length - items.length) none)
    else none
  | _ => none

end Json

instance : JsonForm String where
  write := .string
  read?
    | .string s => some s
    | _ => none

instance : JsonForm Bool where
  write := .bool
  read?
    | .bool b => some b
    | _ => none

instance {α : Type} [JsonForm α] : JsonForm (List α) where
  write items := .array (items.map JsonForm.write)
  read?
    | .array items => items.mapM JsonForm.read?
    | _ => none

end Bitemporal
