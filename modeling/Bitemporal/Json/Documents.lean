import Bitemporal.Config
import Bitemporal.Coordinate
import Bitemporal.History
import Bitemporal.Json.Form
import Bitemporal.Replacement

/-!
The JSON forms of documents: instants, intervals, identities, coordinates, records, replacements,
history pages and configurations.

Identities are read as they stand, whether their text would be read back or not. Intervals are
read only if they are not empty, at whatever depth they stand.
-/

namespace Bitemporal

/-- Reads a natural number of at most 64 bits, as a count or size. -/
def Json.count? (field : Option Json) : Option Nat := field.bind Json.natural64?

instance : JsonForm Instant where
  write t := .natural t.micros
  read?
    | .natural n => Instant.ofMicros? n
    | _ => none

instance : JsonForm Boundary where
  write
    | .finite t => .object [("At", JsonForm.write t)]
    | .unbounded => .string "Unbounded"
  read?
    | .string "Unbounded" => some .unbounded
    | .object [("Unbounded", .null)] => some .unbounded
    | .object [("At", t)] => (JsonForm.read? t).map .finite
    | _ => none

instance : JsonForm Interval where
  write i :=
    .object [("from", JsonForm.write i.start), ("to", JsonForm.writeOption i.stop.instant?)]
  read? j := do
    match ← j.fields? ["from", "to"] with
    | [start, stop] =>
      Interval.between? (← JsonForm.required start) (.ofInstant? (← JsonForm.optional stop))
    | _ => none

instance : JsonForm ObjectId where
  write o := .object [("scheme", .string o.scheme), ("value", .string o.value)]
  read? j := do
    match ← j.fields? ["scheme", "value"] with
    | [scheme, value] => return ⟨← JsonForm.required scheme, ← JsonForm.required value⟩
    | _ => none

instance : JsonForm RecordId where
  write r := .object [("object_id", JsonForm.write r.object), ("version", .string r.version)]
  read? j := do
    match ← j.fields? ["object_id", "version"] with
    | [object, version] => return ⟨← JsonForm.required object, ← JsonForm.required version⟩
    | _ => none

instance : JsonForm Coordinate where
  write c :=
    .object
      [("version", JsonForm.writeOption c.version),
        ("correction", JsonForm.writeOption c.correction)]
  read? j := do
    match ← j.fields? ["version", "correction"] with
    | [version, correction] =>
      return ⟨← JsonForm.optional version, ← JsonForm.optional correction⟩
    | _ => none

instance {α : Type} [JsonForm α] : JsonForm (Record α) where
  write r :=
    .object
      [("unique_id", JsonForm.write r.id), ("version", JsonForm.write r.version),
        ("correction", JsonForm.write r.correction), ("payload", JsonForm.write r.payload)]
  read? j := do
    match ← j.fields? ["unique_id", "version", "correction", "payload"] with
    | [id, version, correction, payload] =>
      return ⟨← JsonForm.required id, ← JsonForm.required version, ← JsonForm.required correction,
        ← JsonForm.required payload⟩
    | _ => none

instance {α : Type} [JsonForm α] : JsonForm (Replacement α) where
  write r :=
    .object
      [("payload", JsonForm.write r.payload), ("version_from", JsonForm.write r.start),
        ("version_to", JsonForm.writeOption r.stop)]
  read? j := do
    match ← j.fields? ["payload", "version_from", "version_to"] with
    | [payload, start, stop] =>
      return ⟨← JsonForm.required payload, ← JsonForm.required start, ← JsonForm.optional stop⟩
    | _ => none

instance : JsonForm Paging where
  write p :=
    .object
      [("first_item", .natural p.firstItem), ("page_size", .natural p.pageSize),
        ("total_items", .natural p.totalItems)]
  read? j := do
    match ← j.fields? ["first_item", "page_size", "total_items"] with
    | [first, size, total] =>
      return ⟨← Json.count? first, ← Json.count? size, ← Json.count? total⟩
    | _ => none

instance {α : Type} [JsonForm α] : JsonForm (HistoryPage α) where
  write page :=
    .object [("paging", JsonForm.write page.paging), ("documents", JsonForm.write page.documents)]
  read? j := do
    match ← j.fields? ["paging", "documents"] with
    | [paging, documents] => return ⟨← JsonForm.required paging, ← JsonForm.required documents⟩
    | _ => none

/-- Reads a count that may be missing. -/
def Json.countOr? (default : Nat) : Option Json → Option Nat
  | none => some default
  | some value => value.natural64?

instance : JsonForm Config where
  write c :=
    .object
      [("scheme", .string c.scheme), ("history_page_size", .natural c.historyPageSize),
        ("max_replacements", .natural c.maxReplacements),
        ("verify_commits", .bool c.verifyCommits)]
  read? j := do
    match ← j.leadingFields?
      ["scheme", "history_page_size", "max_replacements", "verify_commits"] with
    | [scheme, page, replacements, verify] =>
      return ⟨← JsonForm.withDefault Config.default.scheme scheme,
        ← Json.countOr? Config.default.historyPageSize page,
        ← Json.countOr? Config.default.maxReplacements replacements,
        ← JsonForm.withDefault Config.default.verifyCommits verify⟩
    | _ => none

end Bitemporal
