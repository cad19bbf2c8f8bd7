import Bitemporal.Json.Documents
import Bitemporal.Proofs.Json.Text
import Bitemporal.Proofs.Order

/-!
# JSON forms lose nothing and let no empty interval in

A form is faithful if it reads back what it writes (`JsonForm.Faithful`).  Faithful forms of the
parts make a faithful form of the whole, since the fields of a structure are found by their names
(`Json.fields?_object`).  With `Json.parse?_text` the same holds of texts
(`JsonForm.Faithful.lossless`).

A value that names two ends is read as an interval only if the interval is not empty
(`Interval.read?_eq_some_iff`).  Records and pages read their intervals in no other way, so none
of them hides an empty or inverted interval (`JsonForm.Checked`).
-/

namespace Bitemporal

namespace JsonForm

variable {α : Type} [JsonForm α] {Fits : α → Prop}

/-- A form reads back what it writes, and reads nothing but values that fit. -/
structure Faithful (α : Type) [JsonForm α] (Fits : α → Prop) : Prop where
  plain : ∀ a : α, (write a).Plain
  read_write : ∀ a : α, Fits a → read? (write a) = some a
  fits : ∀ j (a : α), read? j = some a → Fits a

/-- The text of a value is read as the value, and a value that is read from a text fits and has a
text of its own that is read as the value. -/
structure Lossless (α : Type) [JsonForm α] (Fits : α → Prop) : Prop where
  ofText?_text : ∀ a : α, Fits a → ofText? (text a) = some a
  reread : ∀ t (a : α), ofText? t = some a → Fits a ∧ ofText? (text a) = some a

/-- A value with a faithful form is read back from its text. -/
theorem Faithful.ofText?_text (faithful : Faithful α Fits) {a : α} (fits : Fits a) :
    ofText? (text a) = some a := by
  rw [ofText?, text, Json.parse?_text (faithful.plain a), Option.bind_some,
    faithful.read_write a fits]

theorem Faithful.lossless (faithful : Faithful α Fits) : Lossless α Fits where
  ofText?_text a := faithful.ofText?_text
  reread t a accepted := by
    obtain ⟨j, -, read⟩ := Option.bind_eq_some_iff.mp accepted
    have fits := faithful.fits j a read
    exact ⟨fits, faithful.ofText?_text fits⟩

theorem Faithful.required_write (faithful : Faithful α Fits) {a : α} (fits : Fits a) :
    required (some (write a)) = some a := faithful.read_write a fits

/-- What is read of a field fits the type. -/
theorem Faithful.fits_of_required (faithful : Faithful α Fits) {field : Option Json} {a : α}
    (read : required field = some a) : Fits a := by
  obtain ⟨j, -, read⟩ := Option.bind_eq_some_iff.mp read
  exact faithful.fits j a read

theorem optional_of_ne_null {j : Json} (visible : j ≠ .null) :
    (optional (some j) : Option (Option α)) = (read? j).map some := by
  cases j with
  | null => exact absurd rfl visible
  | _ => rfl

/-- An optional value is read back, unless some value is written as null. -/
theorem Faithful.optional_writeOption (faithful : Faithful α fun _ => True)
    (visible : ∀ a : α, write a ≠ .null) (a : Option α) :
    optional (some (writeOption a)) = some a := by
  cases a with
  | none => rfl
  | some a =>
    rw [writeOption, optional_of_ne_null (visible a), faithful.read_write a trivial,
      Option.map_some]

theorem Faithful.plain_writeOption (faithful : Faithful α Fits) (a : Option α) :
    (writeOption a).Plain := by
  cases a with
  | none => exact .null
  | some a => exact faithful.plain a

end JsonForm

/-! ## Fields -/

namespace Json

variable {members : List (String × Json)} {member : String × Json} {name : String} {value : Json}

theorem filter_name (distinct : (members.map Prod.fst).Nodup) (listed : member ∈ members) :
    members.filter (fun other => other.1 = member.1) = [member] := by
  induction members with
  | nil => cases listed
  | cons first rest ih =>
    obtain ⟨new, distinct⟩ := List.nodup_cons.mp distinct
    rcases List.mem_cons.mp listed with rfl | later
    · have others : rest.filter (fun other => other.1 = member.1) = [] := by
        rw [List.filter_eq_nil_iff]
        intro other there same
        exact new (List.mem_map.mpr ⟨other, there, by simpa using same⟩)
      simp [others]
    · have apart : first.1 ≠ member.1 :=
        fun same => new (List.mem_map.mpr ⟨member, later, same.symm⟩)
      simp [apart, ih distinct later]

/-- The fields of an object are found by their names. -/
theorem fields?_object (distinct : (members.map Prod.fst).Nodup) :
    (object members).fields? (members.map Prod.fst) =
      some (members.map fun member => some member.2) := by
  have found (listed : List (String × Json)) (known : listed ⊆ members) :
      (listed.map Prod.fst).mapM (member? members) =
        some (listed.map fun member => some member.2) := by
    induction listed with
    | nil => rfl
    | cons member rest ih =>
      obtain ⟨first, rest⟩ := List.cons_subset.mp known
      simp [member?, filter_name distinct first, ih rest]
  exact found members (List.Subset.refl members)

end Json

/-! ## Faithful forms -/

namespace JsonForm

theorem map_of_mapM_eq_some {β γ : Type} {f : β → Option γ} {l : List β} {results : List γ}
    (read : l.mapM f = some results) : l.map f = results.map some := by
  induction l generalizing results with
  | nil =>
    cases read
    rfl
  | cons b rest ih =>
    simp only [List.mapM_cons, Option.bind_eq_bind, Option.bind_eq_some_iff, Option.pure_def,
      Option.some.injEq] at read
    obtain ⟨c, first, others, later, rfl⟩ := read
    simp [first, ih later]

theorem faithful_string : Faithful String fun _ => True where
  plain s := .string s
  read_write _ _ := rfl
  fits _ _ _ := trivial

theorem faithful_instant : Faithful Instant fun _ => True where
  plain t := .natural t.micros
  read_write t _ := by
    have small : t.micros ≤ Instant.maxMicros := t.micros_le
    change Instant.ofMicros? t.micros = some t
    simp [Instant.ofMicros?, small]
  fits _ _ _ := trivial

theorem optional_instant (t : Option Instant) : optional (some (writeOption t)) = some t :=
  faithful_instant.optional_writeOption (fun _ => Json.noConfusion) t

theorem faithful_boundary : Faithful Boundary fun _ => True where
  plain b := by
    cases b with
    | finite t => exact .object (by simp [faithful_instant.plain])
    | unbounded => exact .string _
  read_write b _ := by
    cases b with
    | finite t =>
      change (read? (write t)).map Boundary.finite = _
      rw [faithful_instant.read_write t trivial, Option.map_some]
    | unbounded => rfl
  fits _ _ _ := trivial

theorem faithful_objectId : Faithful ObjectId fun _ => True where
  plain o := .object (by simp [Json.Plain.string])
  read_write o _ := by
    have fields : (write o).fields? ["scheme", "value"] =
        some [some (.string o.scheme), some (.string o.value)] :=
      Json.fields?_object (by simp)
    change ((write o).fields? ["scheme", "value"]).bind _ = _
    rw [fields]
    rfl
  fits _ _ _ := trivial

theorem faithful_recordId : Faithful RecordId fun _ => True where
  plain r := .object (by simp [Json.Plain.string, faithful_objectId.plain])
  read_write r _ := by
    have fields : (write r).fields? ["object_id", "version"] =
        some [some (write r.object), some (.string r.version)] :=
      Json.fields?_object (by simp)
    change ((write r).fields? ["object_id", "version"]).bind _ = _
    rw [fields]
    simp [faithful_objectId.required_write]
    rfl
  fits _ _ _ := trivial

theorem faithful_coordinate : Faithful Coordinate fun _ => True where
  plain c := .object (by simp [faithful_instant.plain_writeOption])
  read_write c _ := by
    have fields : (write c).fields? ["version", "correction"] =
        some [some (writeOption c.version), some (writeOption c.correction)] :=
      Json.fields?_object (by simp)
    change ((write c).fields? ["version", "correction"]).bind _ = _
    rw [fields]
    simp [optional_instant]
  fits _ _ _ := trivial

theorem faithful_interval : Faithful Interval fun _ => True where
  plain i := .object (by simp [faithful_instant.plain, faithful_instant.plain_writeOption])
  read_write i _ := by
    have fields : (write i).fields? ["from", "to"] =
        some [some (write i.start), some (writeOption i.stop.instant?)] :=
      Json.fields?_object (by simp)
    have stop : Boundary.ofInstant? i.stop.instant? = i.stop := by cases i.stop <;> rfl
    change ((write i).fields? ["from", "to"]).bind _ = _
    rw [fields]
    simp [faithful_instant.required_write, optional_instant, stop, Interval.between?_eq_some_iff]
  fits _ _ _ := trivial

/-- A list has a faithful form if its items have. -/
theorem faithful_list {α : Type} [JsonForm α] {Fits : α → Prop} (faithful : Faithful α Fits) :
    Faithful (List α) fun items => ∀ item ∈ items, Fits item where
  plain items := .array (by simpa using fun item _ => faithful.plain item)
  read_write items fits := by
    change (items.map write).mapM read? = some items
    induction items with
    | nil => rfl
    | cons item rest ih =>
      obtain ⟨first, others⟩ := List.forall_mem_cons.mp fits
      simp [faithful.read_write item first, ih others]
  fits j items read := by
    cases j with
    | array values =>
      intro item member
      have listed : some item ∈ values.map read? := by
        rw [map_of_mapM_eq_some read]
        exact List.mem_map_of_mem member
      obtain ⟨value, -, read⟩ := List.mem_map.mp listed
      exact faithful.fits value item read
    | _ => cases read

theorem faithful_replacement {α : Type} [JsonForm α] (faithful : Faithful α fun _ => True) :
    Faithful (Replacement α) fun _ => True where
  plain r :=
    .object (by simp [faithful.plain, faithful_instant.plain, faithful_instant.plain_writeOption])
  read_write r _ := by
    have fields : (write r).fields? ["payload", "version_from", "version_to"] =
        some [some (write r.payload), some (write r.start), some (writeOption r.stop)] :=
      Json.fields?_object (by simp)
    change ((write r).fields? ["payload", "version_from", "version_to"]).bind _ = _
    rw [fields]
    simp [faithful.required_write, faithful_instant.required_write, optional_instant]
  fits _ _ _ := trivial

theorem faithful_record {α : Type} [JsonForm α] (faithful : Faithful α fun _ => True) :
    Faithful (Record α) fun _ => True where
  plain r := .object (by simp [faithful.plain, faithful_recordId.plain, faithful_interval.plain])
  read_write r _ := by
    have fields : (write r).fields? ["unique_id", "version", "correction", "payload"] =
        some [some (write r.id), some (write r.version), some (write r.correction),
          some (write r.payload)] :=
      Json.fields?_object (by simp)
    change ((write r).fields? ["unique_id", "version", "correction", "payload"]).bind _ = _
    rw [fields]
    simp [faithful.required_write, faithful_recordId.required_write,
      faithful_interval.required_write]
  fits _ _ _ := trivial

/-- A count is a natural number of at most 64 bits. -/
theorem count?_eq_some_iff {field : Option Json} {n : Nat} :
    Json.count? field = some n ↔ field = some (.natural n) ∧ n ≤ Json.maxNatural := by
  rcases field with - | ⟨j⟩
  · simp [Json.count?]
  · cases j <;> simp [Json.count?, Json.natural64?]
    grind

end JsonForm

/-- The counts of a page fit in 64 bits. -/
structure Paging.Fits (p : Paging) : Prop where
  firstItem_le : p.firstItem ≤ Json.maxNatural
  pageSize_le : p.pageSize ≤ Json.maxNatural
  totalItems_le : p.totalItems ≤ Json.maxNatural

namespace JsonForm

/-- Where a page lies is read back if its numbers have at most 64 bits. -/
theorem faithful_paging : Faithful Paging Paging.Fits where
  plain p := .object (by simp [Json.Plain.natural])
  read_write p fits := by
    have fields : (write p).fields? ["first_item", "page_size", "total_items"] =
        some [some (.natural p.firstItem), some (.natural p.pageSize),
          some (.natural p.totalItems)] :=
      Json.fields?_object (by simp)
    have first := count?_eq_some_iff.mpr ⟨rfl, fits.firstItem_le⟩
    have size := count?_eq_some_iff.mpr ⟨rfl, fits.pageSize_le⟩
    have total := count?_eq_some_iff.mpr ⟨rfl, fits.totalItems_le⟩
    change ((write p).fields? ["first_item", "page_size", "total_items"]).bind _ = _
    rw [fields]
    simp [first, size, total]
  fits j p read := by
    obtain ⟨fields, -, read⟩ := Option.bind_eq_some_iff.mp read
    split at read
    · simp only [Option.bind_eq_bind, Option.bind_eq_some_iff, Option.pure_def, Option.some.injEq,
        count?_eq_some_iff] at read
      obtain ⟨first, ⟨-, first_le⟩, size, ⟨-, size_le⟩, total, ⟨-, total_le⟩, rfl⟩ := read
      exact ⟨first_le, size_le, total_le⟩
    · cases read

theorem faithful_page {α : Type} [JsonForm α] (faithful : Faithful α fun _ => True) :
    Faithful (HistoryPage α) fun page => page.paging.Fits where
  plain page :=
    .object (by simp [faithful_paging.plain, (faithful_list (faithful_record faithful)).plain])
  read_write page fits := by
    have fields : (write page).fields? ["paging", "documents"] =
        some [some (write page.paging), some (write page.documents)] :=
      Json.fields?_object (by simp)
    change ((write page).fields? ["paging", "documents"]).bind _ = _
    rw [fields]
    simp [faithful_paging.required_write fits,
      (faithful_list (faithful_record faithful)).required_write]
  fits j page read := by
    obtain ⟨fields, -, read⟩ := Option.bind_eq_some_iff.mp read
    split at read
    · simp only [Option.bind_eq_bind, Option.bind_eq_some_iff, Option.pure_def, Option.some.injEq]
        at read
      obtain ⟨paging, counts, documents, -, rfl⟩ := read
      exact faithful_paging.fits_of_required counts
    · cases read

end JsonForm

/-! ## Intervals in texts -/

namespace Json

/-- A value names the two ends of an interval, whether anything lies between them or not. -/
def Bounds (j : Json) (start : Instant) (stop : Boundary) : Prop :=
  ∃ first last instant?, j.fields? ["from", "to"] = some [first, last] ∧
    JsonForm.required first = some start ∧
    JsonForm.optional last = some instant? ∧ stop = .ofInstant? instant?

/-- A value has another one as the field at a place. -/
def Field (names : List String) (place : Nat) (j value : Json) : Prop :=
  ∃ fields, j.fields? names = some fields ∧ fields[place]? = some (some value)

/-- The version or the correction of a record. -/
def RecordWindow (j window : Json) : Prop :=
  j.Field ["unique_id", "version", "correction", "payload"] 1 window ∨
    j.Field ["unique_id", "version", "correction", "payload"] 2 window

/-- The version or the correction of a record of a page. -/
def PageWindow (j window : Json) : Prop :=
  ∃ items, j.Field ["paging", "documents"] 1 (.array items) ∧
    ∃ item ∈ items, item.RecordWindow window

/-- A value bounds at most one interval. -/
theorem Bounds.unique {j : Json} {start start' : Instant} {stop stop' : Boundary}
    (bounds : j.Bounds start stop) (bounds' : j.Bounds start' stop') :
    start = start' ∧ stop = stop' := by
  obtain ⟨first, last, instant?, fields, starts, stops, rfl⟩ := bounds
  obtain ⟨first', last', instant?', fields', starts', stops', rfl⟩ := bounds'
  simp_all

end Json

/-- The intervals of a record. -/
def Record.intervals {α : Type} (r : Record α) : List Interval := [r.version, r.correction]

/-- The intervals of all records of a page. -/
def HistoryPage.intervals {α : Type} (page : HistoryPage α) : List Interval :=
  page.documents.flatMap Record.intervals

/-- A value is read as an interval exactly if it names the ends of one that is not empty. -/
theorem Interval.read?_eq_some_iff {j : Json} {i : Interval} :
    JsonForm.read? j = some i ↔ j.Bounds i.start i.stop := by
  constructor
  · intro read
    obtain ⟨fields, found, read⟩ := Option.bind_eq_some_iff.mp read
    split at read
    · rename_i first last
      simp only [Option.bind_eq_bind, Option.bind_eq_some_iff, Interval.between?_eq_some_iff]
        at read
      obtain ⟨start, starts, instant?, stops, rfl, ends⟩ := read
      exact ⟨first, last, instant?, found, starts, stops, ends⟩
    · cases read
  · rintro ⟨first, last, instant?, found, starts, stops, ends⟩
    change (j.fields? ["from", "to"]).bind _ = _
    rw [found]
    simp [starts, stops, Interval.between?_eq_some_iff, ends]

namespace JsonForm

/-- The intervals of what is read are the ones that stand in the value that is
read, and no others. -/
structure Checked (α : Type) [JsonForm α] (Window : Json → Json → Prop)
    (intervals : α → List Interval) : Prop where
  exists_window : ∀ j (a : α), read? j = some a →
    ∀ i ∈ intervals a, ∃ w, Window j w ∧ w.Bounds i.start i.stop
  exists_interval : ∀ j (a : α), read? j = some a →
    ∀ w, Window j w → ∃ i ∈ intervals a, w.Bounds i.start i.stop

/-- What is read from a text has no empty interval at any depth, and a text in which an empty or
inverted interval stands is refused. -/
structure Guarded (α : Type) [JsonForm α] (Window : Json → Json → Prop)
    (intervals : α → List Interval) : Prop where
  nonempty : ∀ t (a : α), ofText? t = some a → ∃ j, Json.parse? t = some j ∧
    ∀ i ∈ intervals a, .finite i.start < i.stop ∧ ∃ w, Window j w ∧ w.Bounds i.start i.stop
  refused : ∀ t j w start stop, Json.parse? t = some j → Window j w → w.Bounds start stop →
    stop ≤ .finite start → (ofText? t : Option α) = none

/-- If every interval of a value is bounded in its text, none of them can be empty. -/
theorem Checked.guarded {α : Type} [JsonForm α] {Window : Json → Json → Prop}
    {intervals : α → List Interval} (checked : Checked α Window intervals) :
    Guarded α Window intervals where
  nonempty t a accepted := by
    obtain ⟨j, parsed, read⟩ := Option.bind_eq_some_iff.mp accepted
    exact ⟨j, parsed, fun i member => ⟨i.start_lt_stop, checked.exists_window j a read i member⟩⟩
  refused t j w start stop parsed stands bounds empty := by
    rw [ofText?, parsed, Option.bind_some, Option.eq_none_iff_forall_not_mem]
    intro a read
    obtain ⟨i, -, bounds'⟩ := checked.exists_interval j a read w stands
    obtain ⟨rfl, rfl⟩ := bounds.unique bounds'
    exact absurd i.start_lt_stop empty.not_gt

theorem checked_interval : Checked Interval (fun j w => w = j) fun i => [i] where
  exists_window j i read i' member := by
    obtain rfl := List.mem_singleton.mp member
    exact ⟨j, rfl, Interval.read?_eq_some_iff.mp read⟩
  exists_interval j i read w stands := by
    subst stands
    exact ⟨i, List.mem_singleton_self i, Interval.read?_eq_some_iff.mp read⟩

variable {α : Type} [JsonForm α]

/-- The fields of a record that was read, and the bounds of its two intervals. -/
theorem fields_of_record {j : Json} {r : Record α} (read : read? j = some r) :
    ∃ id version correction payload,
      j.fields? ["unique_id", "version", "correction", "payload"] =
        some [id, some version, some correction, payload] ∧
      version.Bounds r.version.start r.version.stop ∧
      correction.Bounds r.correction.start r.correction.stop := by
  obtain ⟨fields, found, read⟩ := Option.bind_eq_some_iff.mp read
  split at read
  · simp only [Option.bind_eq_bind, Option.bind_eq_some_iff, Option.pure_def, Option.some.injEq,
      required] at read
    obtain ⟨id, -, version, ⟨v, rfl, versionRead⟩, correction, ⟨c, rfl, correctionRead⟩, payload,
        -, rfl⟩ := read
    exact ⟨_, v, c, _, found, Interval.read?_eq_some_iff.mp versionRead,
      Interval.read?_eq_some_iff.mp correctionRead⟩
  · cases read

theorem checked_record : Checked (Record α) Json.RecordWindow Record.intervals where
  exists_window j r read i member := by
    obtain ⟨id, v, c, payload, fields, version, correction⟩ := fields_of_record read
    simp only [Record.intervals, List.mem_cons, List.not_mem_nil, or_false] at member
    rcases member with rfl | rfl
    · exact ⟨v, .inl ⟨_, fields, rfl⟩, version⟩
    · exact ⟨c, .inr ⟨_, fields, rfl⟩, correction⟩
  exists_interval j r read w stands := by
    obtain ⟨id, v, c, payload, fields, version, correction⟩ := fields_of_record read
    rcases stands with ⟨fields', found, place⟩ | ⟨fields', found, place⟩
    · rw [fields] at found
      cases found
      cases place
      exact ⟨r.version, by simp [Record.intervals], version⟩
    · rw [fields] at found
      cases found
      cases place
      exact ⟨r.correction, by simp [Record.intervals], correction⟩

theorem documents_of_page {j : Json} {page : HistoryPage α} (read : read? j = some page) :
    ∃ paging items, j.fields? ["paging", "documents"] = some [paging, some (.array items)] ∧
      items.map read? = page.documents.map some := by
  obtain ⟨fields, found, read⟩ := Option.bind_eq_some_iff.mp read
  split at read
  · simp only [Option.bind_eq_bind, Option.bind_eq_some_iff, Option.pure_def, Option.some.injEq,
      required] at read
    obtain ⟨paging, -, documents, ⟨value, rfl, listed⟩, rfl⟩ := read
    cases value with
    | array items => exact ⟨_, items, found, map_of_mapM_eq_some listed⟩
    | _ => cases listed
  · cases read

theorem checked_page : Checked (HistoryPage α) Json.PageWindow HistoryPage.intervals where
  exists_window j page read i member := by
    obtain ⟨paging, items, fields, documents⟩ := documents_of_page read
    obtain ⟨r, listed, member⟩ := List.mem_flatMap.mp member
    have there : some r ∈ items.map read? := documents ▸ List.mem_map_of_mem listed
    obtain ⟨item, stored, read⟩ := List.mem_map.mp there
    obtain ⟨w, stands, bounds⟩ := checked_record.exists_window item r read i member
    exact ⟨w, ⟨items, ⟨_, fields, rfl⟩, item, stored, stands⟩, bounds⟩
  exists_interval j page read w stands := by
    obtain ⟨paging, items, fields, documents⟩ := documents_of_page read
    obtain ⟨items', ⟨fields', found, place⟩, item, stored, stands⟩ := stands
    rw [fields] at found
    cases found
    cases place
    have there : read? item ∈ page.documents.map some := documents ▸ List.mem_map_of_mem stored
    obtain ⟨r, listed, read⟩ := List.mem_map.mp there
    obtain ⟨i, member, bounds⟩ := checked_record.exists_interval item r read.symm w stands
    exact ⟨i, List.mem_flatMap.mpr ⟨r, listed, member⟩, bounds⟩

/-- Instants, boundaries, intervals, identities, coordinates, records, replacements and pages are
read back from their JSON texts, and so is whatever is read from any text.  An interval, a record
or a page is read only if no interval in the text is empty or inverted, at whatever depth. -/
theorem texts_exact :
    Lossless Instant (fun _ => True) ∧ Lossless Boundary (fun _ => True) ∧
      Lossless Interval (fun _ => True) ∧
    Lossless ObjectId (fun _ => True) ∧ Lossless RecordId (fun _ => True) ∧
    Lossless Coordinate (fun _ => True) ∧
    Lossless (Record String) (fun _ => True) ∧ Lossless (Replacement String) (fun _ => True) ∧
    Lossless Paging Paging.Fits ∧ Lossless (HistoryPage String) (fun page => page.paging.Fits) ∧
    Guarded Interval (fun j w => w = j) (fun i => [i]) ∧
    Guarded (Record String) Json.RecordWindow Record.intervals ∧
    Guarded (HistoryPage String) Json.PageWindow HistoryPage.intervals :=
  ⟨faithful_instant.lossless, faithful_boundary.lossless, faithful_interval.lossless,
    faithful_objectId.lossless, faithful_recordId.lossless, faithful_coordinate.lossless,
    (faithful_record faithful_string).lossless,
    (faithful_replacement faithful_string).lossless, faithful_paging.lossless,
    (faithful_page faithful_string).lossless,
    checked_interval.guarded, checked_record.guarded, checked_page.guarded⟩

end JsonForm

end Bitemporal
