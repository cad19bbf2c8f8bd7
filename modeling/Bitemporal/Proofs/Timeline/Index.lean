import Bitemporal.Proofs.Order
import Bitemporal.Proofs.Program
import Bitemporal.Timeline
import Mathlib.Data.List.Nodup
import Std.Data.String.ToNat

/-!
# The indexes of a timeline

A timeline keeps every record in commit order, and two indexes beside them.  `Timeline.Indexed`
says that the indexes and the records agree, and that identities number the records.  The two
primitive writes keep it:

* `Timeline.Indexed.closed_indexed`: one current record is superseded in place;
* `Timeline.Indexed.append_indexed`: one record is added, with a start that no current record has.

`Timeline.Indexed.closable_eq_ok_iff` says which records a batch may close.
-/

namespace Bitemporal

variable {α : Type}

/-! ## Superseded records -/

namespace Record

variable {r : Record α} {stamp : Instant}

/-- The record as superseded at `stamp`, or as it is if it was not recorded before that. -/
def supersede (stamp : Instant) (r : Record α) : Record α :=
  match r.close stamp with
  | .ok closed => closed
  | .error _ => r

theorem exists_close (recorded : r.correction.start < stamp) :
    ∃ window : Interval, r.close stamp = .ok { r with correction := window } ∧
      window.start = r.correction.start ∧ window.stop = .finite stamp := by
  let window : Interval := ⟨r.correction.start, .finite stamp, recorded⟩
  have closed : r.correction.withStop (.finite stamp) = .ok window :=
    Interval.between_eq_ok_iff.mpr ⟨rfl, rfl⟩
  refine ⟨window, ?_, rfl, rfl⟩
  rw [close, closed]
  rfl

/-- A record can be superseded at any instant after it was recorded. -/
theorem close_eq_ok (recorded : r.correction.start < stamp) :
    r.close stamp = .ok (r.supersede stamp) := by
  obtain ⟨window, closed, -⟩ := exists_close recorded
  rw [supersede, closed]

theorem supersede_stop (recorded : r.correction.start < stamp) :
    (r.supersede stamp).correction.stop = .finite stamp := by
  obtain ⟨window, closed, -, stop⟩ := exists_close recorded
  rw [supersede, closed]
  exact stop

/-- Superseding a record changes nothing but when it stops being believed. -/
theorem supersede_eq (stamp : Instant) (r : Record α) :
    ∃ window : Interval, r.supersede stamp = { r with correction := window } ∧
      window.start = r.correction.start := by
  by_cases recorded : r.correction.start < stamp
  · obtain ⟨window, closed, start, -⟩ := exists_close recorded
    exact ⟨window, by rw [supersede, closed], start⟩
  · have refused : ∃ fault, r.close stamp = .error fault := by
      rw [close, Interval.withStop]
      rw [Interval.between_eq_error_iff.mpr ⟨not_lt.mp recorded, rfl⟩]
      exact ⟨_, rfl⟩
    obtain ⟨fault, refused⟩ := refused
    exact ⟨r.correction, by rw [supersede, refused], rfl⟩

@[simp]
theorem supersede_id : (r.supersede stamp).id = r.id := by
  obtain ⟨window, shape, -⟩ := supersede_eq stamp r
  rw [shape]

@[simp]
theorem supersede_version : (r.supersede stamp).version = r.version := by
  obtain ⟨window, shape, -⟩ := supersede_eq stamp r
  rw [shape]

@[simp]
theorem supersede_payload : (r.supersede stamp).payload = r.payload := by
  obtain ⟨window, shape, -⟩ := supersede_eq stamp r
  rw [shape]

@[simp]
theorem supersede_start : (r.supersede stamp).correction.start = r.correction.start := by
  obtain ⟨window, shape, start⟩ := supersede_eq stamp r
  rw [shape]
  exact start

/-- A record is current if its correction interval has no end. -/
theorem isCurrent_iff : r.isCurrent = true ↔ r.correction.stop = .unbounded :=
  Boundary.eq_unbounded_iff

/-- A record is current if it was never superseded. -/
theorem supersededAt?_eq_none_iff : r.supersededAt? = none ↔ r.isCurrent = true := by
  rw [isCurrent_iff, supersededAt?]
  cases r.correction.stop with
  | finite instant => exact ⟨nofun, nofun⟩
  | unbounded => exact iff_of_true rfl rfl

theorem supersede_not_current (recorded : r.correction.start < stamp) :
    (r.supersede stamp).isCurrent = false := by
  rw [Bool.eq_false_iff, ne_eq, isCurrent_iff, supersede_stop recorded]
  exact Boundary.noConfusion

end Record

/-! ## Agreement of records and indexes -/

namespace Timeline

/-- The records are numbered in commit order, and both indexes agree with them. -/
structure Indexed (tl : Timeline α) : Prop where
  id_eq : ∀ {p : Nat} {r : Record α}, tl.records[p]? = some r →
    r.id = tl.object.atVersion (Nat.repr p)
  nextVersion_eq : tl.nextVersion = tl.records.length
  positions_iff : ∀ {id : RecordId} {p : Nat},
    tl.positions[id]? = some p ↔ ∃ r, tl.records[p]? = some r ∧ r.id = id
  active_iff : ∀ {start : Instant} {p : Nat},
    tl.active[start]? = some p ↔
    ∃ r, tl.records[p]? = some r ∧ r.isCurrent = true ∧ r.version.start = start

theorem Indexed.empty (object : ObjectId) : (empty object : Timeline α).Indexed where
  id_eq found := by simp [Timeline.empty] at found
  nextVersion_eq := rfl
  positions_iff := by simp [Timeline.empty]
  active_iff := by simp [Timeline.empty]

namespace Indexed

variable {tl : Timeline α} {r s : Record α} {p q : Nat} {id : RecordId} {stamp : Instant}

theorem position_eq (indexed : tl.Indexed) (left : tl.records[p]? = some r)
    (right : tl.records[q]? = some s) (same : r.id = s.id) : p = q := by
  rw [indexed.id_eq left, indexed.id_eq right] at same
  exact Nat.repr_inj.mp (RecordId.mk.inj same).2

/-- Current records start at different instants. -/
theorem position_eq_of_start (indexed : tl.Indexed) (left : tl.records[p]? = some r)
    (right : tl.records[q]? = some s) (leftCurrent : r.isCurrent = true)
    (rightCurrent : s.isCurrent = true) (same : r.version.start = s.version.start) : p = q := by
  have first := indexed.active_iff.mpr ⟨r, left, leftCurrent, rfl⟩
  have second := indexed.active_iff.mpr ⟨s, right, rightCurrent, rfl⟩
  rw [same, second] at first
  exact (Option.some.inj first).symm

theorem nodup_ids (indexed : tl.Indexed) : (tl.records.map Record.id).Nodup := by
  rw [List.nodup_iff_pairwise_ne, List.pairwise_map, List.pairwise_iff_getElem]
  intro p q hp hq order same
  exact order.ne (indexed.position_eq (List.getElem?_eq_getElem hp)
    (List.getElem?_eq_getElem hq) same)

theorem nodup (indexed : tl.Indexed) : tl.records.Nodup := indexed.nodup_ids.of_map

theorem eq_of_id_eq (indexed : tl.Indexed) (left : r ∈ tl.records) (right : s ∈ tl.records)
    (same : r.id = s.id) : r = s := by
  obtain ⟨p, left⟩ := List.mem_iff_getElem?.mp left
  obtain ⟨q, right⟩ := List.mem_iff_getElem?.mp right
  rw [indexed.position_eq left right same, right] at left
  exact (Option.some.inj left).symm

theorem object_eq (indexed : tl.Indexed) (stored : r ∈ tl.records) : r.id.object = tl.object := by
  obtain ⟨p, found⟩ := List.mem_iff_getElem?.mp stored
  rw [indexed.id_eq found]
  rfl

/-! ## Reads through the indexes -/

/-- A record is found by its identity exactly if it is stored. -/
theorem record?_eq_some_iff (indexed : tl.Indexed) :
    tl.record? id = some r ↔ r ∈ tl.records ∧ r.id = id := by
  rw [record?, Option.bind_eq_some_iff]
  constructor
  · intro h
    rcases h with ⟨p, position, found⟩
    obtain ⟨s, there, rfl⟩ := indexed.positions_iff.mp position
    rw [found] at there
    cases there
    exact ⟨List.mem_of_getElem? found, rfl⟩
  · intro h
    rcases h with ⟨stored, rfl⟩
    obtain ⟨p, found⟩ := List.mem_iff_getElem?.mp stored
    exact ⟨p, indexed.positions_iff.mpr ⟨r, found, rfl⟩, found⟩

/-- A record may be closed exactly if it is stored and current. -/
theorem closable_eq_ok_iff (indexed : tl.Indexed) :
    tl.closable id = .ok p ↔ ∃ r, tl.records[p]? = some r ∧ r.id = id ∧ r.isCurrent = true := by
  unfold closable
  constructor
  · intro accepted
    split at accepted
    · rename_i position positionFound
      obtain ⟨r, found, same⟩ := indexed.positions_iff.mp positionFound
      rw [found] at accepted
      dsimp only at accepted
      split at accepted
      · rename_i current
        cases accepted
        exact ⟨r, found, same, current⟩
      · cases accepted
    · cases accepted
  · intro h
    rcases h with ⟨r, found, same, current⟩
    simp [indexed.positions_iff.mpr ⟨r, found, same⟩, found, current]

/-- A record that is superseded already is not closed again. -/
theorem closable_of_superseded (indexed : tl.Indexed) (stored : r ∈ tl.records)
    (superseded : r.isCurrent = false) :
    tl.closable r.id = .error (.conflict tl.object (.superseded r.id)) := by
  obtain ⟨p, found⟩ := List.mem_iff_getElem?.mp stored
  rw [closable, indexed.positions_iff.mpr ⟨r, found, rfl⟩]
  dsimp only
  rw [found]
  dsimp only
  rw [superseded]
  rfl

theorem closable_of_unknown (indexed : tl.Indexed) (unknown : ∀ r ∈ tl.records, r.id ≠ id) :
    tl.closable id = .error (.conflict tl.object (.unknownRecord id)) := by
  have absent : tl.positions[id]? = none := by
    refine Option.eq_none_iff_forall_not_mem.mpr fun p found => ?_
    obtain ⟨r, there, same⟩ := indexed.positions_iff.mp found
    exact unknown r (List.mem_of_getElem? there) same
  rw [closable, absent]

/-- The index of current records lists just these, each under the start of its version. -/
theorem mem_active_toList (indexed : tl.Indexed) {entry : Instant × Nat} :
    entry ∈ tl.active.toList ↔
      ∃ r, tl.records[entry.2]? = some r ∧ r.isCurrent = true ∧ r.version.start = entry.1 := by
  rw [← indexed.active_iff, ← Std.ExtTreeMap.mem_toList_iff_getElem?_eq_some]

/-- The index of current records lists them by ascending start. -/
theorem activeRecords_ascend (indexed : tl.Indexed) :
    tl.activeRecords.Pairwise (fun r s => r.version.start < s.version.start) := by
  rw [activeRecords, List.pairwise_filterMap]
  refine (Std.ExtTreeMap.ordered_keys_toList (t := tl.active)).imp_of_mem ?_
  intro left right leftListed rightListed order r found s found'
  obtain ⟨r', there, -, start⟩ := indexed.mem_active_toList.mp leftListed
  obtain ⟨s', there', -, start'⟩ := indexed.mem_active_toList.mp rightListed
  rw [found] at there
  rw [found'] at there'
  cases there
  cases there'
  rw [start, start']
  exact compare_lt_iff_lt.mp order

/-- The records that the index leads to are the current ones. -/
theorem mem_activeRecords (indexed : tl.Indexed) :
    r ∈ tl.activeRecords ↔ r ∈ tl.records ∧ r.isCurrent = true := by
  rw [activeRecords, List.mem_filterMap]
  constructor
  · intro h
    rcases h with ⟨entry, listed, found⟩
    obtain ⟨s, there, current, -⟩ := indexed.mem_active_toList.mp listed
    rw [found] at there
    cases there
    exact ⟨List.mem_of_getElem? found, current⟩
  · intro h
    rcases h with ⟨stored, current⟩
    obtain ⟨p, found⟩ := List.mem_iff_getElem?.mp stored
    exact ⟨(r.version.start, p), indexed.mem_active_toList.mpr ⟨r, found, current, rfl⟩, found⟩

/-- The index of current records leads to each of them once. -/
theorem activeRecords_perm (indexed : tl.Indexed) :
    tl.activeRecords.Perm (tl.records.filter Record.isCurrent) := by
  refine (List.perm_ext_iff_of_nodup ?_ (indexed.nodup.filter _)).mpr fun r => ?_
  · refine indexed.activeRecords_ascend.imp fun order same => ?_
    rw [same] at order
    exact lt_irrefl _ order
  · rw [indexed.mem_activeRecords, List.mem_filter]

/-! ## Primitive writes -/

/-- The timeline with the record `r` at position `p` superseded. -/
def closed (tl : Timeline α) (stamp : Instant) (p : Nat) (r : Record α) : Timeline α :=
  { tl with
    records := tl.records.set p (r.supersede stamp)
    active := tl.active.erase r.version.start }

/-- A record that was recorded before the stamp is closed without fault. -/
theorem closeAt_eq_ok (found : tl.records[p]? = some r) (recorded : r.correction.start < stamp) :
    (Timeline.closeAt stamp p).run tl = .ok () (closed tl stamp p r) := by
  rw [Timeline.closeAt, EStateM.run_bind, EStateM.run_get]
  dsimp only
  rw [found]
  dsimp only
  rw [EStateM.run_bind, EStateM.run_modify]
  dsimp only
  rw [EStateM.run_bind, Record.close_eq_ok recorded]
  rfl

/-- Superseding a current record keeps records and indexes in agreement. -/
theorem closed_indexed (indexed : tl.Indexed) (found : tl.records[p]? = some r)
    (current : r.isCurrent = true) (recorded : r.correction.start < stamp) :
    (closed tl stamp p r).Indexed where
  id_eq {q s} there := by
    rw [closed, List.getElem?_set] at there
    split at there
    · rename_i here
      split at there
      · cases there
        rw [Record.supersede_id, indexed.id_eq found, here]
        rfl
      · cases there
    · exact indexed.id_eq there
  nextVersion_eq := by
    rw [closed, List.length_set]
    exact indexed.nextVersion_eq
  positions_iff {id q} := by
    rw [closed, indexed.positions_iff, List.getElem?_set]
    split
    · rename_i here
      subst here
      have inside := (List.getElem?_eq_some_iff.mp found).1
      rw [List.getElem?_eq_getElem inside, Option.some.injEq] at found
      simp [found, inside]
    · rfl
  active_iff {start q} := by
    rw [closed, Std.ExtTreeMap.getElem?_erase, List.getElem?_set]
    simp only [Std.compare_eq_iff_eq]
    by_cases here : p = q
    · subst here
      have inside := (List.getElem?_eq_some_iff.mp found).1
      constructor
      · intro listed
        split at listed
        · cases listed
        · rename_i elsewhere
          obtain ⟨s, there, -, start⟩ := indexed.active_iff.mp listed
          rw [found] at there
          cases there
          exact absurd start elsewhere
      · simp [inside, Record.supersede_not_current recorded]
    · rw [if_neg here, ← indexed.active_iff]
      split
      · rename_i same
        -- The erased start is that of `r` alone.
        constructor
        · intro impossible
          cases impossible
        · intro listed
          obtain ⟨s, there, alsoCurrent, start⟩ := indexed.active_iff.mp listed
          exact absurd (indexed.position_eq_of_start found there current alsoCurrent
            (same.trans start.symm)) here
      · rfl

theorem write_eq_ok {pending : Pending α} :
    (Timeline.write stamp pending).run tl =
      .ok (tl.stamped stamp pending) (tl.append (tl.stamped stamp pending)) := rfl

theorem getElem?_append_eq_some_iff {last : Record α} :
    (tl.append last).records[p]? = some r ↔
      tl.records[p]? = some r ∨ p = tl.records.length ∧ last = r := by
  rw [Timeline.append, List.getElem?_append]
  split
  · rename_i inside
    simp [inside.ne]
  · rename_i outside
    rw [List.getElem?_eq_none (not_lt.mp outside), List.getElem?_singleton]
    have here : p - tl.records.length = 0 ↔ p = tl.records.length := by omega
    simp [here]

/-- Adding a record that starts where no current record does keeps records and indexes in
agreement. -/
theorem append_indexed (indexed : tl.Indexed) {pending : Pending α}
    (free : ∀ r ∈ tl.records, r.isCurrent = true → r.version.start ≠ pending.version.start) :
    (tl.append (tl.stamped stamp pending)).Indexed where
  id_eq {q s} there := by
    rcases getElem?_append_eq_some_iff.mp there with old | ⟨rfl, rfl⟩
    · exact indexed.id_eq old
    · rw [stamped, indexed.nextVersion_eq]
      rfl
  nextVersion_eq := by
    rw [Timeline.append, List.length_append, indexed.nextVersion_eq]
    rfl
  positions_iff {id q} := by
    have last : (tl.stamped stamp pending).id =
        tl.object.atVersion (Nat.repr tl.records.length) := by
      rw [stamped, indexed.nextVersion_eq]
    simp only [getElem?_append_eq_some_iff]
    rw [Timeline.append, Std.ExtTreeMap.getElem?_insert]
    simp only [Std.compare_eq_iff_eq]
    split
    · rename_i new
      constructor
      · intro listed
        cases listed
        exact ⟨_, .inr ⟨rfl, rfl⟩, new⟩
      · intro h
        rcases h with ⟨r, old | ⟨rfl, -⟩, same⟩
        · -- An older record has an older number.
          have number := indexed.id_eq old
          rw [same, ← new, last] at number
          have inside := (List.getElem?_eq_some_iff.mp old).1
          exact absurd (Nat.repr_inj.mp (RecordId.mk.inj number).2) inside.ne'
        · rfl
    · rename_i old
      rw [indexed.positions_iff]
      constructor
      · intro h
        rcases h with ⟨r, there, same⟩
        exact ⟨r, .inl there, same⟩
      · intro h
        rcases h with ⟨r, there | ⟨-, rfl⟩, same⟩
        · exact ⟨r, there, same⟩
        · exact absurd same old
  active_iff {start q} := by
    simp only [getElem?_append_eq_some_iff]
    rw [Timeline.append, Std.ExtTreeMap.getElem?_insert]
    simp only [Std.compare_eq_iff_eq]
    split
    · rename_i new
      constructor
      · intro listed
        cases listed
        exact ⟨_, .inr ⟨rfl, rfl⟩, rfl, new⟩
      · intro h
        rcases h with ⟨r, old | ⟨rfl, -⟩, current, same⟩
        · exact absurd (same.trans new.symm) (free r (List.mem_of_getElem? old) current)
        · rfl
    · rename_i old
      rw [indexed.active_iff]
      constructor
      · intro h
        rcases h with ⟨r, there, current, same⟩
        exact ⟨r, .inl there, current, same⟩
      · intro h
        rcases h with ⟨r, there | ⟨-, rfl⟩, current, same⟩
        · exact ⟨r, there, current, same⟩
        · exact absurd same old

end Indexed

end Timeline

end Bitemporal
