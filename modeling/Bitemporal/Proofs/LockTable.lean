import Bitemporal.LockTable
import Mathlib.Data.List.Dedup

/-!
# Lock tables

A table is sound (`LockTable.Sound`) if it lists every object once and only locks of listed
objects are held.  A handle is then the place of its object in the list, so it is the handle of no
other object, and what is done to the lock of one object leaves the locks of all others as they
were (`LockTable.Sound.holds_tryLock_iff`, `LockTable.Sound.holds_release_iff`).
-/

namespace Bitemporal.LockTable

variable {t : LockTable} {object other : ObjectId} {handle handle' : LockHandle}

/-- Every object is listed once, and every held lock is the lock of a listed object. -/
structure Sound (t : LockTable) : Prop where
  nodup : t.objects.Nodup
  held_lt : ∀ handle ∈ t.held, handle.index < t.objects.length

/-- A handle is the lock of an object. -/
def Names (t : LockTable) (handle : LockHandle) (object : ObjectId) : Prop :=
  t.objects[handle.index]? = some object

/-- The lock of an object is held. -/
def Holds (t : LockTable) (object : ObjectId) : Prop := ∃ handle ∈ t.held, t.Names handle object

theorem Names.object_eq (names : t.Names handle object) (names' : t.Names handle other) :
    object = other :=
  Option.some.inj (names.symm.trans names')

/-- An object has no lock until one is made. -/
theorem handle?_eq_none_iff : t.handle? object = none ↔ object ∉ t.objects := by
  rw [handle?, Option.map_eq_none_iff, List.findIdx?_eq_none_iff]
  constructor
  · intro absent listed
    simpa using absent object listed
  · intro absent other listed
    exact decide_eq_false fun same => absent (same ▸ listed)

theorem Sound.empty : LockTable.empty.Sound where
  nodup := .nil
  held_lt _ holds := nomatch holds

theorem not_holds_empty : ¬ LockTable.empty.Holds object := fun ⟨_, holds, _⟩ => nomatch holds

theorem Holds.mem (holds : t.Holds object) : object ∈ t.objects := by
  obtain ⟨handle, -, names⟩ := holds
  exact List.mem_of_getElem? names

theorem isHeld_iff : t.isHeld handle = true ↔ handle ∈ t.held := by
  rw [isHeld, List.contains_iff_mem]

namespace Sound

theorem handle_eq (sound : t.Sound) (names : t.Names handle object)
    (names' : t.Names handle' object) : handle = handle' := by
  have bound : handle.index < t.objects.length := (List.getElem?_eq_some_iff.mp names).1
  have same : handle.index = handle'.index :=
    (List.getElem?_inj bound sound.nodup).mp (names.trans names'.symm)
  cases handle
  cases handle'
  exact congrArg LockHandle.mk same

theorem handle?_eq_some_iff (sound : t.Sound) :
    t.handle? object = some handle ↔ t.Names handle object := by
  cases found : t.handle? object with
  | none =>
    have absent := handle?_eq_none_iff.mp found
    refine iff_of_false nofun fun names => absent ?_
    exact List.mem_of_getElem? names
  | some own =>
    obtain ⟨index, first, rfl⟩ := Option.map_eq_some_iff.mp found
    have names : t.Names ⟨index⟩ object := by
      obtain ⟨bound, same, -⟩ := List.findIdx?_eq_some_iff_getElem.mp first
      exact List.getElem?_eq_some_iff.mpr ⟨bound, of_decide_eq_true same⟩
    constructor
    · rintro ⟨⟩
      exact names
    · intro names'
      rw [sound.handle_eq names names']

/-- An object is held if its lock is. -/
theorem holds_iff_of_names (sound : t.Sound) (names : t.Names handle object) :
    t.Holds object ↔ handle ∈ t.held := by
  constructor
  · rintro ⟨own, holds, names'⟩
    rwa [sound.handle_eq names names']
  · intro holds
    exact ⟨handle, holds, names⟩

/-- The size of a table is the number of different objects in it. -/
theorem size_eq (sound : t.Sound) {ids : List ObjectId}
    (listed : ∀ object, object ∈ t.objects ↔ object ∈ ids) : t.size = ids.dedup.length := by
  refine List.Perm.length_eq
    ((List.perm_ext_iff_of_nodup sound.nodup ids.nodup_dedup).mpr fun object => ?_)
  rw [listed, List.mem_dedup]

/-- No lock is held if that of no object is. -/
theorem held_eq_nil (sound : t.Sound) (free : ∀ object, ¬ t.Holds object) : t.held = [] := by
  rw [List.eq_nil_iff_forall_not_mem]
  intro handle holds
  exact free _ ⟨handle, holds, List.getElem?_eq_getElem (sound.held_lt handle holds)⟩

end Sound

/-! ## Fetching a lock -/

/-- An object that has a lock gets that one, and the table stays as it is. -/
theorem Sound.lockFor_of_names (sound : t.Sound) (names : t.Names handle object) :
    t.lockFor object = (handle, t) := by
  rw [lockFor, sound.handle?_eq_some_iff.mpr names]

/-- The table `t'` with the lock of an object, which is listed last if it
was not listed in `t`. -/
structure Fetched (t : LockTable) (object : ObjectId) (handle : LockHandle) (t' : LockTable) :
    Prop where
  sound : t'.Sound
  names : t'.Names handle object
  mem_iff : ∀ other, other ∈ t'.objects ↔ other ∈ t.objects ∨ other = object
  names_of_names : ∀ handle other, t.Names handle other → t'.Names handle other
  held_eq : t'.held = t.held

namespace Sound

/-- Every object gets a lock, which it has from then on. -/
theorem fetched (sound : t.Sound) (object : ObjectId) :
    t.Fetched object (t.lockFor object).1 (t.lockFor object).2 := by
  unfold lockFor
  cases found : t.handle? object with
  | some handle =>
    have names := sound.handle?_eq_some_iff.mp found
    refine ⟨sound, names, fun other => ?_, fun _ _ names => names, rfl⟩
    refine (or_iff_left_of_imp ?_).symm
    rintro rfl
    exact List.mem_of_getElem? names
  | none =>
    have absent := handle?_eq_none_iff.mp found
    constructor
    · constructor
      · exact List.nodup_append.mpr ⟨sound.nodup, List.nodup_singleton _, by grind⟩
      · intro handle holds
        have bound := sound.held_lt handle holds
        simp only [List.length_append, List.length_singleton]
        omega
    · simp [Names]
    · simp
    · intro handle other names
      have bound : handle.index < t.objects.length := (List.getElem?_eq_some_iff.mp names).1
      exact (List.getElem?_append_left bound).trans names
    · rfl

end Sound

/-- Getting a lock takes none and frees none. -/
theorem Fetched.holds_iff {t' : LockTable} (fetched : t.Fetched object handle t')
    (sound : t.Sound) : t'.Holds other ↔ t.Holds other := by
  unfold Holds
  rw [fetched.held_eq]
  refine exists_congr fun own =>
    and_congr_right fun holds => ⟨fun names => ?_, fetched.names_of_names own other⟩
  -- The lock was held before, so it was named before, and by the same object.
  have bound : own.index < t.objects.length := sound.held_lt own holds
  have named : t.Names own t.objects[own.index] := List.getElem?_eq_getElem bound
  rwa [(fetched.names_of_names own _ named).object_eq names] at named

/-! ## Taking and freeing a lock -/

theorem objects_tryLock (t : LockTable) (handle : LockHandle) :
    (t.tryLock handle).2.objects = t.objects := by
  unfold tryLock
  split <;> rfl

theorem objects_release (t : LockTable) (handle : LockHandle) :
    (t.release handle).objects = t.objects := rfl

namespace Sound

theorem tryLock (sound : t.Sound) (names : t.Names handle object) :
    (t.tryLock handle).2.Sound := by
  unfold LockTable.tryLock
  split
  · exact sound
  · refine ⟨sound.nodup, fun own holds => ?_⟩
    rcases List.mem_cons.mp holds with rfl | holds
    · exact (List.getElem?_eq_some_iff.mp names).1
    · exact sound.held_lt own holds

/-- A lock can be taken exactly if it is free. -/
theorem tryLock_eq_true_iff (sound : t.Sound) (names : t.Names handle object) :
    (t.tryLock handle).1 = true ↔ ¬ t.Holds object := by
  rw [sound.holds_iff_of_names names, ← isHeld_iff]
  unfold LockTable.tryLock
  split <;> simp_all

/-- Taking the lock of an object takes no other lock. -/
theorem holds_tryLock_iff (sound : t.Sound) (names : t.Names handle object) :
    (t.tryLock handle).2.Holds other ↔ other = object ∨ t.Holds other := by
  by_cases holds : t.isHeld handle = true
  · have own : t.Holds object := (sound.holds_iff_of_names names).mpr (isHeld_iff.mp holds)
    rw [LockTable.tryLock, if_pos holds]
    refine (or_iff_right_of_imp ?_).symm
    rintro rfl
    exact own
  · rw [LockTable.tryLock, if_neg holds]
    constructor
    · rintro ⟨own, taken, names'⟩
      rcases List.mem_cons.mp taken with rfl | held
      · exact .inl (Names.object_eq names' names)
      · exact .inr ⟨own, held, names'⟩
    · rintro (rfl | ⟨own, held, names'⟩)
      · exact ⟨handle, List.mem_cons_self, names⟩
      · exact ⟨own, List.mem_cons_of_mem _ held, names'⟩

theorem release (sound : t.Sound) (handle : LockHandle) : (t.release handle).Sound :=
  ⟨sound.nodup, fun own holds => sound.held_lt own (List.mem_filter.mp holds).1⟩

/-- Freeing the lock of an object frees no other lock. -/
theorem holds_release_iff (sound : t.Sound) (names : t.Names handle object) :
    (t.release handle).Holds other ↔ other ≠ object ∧ t.Holds other := by
  constructor
  · rintro ⟨own, kept, names'⟩
    obtain ⟨held, different⟩ := List.mem_filter.mp kept
    refine ⟨?_, own, held, names'⟩
    rintro rfl
    exact of_decide_eq_true different (sound.handle_eq names' names)
  · rintro ⟨different, own, held, names'⟩
    refine ⟨own, List.mem_filter.mpr ⟨held, decide_eq_true ?_⟩, names'⟩
    rintro rfl
    exact different (Names.object_eq names' names)

end Sound

end Bitemporal.LockTable
