import Bitemporal.Proofs.LockTable

/-!
# Mutual exclusion

Callers share one lock table.  They fetch handles for objects, try the handles that they have and
release them, in any order and any number of times.  A handle is named by its place among the
handles that were fetched.

A fetch looks its object up first and makes the lock only if there is none, and other callers may
move in between.  So finding a lock that is there is a move of its own (`LockMove.find`), beside
the whole fetch (`LockMove.fetch`), with which a caller goes on that found nothing.

`LockUse.run` plays a list of moves and keeps a log.  The log alone says which handles hold
(`LockEvent.Holds`): those that took their lock and whose object saw no release since.  Every move
keeps the table in agreement with its log (`LockUse.Coherent.step`), and `LockUse.locks_exclude`
draws the conclusions.
-/

namespace Bitemporal

/-! ## What happened at a table -/

/-- What callers did with a lock table, and what it answered. -/
inductive LockEvent where
  /-- A handle of an object was fetched, and this is its lock. -/
  | fetched (object : ObjectId) (lock : LockHandle)
  /-- A handle of an object was tried, and it took its lock or not. -/
  | tried (handle : Nat) (object : ObjectId) (took : Bool)
  /-- A handle of an object was released. -/
  | released (handle : Nat) (object : ObjectId)
deriving DecidableEq

namespace LockEvent

/-- The object and the lock of a handle that was fetched. -/
@[simp]
def fetched? : LockEvent → Option (ObjectId × LockHandle)
  | fetched object lock => some (object, lock)
  | _ => none

/-- The handles that were fetched, in order: the object of each, and its lock. -/
def fetches (log : List LockEvent) : List (ObjectId × LockHandle) := log.filterMap fetched?

/-- A handle of an object holds: it took its lock, and no handle of the object was released since.
A release frees the lock whoever took it.  Where callers release only what they hold, it is the
handle itself that must not be released. -/
def Holds (log : List LockEvent) (handle : Nat) (object : ObjectId) : Prop :=
  ∃ before after, log = before ++ .tried handle object true :: after ∧
    ∀ other, .released other object ∉ after

variable {log : List LockEvent} {event : LockEvent} {handle other : Nat} {object own : ObjectId}
    {lock : LockHandle}
  {took : Bool}

@[simp]
theorem fetches_append (log later : List LockEvent) :
    fetches (log ++ later) = fetches log ++ fetches later :=
  List.filterMap_append

@[simp]
theorem fetches_singleton (event : LockEvent) : fetches [event] = event.fetched?.toList := by
  cases event <;> rfl

theorem not_holds_nil : ¬ Holds [] handle object := by
  intro holds
  obtain ⟨before, after, split, -⟩ := holds
  exact List.append_ne_nil_of_right_ne_nil before (List.cons_ne_nil _ _) split.symm

theorem holds_concat_iff : Holds (log ++ [event]) handle object ↔
    event = .tried handle object true ∨ Holds log handle object ∧
    ∀ other, event ≠ .released other object := by
  refine ⟨fun holds => ?_, fun kept => ?_⟩
  · obtain ⟨before, after, split, kept⟩ := holds
    rcases List.eq_nil_or_concat' after with rfl | ⟨earlier, last, rfl⟩
    · exact .inl (List.cons.inj (List.append_inj' split rfl).2).1
    · rw [← List.cons_append, ← List.append_assoc] at split
      obtain ⟨rfl, same⟩ := List.append_inj' split rfl
      obtain rfl := (List.cons.inj same).1
      refine .inr ⟨⟨before, earlier, rfl, fun other within => kept other ?_⟩,
        fun other same => kept other ?_⟩
      · exact List.mem_append_left _ within
      · exact List.mem_append_right _ (List.mem_singleton.mpr same.symm)
  · rcases kept with rfl | ⟨⟨before, after, rfl, kept⟩, different⟩
    · exact ⟨log, [], rfl, fun _ => List.not_mem_nil⟩
    · refine ⟨before, after ++ [event], List.append_assoc _ _ _, fun other within => ?_⟩
      rcases List.mem_append.mp within with within | within
      · exact kept other within
      · exact different other (List.mem_singleton.mp within).symm

theorem holds_fetched_iff :
    Holds (log ++ [.fetched own lock]) handle object ↔ Holds log handle object := by
  simp [holds_concat_iff]

/-- A try adds at most the handle that was tried to those that hold. -/
theorem holds_tried_iff : Holds (log ++ [.tried other own took]) handle object ↔
    (other = handle ∧ own = object ∧ took = true) ∨ Holds log handle object := by
  simp [holds_concat_iff]

/-- After a try a handle of its object holds: the one that was tried, or the one
that was in its way. -/
theorem exists_holds_tried_iff (free : took = true ↔ ¬ ∃ handle, Holds log handle own) :
    (∃ handle, Holds (log ++ [.tried other own took]) handle object) ↔
      object = own ∨ ∃ handle, Holds log handle object := by
  refine ⟨fun after => ?_, fun before => ?_⟩
  · obtain ⟨handle, holds⟩ := after
    rcases holds_tried_iff.mp holds with ⟨-, rfl, -⟩ | holds
    · exact .inl rfl
    · exact .inr ⟨handle, holds⟩
  · rcases before with rfl | ⟨handle, holds⟩
    · by_cases held : ∃ handle, Holds log handle object
      · obtain ⟨handle, holds⟩ := held
        exact ⟨handle, holds_tried_iff.mpr (.inr holds)⟩
      · exact ⟨other, holds_tried_iff.mpr (.inl ⟨rfl, rfl, free.mpr held⟩)⟩
    · exact ⟨handle, holds_tried_iff.mpr (.inr holds)⟩

/-- After a release no handle of its object holds. -/
theorem holds_released_iff : Holds (log ++ [.released other own]) handle object ↔
    Holds log handle object ∧ own ≠ object := by
  simp [holds_concat_iff]

end LockEvent

/-! ## Moves of callers -/

/-- What a caller does next. -/
inductive LockMove where
  /-- Get a handle of an object if the table has its lock.  A caller that finds none
  goes on to `fetch`. -/
  | find (object : ObjectId)
  /-- Get a handle of an object, whose lock is made if the table has none. -/
  | fetch (object : ObjectId)
  /-- Take the lock of a handle if it is free. -/
  | tryLock (handle : Nat)
  /-- Free the lock of a handle. -/
  | release (handle : Nat)

/-- A lock table, and what happened at it. -/
structure LockUse where
  table : LockTable
  log : List LockEvent

namespace LockUse

open LockEvent

/-- A table without locks, at which nothing happened yet. -/
def opened : LockUse := ⟨.empty, []⟩

/-- One move.  A move with a handle that was not fetched does nothing. -/
def step (u : LockUse) : LockMove → LockUse
  | .find object =>
    match u.table.handle? object with
    | some lock => { u with log := u.log ++ [.fetched object lock] }
    | none => u
  | .fetch object =>
    let (lock, table) := u.table.lockFor object
    ⟨table, u.log ++ [.fetched object lock]⟩
  | .tryLock handle =>
    match (fetches u.log)[handle]? with
    | some (object, lock) =>
      let (took, table) := u.table.tryLock lock
      ⟨table, u.log ++ [.tried handle object took]⟩
    | none => u
  | .release handle =>
    match (fetches u.log)[handle]? with
    | some (object, lock) => ⟨u.table.release lock, u.log ++ [.released handle object]⟩
    | none => u

/-- What moves lead to. -/
def run (u : LockUse) (moves : List LockMove) : LockUse := moves.foldl step u

/-- What one move leads to. -/
inductive Becomes (u : LockUse) : LockUse → Prop
  | idle : Becomes u u
  | fetched (object : ObjectId) :
    Becomes u ⟨(u.table.lockFor object).2, u.log ++ [.fetched object (u.table.lockFor object).1]⟩
  | tried {handle : Nat} {object : ObjectId} {lock : LockHandle}
    (given : (fetches u.log)[handle]? = some (object, lock)) :
    Becomes u ⟨(u.table.tryLock lock).2, u.log ++ [.tried handle object (u.table.tryLock lock).1]⟩
  | released {handle : Nat} {object : ObjectId} {lock : LockHandle}
    (given : (fetches u.log)[handle]? = some (object, lock)) :
    Becomes u ⟨u.table.release lock, u.log ++ [.released handle object]⟩

variable {u u' : LockUse} {object : ObjectId} {lock : LockHandle} {handle : Nat}

/-- Every move of a caller is one of the four that a table sees. -/
theorem becomes_step (u : LockUse) (move : LockMove) : u.Becomes (u.step move) := by
  cases move with
  | find object =>
    -- To find a lock is to fetch it from a table that has it.
    have fetched : u.Becomes (u.step (.fetch object)) := .fetched object
    cases found : u.table.handle? object with
    | none => simpa only [step, found] using Becomes.idle
    | some lock => simpa only [step, LockTable.lockFor, found] using fetched
  | fetch object => exact .fetched object
  | tryLock handle =>
    cases given : (fetches u.log)[handle]? with
    | none => simpa only [step, given] using Becomes.idle
    | some own => simpa only [step, given] using Becomes.tried given
  | release handle =>
    cases given : (fetches u.log)[handle]? with
    | none => simpa only [step, given] using Becomes.idle
    | some own => simpa only [step, given] using Becomes.released given

/-- A move adds to the log and takes nothing back. -/
theorem Becomes.exists_log (becomes : u.Becomes u') : ∃ later, u'.log = u.log ++ later := by
  cases becomes with
  | idle => exact ⟨[], (List.append_nil _).symm⟩
  | fetched object => exact ⟨_, rfl⟩
  | tried given => exact ⟨_, rfl⟩
  | released given => exact ⟨_, rfl⟩

theorem exists_log_run (u : LockUse) (moves : List LockMove) :
    ∃ later, (u.run moves).log = u.log ++ later := by
  induction moves generalizing u with
  | nil => exact ⟨[], (List.append_nil _).symm⟩
  | cons move rest ih =>
    obtain ⟨now, first⟩ := (u.becomes_step move).exists_log
    obtain ⟨later, rest⟩ := ih (u.step move)
    exact ⟨now ++ later, rest.trans (by rw [first, List.append_assoc])⟩

theorem run_append (u : LockUse) (moves later : List LockMove) :
    u.run (moves ++ later) = (u.run moves).run later :=
  List.foldl_append

/-! ## The table and its log -/

/-- A table agrees with its log: it has one lock for each object of which a handle was fetched,
and each handle is the lock of its object.  A lock is held exactly if a handle of its object
holds.  Only handles that were fetched hold, each for its object, and no two of one object do. -/
structure Coherent (u : LockUse) : Prop where
  sound : u.table.Sound
  names : ∀ object lock, (object, lock) ∈ fetches u.log → u.table.Names lock object
  listed : ∀ object, object ∈ u.table.objects ↔ object ∈ (fetches u.log).map Prod.fst
  holds : ∀ object, u.table.Holds object ↔ ∃ handle, Holds u.log handle object
  holder : ∀ object handle, Holds u.log handle object →
    ∃ lock, (fetches u.log)[handle]? = some (object, lock)
  unique : ∀ object handle handle', Holds u.log handle object → Holds u.log handle' object →
    handle = handle'

namespace Coherent

theorem opened : LockUse.opened.Coherent where
  sound := .empty
  names _ _ fetched := nomatch fetched
  listed _ := Iff.rfl
  holds _ := iff_of_false LockTable.not_holds_empty fun ⟨_, holds⟩ => not_holds_nil holds
  holder _ _ holds := (not_holds_nil holds).elim
  unique _ _ _ holds := (not_holds_nil holds).elim

theorem names_of_getElem? (coherent : u.Coherent)
    (given : (fetches u.log)[handle]? = some (object, lock)) :
    u.table.Names lock object := coherent.names object lock (List.mem_of_getElem? given)

/-- The lock of a handle can be taken exactly if no handle of its object holds. -/
theorem tryLock_eq_true_iff (coherent : u.Coherent)
    (given : (fetches u.log)[handle]? = some (object, lock)) :
    (u.table.tryLock lock).1 = true ↔ ¬ ∃ other, Holds u.log other object := by
  rw [coherent.sound.tryLock_eq_true_iff (coherent.names_of_getElem? given), coherent.holds]

/-- A fetch keeps a table in agreement with its log. -/
theorem fetched (coherent : u.Coherent) (object : ObjectId) :
    (LockUse.mk (u.table.lockFor object).2
      (u.log ++ [.fetched object (u.table.lockFor object).1])).Coherent := by
  have fetched := coherent.sound.fetched object
  refine ⟨fetched.sound, fun other lock member => ?_, fun other => ?_, fun other => ?_,
    fun other handle holds => ?_, fun other first second holds holds' => ?_⟩
  · rw [fetches_append, List.mem_append] at member
    rcases member with member | member
    · exact fetched.names_of_names lock other (coherent.names other lock member)
    · obtain ⟨rfl, rfl⟩ := Prod.mk.inj (List.mem_singleton.mp member)
      exact fetched.names
  · rw [fetched.mem_iff, coherent.listed, fetches_append, List.map_append, List.mem_append]
    exact or_congr_right List.mem_singleton.symm
  · simp only [fetched.holds_iff coherent.sound, holds_fetched_iff, coherent.holds]
  · obtain ⟨lock, given⟩ := coherent.holder other handle (holds_fetched_iff.mp holds)
    have bound := (List.getElem?_eq_some_iff.mp given).1
    exact ⟨lock, by rw [fetches_append, List.getElem?_append_left bound, given]⟩
  · exact coherent.unique other first second (holds_fetched_iff.mp holds)
      (holds_fetched_iff.mp holds')

theorem tried (coherent : u.Coherent) (given : (fetches u.log)[handle]? = some (object, lock)) :
    (LockUse.mk (u.table.tryLock lock).2
      (u.log ++ [.tried handle object (u.table.tryLock lock).1])).Coherent := by
  have names := coherent.names_of_getElem? given
  have took := coherent.tryLock_eq_true_iff given
  have objects := u.table.objects_tryLock lock
  have fetches_eq : fetches (u.log ++ [.tried handle object (u.table.tryLock lock).1]) =
      fetches u.log := by simp
  refine ⟨coherent.sound.tryLock names, ?_, ?_, fun other => ?_, fun other own holds => ?_,
    fun other first second holds holds' => ?_⟩
  · simpa only [fetches_eq, LockTable.Names, objects] using coherent.names
  · simpa only [fetches_eq, objects] using coherent.listed
  · rw [coherent.sound.holds_tryLock_iff names, coherent.holds, exists_holds_tried_iff took]
  · rw [fetches_eq]
    rcases holds_tried_iff.mp holds with ⟨rfl, rfl, -⟩ | holds
    · exact ⟨lock, given⟩
    · exact coherent.holder other own holds
  · rw [holds_tried_iff, took] at holds holds'
    -- Only a lock that nobody holds is taken, so whoever takes it is the only holder.
    rcases holds with ⟨rfl, rfl, free⟩ | holds <;> rcases holds' with ⟨rfl, same, free⟩ | holds'
    · rfl
    · exact (free ⟨second, holds'⟩).elim
    · exact (free ⟨first, same ▸ holds⟩).elim
    · exact coherent.unique other first second holds holds'

theorem released (coherent : u.Coherent)
    (given : (fetches u.log)[handle]? = some (object, lock)) :
    (LockUse.mk (u.table.release lock) (u.log ++ [.released handle object])).Coherent := by
  have objects := u.table.objects_release lock
  have fetches_eq : fetches (u.log ++ [.released handle object]) = fetches u.log := by simp
  refine ⟨coherent.sound.release lock, ?_, ?_, fun other => ?_, fun other own holds => ?_,
    fun other first second holds holds' => ?_⟩
  · simpa only [fetches_eq, LockTable.Names, objects] using coherent.names
  · simpa only [fetches_eq, objects] using coherent.listed
  · rw [coherent.sound.holds_release_iff (coherent.names_of_getElem? given), coherent.holds]
    simp only [holds_released_iff, exists_and_right]
    exact and_comm.trans (and_congr_right fun _ => ne_comm)
  · rw [fetches_eq]
    exact coherent.holder other own (holds_released_iff.mp holds).1
  · exact coherent.unique other first second (holds_released_iff.mp holds).1
      (holds_released_iff.mp holds').1

theorem becomes (coherent : u.Coherent) (becomes : u.Becomes u') : u'.Coherent := by
  cases becomes with
  | idle => exact coherent
  | fetched object => exact coherent.fetched object
  | tried given => exact coherent.tried given
  | released given => exact coherent.released given

theorem step (coherent : u.Coherent) (move : LockMove) : (u.step move).Coherent :=
  coherent.becomes (u.becomes_step move)

theorem run (coherent : u.Coherent) (moves : List LockMove) : (u.run moves).Coherent := by
  induction moves generalizing u with
  | nil => exact coherent
  | cons move rest ih => exact ih (coherent.step move)

/-- Handles have one lock exactly if they are of one object. -/
theorem lock_eq_iff (coherent : u.Coherent) {object' : ObjectId} {lock' : LockHandle}
    (fetched : (object, lock) ∈ fetches u.log) (fetched' : (object', lock') ∈ fetches u.log) :
    lock = lock' ↔ object = object' := by
  have names := coherent.names object lock fetched
  have names' := coherent.names object' lock' fetched'
  refine ⟨fun same => ?_, fun same => ?_⟩
  · subst same
    exact names.object_eq names'
  · subst same
    exact coherent.sound.handle_eq names names'

theorem isEmpty_iff (coherent : u.Coherent) : u.table.isEmpty = true ↔ fetches u.log = [] := by
  rw [LockTable.isEmpty, List.isEmpty_iff, ← List.map_eq_nil_iff (f := Prod.fst)]
  simp only [List.eq_nil_iff_forall_not_mem, coherent.listed]

/-- No lock ever goes away. -/
theorem size_le_run (coherent : u.Coherent) (moves : List LockMove) :
    u.table.size ≤ (u.run moves).table.size := by
  obtain ⟨later, grown⟩ := u.exists_log_run moves
  have kept : u.table.objects ⊆ (u.run moves).table.objects := by
    intro object listed
    rw [(coherent.run moves).listed, grown, fetches_append, List.map_append]
    exact List.mem_append_left _ ((coherent.listed object).mp listed)
  exact coherent.sound.nodup.length_le_of_subset kept

end Coherent

/-- Whatever moves callers make at one table, and in whatever order.  Two handles are one lock
exactly if they were fetched for objects with the same scheme and the same value.  The table has
as many locks as there are objects of which a handle was fetched, and never fewer later.  The lock
of a handle can be taken exactly if no handle of its object holds, so holders of other objects are
never in the way.  Only handles that were fetched hold, each for its object, and of the handles of
one object at most one holds. -/
theorem locks_exclude (moves : List LockMove) :
    let u := opened.run moves
    (∀ object lock object' lock', (object, lock) ∈ fetches u.log →
      (object', lock') ∈ fetches u.log →
      (lock = lock' ↔ object.scheme = object'.scheme ∧ object.value = object'.value)) ∧
    u.table.size = ((fetches u.log).map Prod.fst).dedup.length ∧
    (u.table.isEmpty = true ↔ fetches u.log = []) ∧
    (∀ later, u.table.size ≤ (opened.run (moves ++ later)).table.size) ∧
    (∀ (handle : Nat) object lock, (fetches u.log)[handle]? = some (object, lock) →
      ((u.table.tryLock lock).1 = true ↔ ¬ ∃ other, Holds u.log other object) ∧
      ((∀ other holding, Holds u.log other holding → holding ≠ object) →
        (u.table.tryLock lock).1 = true)) ∧
    (∀ object handle, Holds u.log handle object →
      ∃ lock, (fetches u.log)[handle]? = some (object, lock)) ∧
    ∀ object handle handle', Holds u.log handle object → Holds u.log handle' object →
      handle = handle' := by
  intro u
  have coherent : u.Coherent := Coherent.opened.run moves
  refine ⟨fun object lock object' lock' fetched fetched' => ?_,
    coherent.sound.size_eq coherent.listed, coherent.isEmpty_iff, fun later => ?_,
    fun handle object lock given => ?_, coherent.holder, coherent.unique⟩
  · rw [coherent.lock_eq_iff fetched fetched', ObjectId.ext_iff]
  · rw [run_append]
    exact coherent.size_le_run later
  · have free := coherent.tryLock_eq_true_iff given
    exact ⟨free, fun apart => free.mpr fun ⟨other, holds⟩ => apart other object holds rfl⟩

/-- Two objects with the same text have different locks.  The second handle of an object waits for
the first. -/
theorem locks_exclude_sameText :
    let flat : ObjectId := ⟨"flat~2", "1"⟩
    let lease : ObjectId := ⟨"flat", "2~1"⟩
    let u :=
      opened.run [.fetch flat, .find lease, .fetch lease, .find flat, .tryLock 0, .tryLock 1]
    flat.text = lease.text ∧ fetches u.log = [(flat, ⟨0⟩), (lease, ⟨1⟩), (flat, ⟨0⟩)] ∧
      u.table.size = 2 ∧ Holds u.log 0 flat ∧ Holds u.log 1 lease ∧
      (u.table.tryLock ⟨0⟩).1 = false ∧ ∀ handle, Holds u.log handle flat → handle = 0 := by
  intro flat lease u
  obtain ⟨-, size, -, -, tries, -, alone⟩ := locks_exclude
    [.fetch flat, .find lease, .fetch lease, .find flat, .tryLock 0, .tryLock 1]
  let fetching : List LockEvent := [.fetched flat ⟨0⟩, .fetched lease ⟨1⟩, .fetched flat ⟨0⟩]
  have log : u.log = fetching ++ [.tried 0 flat true, .tried 1 lease true] := by decide
  have fetched : fetches u.log = [(flat, ⟨0⟩), (lease, ⟨1⟩), (flat, ⟨0⟩)] := by rw [log]; rfl
  have first : Holds u.log 0 flat := ⟨fetching, [.tried 1 lease true], log, by simp⟩
  have second : Holds u.log 1 lease := ⟨fetching ++ [.tried 0 flat true], [], log, by simp⟩
  have again : (fetches u.log)[2]? = some (flat, ⟨0⟩) := by rw [fetched]; rfl
  have text : flat.text = lease.text := by decide
  refine ⟨text, fetched, ?_, first, second, ?_, fun handle holds => ?_⟩
  · rw [size, fetched]
    rfl
  · rw [Bool.eq_false_iff]
    exact fun took => (tries 2 flat ⟨0⟩ again).1.mp took ⟨0, first⟩
  · exact alone flat handle 0 holds first

end LockUse

end Bitemporal
