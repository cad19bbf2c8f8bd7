import Bitemporal.Coordinator
import Bitemporal.Proofs.LockTable
import Mathlib.Data.List.Dedup

/-!
# What a coordinator counts

A tree of calls leaves a log: each write is entered and left, with what its calls do in between,
and each reading of the counters stands where it was made (`Call.Shows`).  A write is left however
it ends, be it that its own calls abandon it.  So the log says which writes are in progress at
each point, and how many were started and how they ended.

`Coordinator.Accounts` says that a coordinator counts what is in the log and holds the locks of
the writes in progress.  Entering and leaving keep this (`Coordinator.Accounts.enter`,
`Coordinator.Accounts.leave`), and so does every tree of calls (`Call.accounts_run`).
`Coordinator.accounts_exact` draws the conclusion for a thread that starts from nothing.
-/

namespace Bitemporal

/-! ## Logs -/

/-- What happens at a coordinator. -/
inductive Event where
  | entered (object : ObjectId)
  | left (object : ObjectId) (outcome : Outcome Nat)
  | read (counters : Metrics) (lockedObjects : Nat)

namespace Event

/-- The object whose write is entered. -/
@[simp]
def entered? : Event → Option ObjectId
  | entered object => some object
  | _ => none

/-- Whether a write is left that succeeded, or one that did not. -/
@[simp]
def leaves (succeeded : Bool) : Event → Bool
  | left _ outcome => outcome.isReturned == succeeded
  | _ => false

/-- The writes in progress after an event. -/
@[simp]
def push (stack : List ObjectId) : Event → List ObjectId
  | entered object => object :: stack
  | left .. => stack.tail
  | read .. => stack

/-- The objects of all writes that were started, in order. -/
def started (log : List Event) : List ObjectId := log.filterMap entered?

/-- The objects of the writes in progress, the innermost first. -/
def inProgress (log : List Event) : List ObjectId := log.foldl push []

/-- How many writes ended that succeeded, or that did not. -/
def ended (succeeded : Bool) (log : List Event) : Nat := log.countP (leaves succeeded)

variable (log : List Event) (event : Event)

@[simp]
theorem started_concat : started (log ++ [event]) = started log ++ event.entered?.toList := by
  rw [started, List.filterMap_append]
  cases event <;> rfl

@[simp]
theorem inProgress_concat : inProgress (log ++ [event]) = push (inProgress log) event := by
  rw [inProgress, List.foldl_append]
  rfl

@[simp]
theorem ended_concat (succeeded : Bool) :
    ended succeeded (log ++ [event]) = ended succeeded log + (event.leaves succeeded).toNat := by
  rw [ended, List.countP_append, List.countP_singleton]
  cases event.leaves succeeded <;> rfl

end Event

/-- What the counters say is what happened in a log. -/
structure Metrics.Counts (counters : Metrics) (lockedObjects : Nat) (log : List Event) :
    Prop where
  balance : counters.started = counters.committed + counters.aborted + counters.active
  active : counters.active = (Event.inProgress log).length
  started : counters.started = (Event.started log).length
  committed : counters.committed = Event.ended true log
  aborted : counters.aborted = Event.ended false log
  lockedObjects : lockedObjects = (Event.started log).dedup.length

/-! ## Logs of calls -/

namespace Call

mutual

/-- A call shows a reply and leaves a log; `unwinds` says whether it abandons the calls around it.
A write ends as its closure does, unless a panic comes out of its calls. -/
inductive Shows : Call → Reply → (unwinds : Bool) → List Event → Prop
  | metrics (counters : Metrics) (lockedObjects : Nat) :
    Shows .metrics (.metrics counters lockedObjects) false [.read counters lockedObjects]
  | ended {object : ObjectId} {caught : Bool} {body : List Call} {ending : Outcome Nat}
  {replies : List Reply}
    {log : List Event} (inner : ShowsAll body replies false log) :
    Shows (.execute object caught body ending) (.executed ending replies)
    (!caught && ending = .panicked)
      (.entered object :: log ++ [.left object ending])
  | unwound {object : ObjectId} {caught : Bool} {body : List Call} {ending : Outcome Nat}
  {replies : List Reply}
    {log : List Event} (inner : ShowsAll body replies true log) :
    Shows (.execute object caught body ending) (.executed .panicked replies) (!caught)
      (.entered object :: log ++ [.left object .panicked])

/-- Calls show replies one after the other, until one of them abandons the rest. -/
inductive ShowsAll : List Call → List Reply → (unwinds : Bool) → List Event → Prop
  | nil : ShowsAll [] [] false []
  | unwound {call : Call} {rest : List Call} {reply : Reply} {log : List Event}
  (head : Shows call reply true log) :
    ShowsAll (call :: rest) [reply] true log
  | cons {call : Call} {rest : List Call} {reply : Reply} {replies : List Reply} {unwinds : Bool}
    {log later : List Event} (head : Shows call reply false log)
    (tail : ShowsAll rest replies unwinds later) :
    ShowsAll (call :: rest) (reply :: replies) unwinds (log ++ later)

end

mutual

/-- No write of a call is nested in a write of the same object, be it of the call or on the stack
around it. -/
def Apart (stack : List ObjectId) : Call → Prop
  | .metrics => True
  | .execute object _ body _ => object ∉ stack ∧ ApartAll (object :: stack) body

/-- The same for calls that are made one after the other. -/
def ApartAll (stack : List ObjectId) : List Call → Prop
  | [] => True
  | call :: rest => call.Apart stack ∧ ApartAll stack rest

end

end Call

/-! ## Steps -/

namespace Coordinator

variable {c : Coordinator} {log : List Event} {object : ObjectId} {outer : List ObjectId}

theorem isHeld_iff (sound : c.locks.Sound) : c.isHeld object = true ↔ c.locks.Holds object := by
  unfold isHeld
  cases found : c.locks.handle? object with
  | some handle =>
    rw [sound.holds_iff_of_names (sound.handle?_eq_some_iff.mp found)]
    exact LockTable.isHeld_iff
  | none =>
    exact iff_of_false Bool.false_ne_true fun holds =>
      LockTable.handle?_eq_none_iff.mp found holds.mem

theorem metrics_enter (c : Coordinator) (object : ObjectId) :
    (c.enter object).metrics =
      ⟨c.metrics.active + 1, c.metrics.started + 1, c.metrics.committed, c.metrics.aborted⟩ := rfl

theorem metrics_leave (c : Coordinator) (object : ObjectId) (succeeded : Bool) :
    (c.leave object succeeded).metrics =
      ⟨c.metrics.active - 1, c.metrics.started,
        if succeeded then c.metrics.committed + 1 else c.metrics.committed,
        if succeeded then c.metrics.aborted else c.metrics.aborted + 1⟩ := rfl

theorem locks_enter (c : Coordinator) (object : ObjectId) :
    (c.enter object).locks = ((c.locks.lockFor object).2.tryLock (c.locks.lockFor object).1).2 :=
  rfl

theorem locks_leave (c : Coordinator) (object : ObjectId) (succeeded : Bool) :
    (c.leave object succeeded).locks = (c.locks.lockFor object).2.release
      (c.locks.lockFor object).1 := rfl

/-- A coordinator counts what is in a log, as did every reading in it, and holds the locks of the
writes in progress. -/
structure Accounts (c : Coordinator) (log : List Event) : Prop where
  counts : c.metrics.Counts c.lockedObjects log
  reads : ∀ before counters lockedObjects after,
    log = before ++ .read counters lockedObjects :: after →
    counters.Counts lockedObjects before
  sound : c.locks.Sound
  listed : ∀ object, object ∈ c.locks.objects ↔ object ∈ Event.started log
  holds : ∀ object, c.locks.Holds object ↔ object ∈ Event.inProgress log
  nodup : (Event.inProgress log).Nodup

namespace Accounts

theorem empty : Coordinator.empty.Accounts [] where
  counts := ⟨rfl, rfl, rfl, rfl, rfl, rfl⟩
  reads before counters lockedObjects after split := by simp at split
  sound := .empty
  listed _ := Iff.rfl
  holds _ := iff_of_false LockTable.not_holds_empty List.not_mem_nil
  nodup := .nil

/-- A reading in a longer log is in the log before, or it is the event that was added. -/
theorem reads_concat {event : Event} (accounts : c.Accounts log)
    (shown : ∀ counters lockedObjects, event = .read counters lockedObjects →
      counters.Counts lockedObjects log) :
    ∀ before counters lockedObjects after,
      log ++ [event] = before ++ .read counters lockedObjects :: after →
      counters.Counts lockedObjects before := by
  intro before counters lockedObjects after split
  rcases List.eq_nil_or_concat after with rfl | ⟨earlier, last, rfl⟩
  · obtain ⟨rfl, same⟩ := List.append_inj' split rfl
    exact shown counters lockedObjects (List.cons.inj same).1
  · rw [List.concat_eq_append, ← List.cons_append, ← List.append_assoc] at split
    exact accounts.reads before counters lockedObjects earlier (List.append_inj' split rfl).1

/-- A lock is free exactly if no write of its object is in progress. -/
theorem isHeld_eq_false_iff (accounts : c.Accounts log) :
    c.isHeld object = false ↔ object ∉ Event.inProgress log := by
  rw [Bool.eq_false_iff, ne_eq, isHeld_iff accounts.sound, accounts.holds]

theorem enter (accounts : c.Accounts log) (free : c.isHeld object = false) :
    (c.enter object).Accounts (log ++ [.entered object]) := by
  obtain ⟨balance, active, started, committed, aborted, -⟩ := accounts.counts
  have fetched := accounts.sound.fetched object
  have outside : object ∉ Event.inProgress log := accounts.isHeld_eq_false_iff.mp free
  have sound : (c.enter object).locks.Sound := fetched.sound.tryLock fetched.names
  have listed : ∀ other, other ∈ (c.enter object).locks.objects ↔
      other ∈ Event.started (log ++ [.entered object]) := by
    intro other
    rw [locks_enter, LockTable.objects_tryLock, fetched.mem_iff, accounts.listed]
    simp
  refine ⟨⟨?_, ?_, ?_, ?_, ?_, sound.size_eq listed⟩, accounts.reads_concat nofun, sound, listed,
    fun other => ?_, ?_⟩
  · exact (congrArg (· + 1) balance).trans (Nat.add_assoc _ _ _)
  · simpa [metrics_enter] using active
  · simpa [metrics_enter] using started
  · simpa [metrics_enter] using committed
  · simpa [metrics_enter] using aborted
  · rw [locks_enter, fetched.sound.holds_tryLock_iff fetched.names,
      fetched.holds_iff accounts.sound, accounts.holds]
    simp
  · simpa using ⟨outside, accounts.nodup⟩

/-- The innermost write is left, however it ends. -/
theorem leave (accounts : c.Accounts log) (innermost : Event.inProgress log = object :: outer)
    (outcome : Outcome Nat) :
    (c.leave object outcome.isReturned).Accounts (log ++ [.left object outcome]) := by
  obtain ⟨balance, active, started, committed, aborted, -⟩ := accounts.counts
  rw [innermost, List.length_cons] at active
  have rest : Event.inProgress (log ++ [.left object outcome]) = outer := by simp [innermost]
  have distinct := accounts.nodup
  rw [innermost, List.nodup_cons] at distinct
  obtain ⟨handle, -, names⟩ : c.locks.Holds object := by
    rw [accounts.holds, innermost]
    exact List.mem_cons_self
  have locks : (c.leave object outcome.isReturned).locks = c.locks.release handle := by
    rw [locks_leave, accounts.sound.lockFor_of_names names]
  have sound : (c.leave object outcome.isReturned).locks.Sound :=
    locks ▸ accounts.sound.release handle
  have listed : ∀ other, other ∈ (c.leave object outcome.isReturned).locks.objects ↔
      other ∈ Event.started (log ++ [.left object outcome]) := by
    intro other
    rw [locks, show (c.locks.release handle).objects = c.locks.objects from rfl, accounts.listed]
    simp
  refine ⟨⟨?_, ?_, ?_, ?_, ?_, sound.size_eq listed⟩, accounts.reads_concat nofun, sound, listed,
    fun other => ?_, ?_⟩
  · rw [metrics_leave]
    dsimp only
    split <;> omega
  · rw [metrics_leave, rest, active]
    rfl
  · simpa [metrics_leave] using started
  · rw [Event.ended_concat, ← committed]
    cases outcome <;> rfl
  · rw [Event.ended_concat, ← aborted]
    cases outcome <;> rfl
  · rw [locks, accounts.sound.holds_release_iff names, accounts.holds, innermost, rest,
      List.mem_cons]
    exact ⟨fun ⟨different, among⟩ => among.resolve_left different,
      fun among => ⟨fun same => distinct.1 (same ▸ among), .inr among⟩⟩
  · rw [rest]
    exact distinct.2

/-- A reading shows what is in the log so far. -/
theorem read (accounts : c.Accounts log) :
    c.Accounts (log ++ [.read c.metrics c.lockedObjects]) := by
  have counts := accounts.counts
  refine ⟨⟨counts.balance, ?_, ?_, ?_, ?_, ?_⟩, ?_, accounts.sound, ?_, ?_, ?_⟩
  · simpa using counts.active
  · simpa using counts.started
  · simpa using counts.committed
  · simpa using counts.aborted
  · simpa using counts.lockedObjects
  · refine accounts.reads_concat fun counters lockedObjects same => ?_
    obtain ⟨rfl, rfl⟩ := Event.read.inj same
    exact counts
  · simpa using accounts.listed
  · simpa using accounts.holds
  · simpa using accounts.nodup

end Accounts

end Coordinator

/-! ## Runs -/

/-- How a write ends whose calls made a run. -/
def CallRun.outcome (inner : CallRun) (ending : Outcome Nat) : Outcome Nat :=
  if inner.panicked then .panicked else ending

namespace Call

variable {c : Coordinator} {events : List Event} {object : ObjectId} {caught : Bool}
    {body : List Call}
  {ending : Outcome Nat}

/-- A write of an object that is being written does not end. -/
theorem run_execute_of_held (held : c.isHeld object = true) :
    Call.run c (.execute object caught body ending) = none := by
  rw [Call.run, if_pos held]

/-- A write of a free object is entered, runs what is inside it and is left. -/
theorem run_execute_of_free (free : c.isHeld object = false) :
    Call.run c (.execute object caught body ending) =
      (runAll (c.enter object) body).map fun inner =>
      (.executed (inner.outcome ending) inner.replies,
        !caught && inner.outcome ending = .panicked,
        inner.coordinator.leave object (inner.outcome ending).isReturned) := by
  rw [Call.run, free, if_neg Bool.false_ne_true]
  cases runAll (c.enter object) body <;> rfl

/-- Calls are made one after the other, until one panics. -/
theorem runAll_cons (c : Coordinator) (call : Call) (rest : List Call) :
    runAll c (call :: rest) = (call.run c).bind fun (reply, unwinds, c') =>
      if unwinds then some ⟨[reply], true, c'⟩
      else (runAll c' rest).map fun later =>
        { later with replies := reply :: later.replies } := by
  rw [runAll]
  rcases call.run c with - | ⟨reply, _ | _, c'⟩
  · rfl
  · dsimp only [Option.bind_some]
    cases runAll c' rest <;> rfl
  · rfl

/-- A write shows its entry, what happens inside it and its end. -/
theorem Shows.execute (inner : CallRun)
    (shown : ShowsAll body inner.replies inner.panicked events) :
    Shows (.execute object caught body ending) (.executed (inner.outcome ending) inner.replies)
      (!caught && inner.outcome ending = .panicked)
      (.entered object :: events ++ [.left object (inner.outcome ending)]) := by
  unfold CallRun.outcome
  cases abandoned : inner.panicked with
  | false =>
    rw [abandoned] at shown
    exact .ended shown
  | true =>
    rw [abandoned] at shown
    have unwound : Shows (.execute object caught body ending) (.executed .panicked inner.replies)
        (!caught) (.entered object :: events ++ [.left object .panicked]) := .unwound shown
    simpa using unwound

mutual

/-- A call leaves a log in which all its writes are left again, and the
coordinator counts them. -/
theorem accounts_run :
    ∀ {call : Call} {c c' : Coordinator} {log : List Event} {reply : Reply} {unwinds : Bool},
      c.Accounts log → call.run c = some (reply, unwinds, c') →
      ∃ events, call.Shows reply unwinds events ∧
      c'.Accounts (log ++ events) ∧ Event.inProgress (log ++ events) = Event.inProgress log
  | .metrics, c, c', log, reply, unwinds, accounts, ran => by
    obtain ⟨rfl, rfl, rfl⟩ : Reply.metrics c.metrics c.lockedObjects = reply ∧ false = unwinds ∧
        c = c' := by
      simpa [Call.run] using ran
    exact ⟨_, .metrics _ _, accounts.read, Event.inProgress_concat _ _⟩
  | .execute object caught body ending, c, c', log, reply, unwinds, accounts, ran => by
    cases free : c.isHeld object with
    | true =>
      rw [run_execute_of_held free] at ran
      cases ran
    | false =>
      rw [run_execute_of_free free, Option.map_eq_some_iff] at ran
      obtain ⟨inner, ran, same⟩ := ran
      obtain ⟨rfl, rfl, rfl⟩ := same
      -- The calls of the body leave the stack as they find it, so this write is the innermost
      -- when it is left.
      obtain ⟨events, shown, accounts', balanced⟩ := accounts_runAll (accounts.enter free) ran
      rw [Event.inProgress_concat] at balanced
      have left := accounts'.leave balanced (inner.outcome ending)
      have within : log ++ (.entered object :: events ++ [.left object (inner.outcome ending)]) =
          log ++ [.entered object] ++ events ++ [.left object (inner.outcome ending)] := by simp
      refine ⟨_, .execute inner shown, ?_, ?_⟩
      · rw [within]
        exact left
      · rw [within, Event.inProgress_concat, balanced]
        rfl

theorem accounts_runAll :
    ∀ {calls : List Call} {c : Coordinator} {log : List Event} {run : CallRun}, c.Accounts log →
      runAll c calls = some run → ∃ events, ShowsAll calls run.replies run.panicked events ∧
      run.coordinator.Accounts (log ++ events) ∧
      Event.inProgress (log ++ events) = Event.inProgress log
  | [], c, log, run, accounts, ran => by
    rw [runAll] at ran
    cases ran
    exact ⟨[], .nil, by rwa [List.append_nil], by rw [List.append_nil]⟩
  | call :: rest, c, log, run, accounts, ran => by
    rw [runAll_cons, Option.bind_eq_some_iff] at ran
    obtain ⟨⟨reply, unwinds, c'⟩, first, ran⟩ := ran
    obtain ⟨events, shown, accounts', balanced⟩ := accounts_run accounts first
    cases unwinds with
    | true =>
      cases ran
      exact ⟨events, .unwound shown, accounts', balanced⟩
    | false =>
      change (runAll c' rest).map _ = some run at ran
      rw [Option.map_eq_some_iff] at ran
      obtain ⟨later, ran, rfl⟩ := ran
      obtain ⟨events', shown', accounts'', balanced'⟩ := accounts_runAll accounts' ran
      rw [List.append_assoc] at accounts'' balanced'
      exact ⟨events ++ events', .cons shown shown', accounts'', balanced'.trans balanced⟩

end

mutual

/-- A call whose writes are apart from each other and from those in progress
never waits for itself. -/
theorem exists_run : ∀ {call : Call} {c : Coordinator} {log : List Event}, c.Accounts log →
    call.Apart (Event.inProgress log) → ∃ result, call.run c = some result
  | .metrics, c, log, accounts, apart => by
    rw [Call.run]
    exact ⟨_, rfl⟩
  | .execute object caught body ending, c, log, accounts, apart => by
    obtain ⟨outside, apart⟩ : object ∉ Event.inProgress log ∧
        ApartAll (object :: Event.inProgress log) body := by
      rwa [Apart] at apart
    have free := accounts.isHeld_eq_false_iff.mpr outside
    obtain ⟨inner, ran⟩ := exists_runAll (accounts.enter free) (by simpa using apart)
    rw [run_execute_of_free free, ran]
    exact ⟨_, rfl⟩

theorem exists_runAll :
    ∀ {calls : List Call} {c : Coordinator} {log : List Event}, c.Accounts log →
    ApartAll (Event.inProgress log) calls → ∃ run, runAll c calls = some run
  | [], c, log, accounts, apart => by
    rw [runAll]
    exact ⟨_, rfl⟩
  | call :: rest, c, log, accounts, apart => by
    rw [ApartAll] at apart
    obtain ⟨⟨reply, unwinds, c'⟩, first⟩ := exists_run accounts apart.1
    obtain ⟨events, -, accounts', balanced⟩ := accounts_run accounts first
    rw [runAll_cons, first]
    cases unwinds with
    | true => exact ⟨_, rfl⟩
    | false =>
      obtain ⟨later, ran⟩ := exists_runAll accounts' (balanced.symm ▸ apart.2)
      exact ⟨{ later with replies := reply :: later.replies }, by simp [ran]⟩

end

end Call

/-- Whatever calls a thread makes of a coordinator that was not used before, in sequence or
nested, and however its writes end: if no write is nested in another one of the same object, the
calls come to an end.  Whenever they do, each write ended as its closure did, unless a panic of
its own calls came through, and every reading, like the counters at the end, says what happened
before: started writes are the ended and the active ones, the active ones are those that were
entered and not left, the ended ones are counted once by how they ended, and there is one lock for
each object that was ever written.  In the end no write is active and no lock is held.  No counter
is more than the number of writes, so 64 bits are enough for fewer than 2 to the 64 of them. -/
theorem Coordinator.accounts_exact (calls : List Call) :
    (Call.ApartAll [] calls → ∃ run, Call.runAll .empty calls = some run) ∧
    ∀ run, Call.runAll .empty calls = some run →
      ∃ log, Call.ShowsAll calls run.replies run.panicked log ∧
      (∀ before counters lockedObjects after,
        log = before ++ .read counters lockedObjects :: after →
        counters.Counts lockedObjects before) ∧
      run.coordinator.metrics.Counts run.coordinator.lockedObjects log ∧
      run.coordinator.metrics.active = 0 ∧ run.coordinator.locks.held = [] ∧
      ∀ object, run.coordinator.isHeld object = false := by
  refine ⟨Call.exists_runAll .empty, fun run ran => ?_⟩
  obtain ⟨log, shown, accounts, idle⟩ := Call.accounts_runAll .empty ran
  rw [List.nil_append] at accounts idle
  change Event.inProgress log = [] at idle
  have free (object : ObjectId) : object ∉ Event.inProgress log := by
    rw [idle]
    exact List.not_mem_nil
  refine ⟨log, shown, accounts.reads, accounts.counts, ?_, ?_, fun object => ?_⟩
  · rw [accounts.counts.active, idle, List.length_nil]
  · exact accounts.sound.held_eq_nil fun object => (accounts.holds object).not.mpr (free object)
  · exact accounts.isHeld_eq_false_iff.mpr (free object)

/-- Writes of two objects, one within the other: a panic that is caught, a failure, and a panic
that comes through. -/
def nestedWrites : List Call :=
  let flat : ObjectId := ⟨"flat", "1"⟩
  let lease : ObjectId := ⟨"lease", "1"⟩
  [.execute flat false [.execute lease true [.metrics] .panicked, .metrics] (.returned 7),
    .execute lease false [] (.failed (.notFound (.object lease))),
    .execute lease true [.execute flat false [] .panicked, .metrics] (.returned 8), .metrics]

/-- Writes inside writes, one of which panics: all counters and locks agree with what happened. -/
theorem Coordinator.accounts_exact_nestedWrites :
    Call.ApartAll [] nestedWrites ∧ ∃ run log, Call.runAll .empty nestedWrites = some run ∧
      Call.ShowsAll nestedWrites run.replies run.panicked log ∧
      run.coordinator.metrics.Counts run.coordinator.lockedObjects log ∧
      run.coordinator.metrics = ⟨0, 5, 1, 4⟩ ∧ run.coordinator.lockedObjects = 2 := by
  have apart : Call.ApartAll [] nestedWrites := by simp [nestedWrites, Call.ApartAll, Call.Apart]
  obtain ⟨run, ran⟩ := (accounts_exact nestedWrites).1 apart
  obtain ⟨log, shown, -, counts, -⟩ := (accounts_exact nestedWrites).2 run ran
  have final : (Call.runAll .empty nestedWrites).map (fun run =>
      (run.coordinator.metrics, run.coordinator.lockedObjects)) = some (⟨0, 5, 1, 4⟩, 2) := by
        decide
  rw [ran] at final
  obtain ⟨metrics, locked⟩ := Prod.mk.inj (Option.some.inj final)
  exact ⟨apart, run, log, ran, shown, counts, metrics, locked⟩

end Bitemporal
