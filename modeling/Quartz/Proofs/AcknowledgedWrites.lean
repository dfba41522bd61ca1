import Quartz.Proofs.DatabaseCalls
import Quartz.Proofs.FaultyFlush
import Quartz.Proofs.LogicalReplay

/-! Updates that a database acknowledges. Its sink is taken away before the log is flushed and shut
down; when that fails the database stays open without a sink, and as long as the log cannot be
flushed no update is acknowledged. -/

namespace Quartz.Core
open Storage Format Pages Btree Wal Recovery Fallible

/-- Between the two states a record of the event has got into the log. -/
def Recorded (before after : Database) (event : TreeEvent) : Prop :=
  ∃ more, after.walAdapter.appended = before.walAdapter.appended ++ more ∧
    ∃ entry ∈ more, Names entry.1 event ∧ entry.2.ok = true

def eventOf : TreeCall → TreeEvent
  | .insert key value => .insert key value
  | .erase key => .erase key

namespace DatabaseCall

def event : DatabaseCall → Option TreeEvent
  | insert key value _ => some (.insert key value)
  | erase key _ => some (.erase key)
  | _ => none

/-- An update that is acknowledged is in the log. -/
def Logged (database : Database) (call : DatabaseCall) : Prop :=
  database.isOpen = true → (call.perform database).1 = .ok () →
    ∀ event ∈ call.event, Recorded database (call.perform database).2 event

/-- A flush that fails while the database is closed fails for good. -/
def Lasting : DatabaseCall → Prop
  | close faults => FlushFault.Lasting faults.flush ∧ FlushFault.Lasting faults.shutdown
  | _ => True

end DatabaseCall

namespace Database

/-- An open database without a sink has a log that cannot be flushed. -/
structure Guarded (database : Database) : Prop where
  enabled : database.options.enableWal = true
  stuck : database.isOpen = true → database.sinkSet = false → database.wal.Stuck

variable {database : Database} {call : TreeCall}

/-- The tree as its calls see it. -/
def sunk (database : Database) : BTree BTreeWalAdapter :=
  { database.tree with walSink := if database.sinkSet then some database.walAdapter else none }

theorem onTree_eq : database.onTree call = ((call.perform.run database.sunk).1, { database with
      tree := { (call.perform.run database.sunk).2 with walSink := none }
      walAdapter := (call.perform.run database.sunk).2.walSink.getD database.walAdapter }) := rfl

theorem onTree_unsunk (free : database.sinkSet = false) : (database.onTree call).2.walAdapter = database.walAdapter := by
  have sink := ((call.logs_perform) database.sunk).1.sink
  have none : (call.perform.run database.sunk).2.walSink = none := by
    simpa [sunk, free] using sink
  rw [onTree_eq]
  simp only [none, Option.getD_none]

theorem onTree_recorded (set : database.sinkSet = true) (done : (database.onTree call).1 = .ok ()) :
    Recorded database (database.onTree call).2 (eventOf call) := by
  rw [onTree_eq] at done ⊢
  have sink : database.sunk.writing = some database.walAdapter.writing := by simp [BTree.writing, sunk, set]
  have before : database.sunk.appended = database.walAdapter.appended := by simp [BTree.appended, sunk, set]
  have kept := ((call.logs_perform) database.sunk).1.writing
  obtain ⟨adapter, heard, -⟩ := Option.map_eq_some_iff.mp (kept.trans sink)
  have after : (call.perform.run database.sunk).2.appended = adapter.appended := by simp [BTree.appended, heard]
  have ran : call.perform.run database.sunk = (.ok (), (call.perform.run database.sunk).2) := Prod.ext done rfl
  simp only [Recorded, heard, Option.getD_some]
  rw [← after, ← before]
  cases call with
  | insert key value =>
    obtain ⟨more, entry, whole, -, told, granted⟩ := insert_recorded sink ran
    exact ⟨more ++ [entry], by rw [whole, List.append_assoc], entry, by simp, told.names, granted⟩
  | erase key =>
    obtain ⟨first, entry, last, whole, -, -, told, granted⟩ := erase_recorded sink ran
    exact ⟨first ++ entry :: last, by rw [whole, List.append_assoc], entry, by simp, told.names, granted⟩

theorem Guarded.onTree (guarded : database.Guarded) (call : TreeCall) : (database.onTree call).2.Guarded := by
  refine ⟨guarded.enabled, fun live free => ?_⟩
  have same : (database.onTree call).2.wal = database.wal := congrArg BTreeWalAdapter.manager (onTree_unsunk free)
  rw [same]
  exact guarded.stuck live free

theorem Guarded.update (guarded : database.Guarded) (call : TreeCall) (fault : Option FlushFault) :
    (database.update call fault).2.Guarded := by
  rcases update_cases guarded.enabled call fault with ⟨failure, ended⟩ | ⟨failure, ended⟩ | ⟨-, ended⟩
  · rw [ended]
    exact guarded
  · rw [ended]
    exact guarded.onTree call
  · rw [ended]
    have next := guarded.onTree call
    exact ⟨next.enabled, fun live free => ((next.stuck live free).flushUnder fault).2⟩

theorem Guarded.update_recorded (guarded : database.Guarded) (live : database.isOpen = true) {fault : Option FlushFault}
    (done : (database.update call fault).1 = .ok ()) : Recorded database (database.update call fault).2 (eventOf call) := by
  rcases update_cases guarded.enabled call fault with ⟨failure, ended⟩ | ⟨failure, ended⟩ | ⟨granted, ended⟩
  · rw [ended] at done
    cases done
  · rw [ended] at done
    cases done
  · cases set : database.sinkSet with
    | true =>
      rw [ended]
      exact onTree_recorded set granted
    | false =>
      have refused := (((guarded.onTree call).stuck live set).flushUnder fault).1
      rw [ended, if_neg (by simp [refused])] at done
      cases done

theorem stuck_checkpoint {wal : LogManager} (stuck : wal.Stuck) (fault : Option FlushFault) {tree : BTree BTreeWalAdapter}
    (order : tree.Enumeration) (timestamp : UInt64) (truncateWal : Bool) :
    (RecoveryManager.checkpoint fault tree order timestamp wal truncateWal).2.Stuck := by
  have appended : ∀ record, (wal.append record).2.Stuck := by
    intro record
    unfold LogManager.append
    split
    · exact stuck
    · exact stuck
  have refused : ∃ status, (CheckpointManager.createCheckpointUnder fault tree order timestamp wal).1 = .error status ∧
      (CheckpointManager.createCheckpointUnder fault tree order timestamp wal).2.Stuck := by
    simp only [CheckpointManager.createCheckpointUnder]
    split
    · exact ⟨_, rfl, appended _⟩
    · obtain ⟨refused, still⟩ := (appended (CheckpointManager.markerOf tree order timestamp wal)).flushUnder fault
      rw [if_pos (by simp [refused])]
      exact ⟨_, rfl, still⟩
  obtain ⟨status, failed, still⟩ := refused
  unfold RecoveryManager.checkpoint
  rcases ended : CheckpointManager.createCheckpointUnder fault tree order timestamp wal with ⟨_ | _, after⟩ <;>
    rw [ended] at failed still
  · exact still
  · cases failed

theorem Guarded.checkpoint (guarded : database.Guarded) (truncateWal : Bool) (timestamp : UInt64)
    (walk : ∀ tree : BTree BTreeWalAdapter, tree.Enumeration) (fault : Option FlushFault) :
    (database.checkpoint truncateWal timestamp walk fault).2.Guarded := by
  unfold Database.checkpoint
  split
  · exact guarded
  split
  · exact guarded
  · exact ⟨guarded.enabled, fun live free => stuck_checkpoint (guarded.stuck live free) fault _ timestamp _⟩

theorem Guarded.close (guarded : database.Guarded) {faults : CloseFaults} (flush : FlushFault.Lasting faults.flush)
    (shutdown : FlushFault.Lasting faults.shutdown) : (database.close faults).2.Guarded := by
  unfold Database.close
  split
  · exact guarded
  rw [if_pos guarded.enabled]
  simp only
  split
  next refused => exact ⟨guarded.enabled, fun _ _ => LogManager.flushUnder_refused flush (by simpa using refused)⟩
  split
  next refused => exact ⟨guarded.enabled, fun _ _ => LogManager.shutdownUnder_refused shutdown (by simpa using refused)⟩
  · exact ⟨guarded.enabled, fun live => nomatch live⟩

theorem Guarded.openDatabase (guarded : database.Guarded) (call : OpenCall) : (database.openDatabase call).2.Guarded := by
  cases shut : database.isOpen with
  | true =>
    rw [Database.openDatabase, if_pos shut]
    exact guarded
  | false =>
    have closed : ∀ after : Database, Kept database after → after.Guarded := by
      intro after kept
      refine ⟨by rw [kept.options, guarded.enabled], fun live => ?_⟩
      rw [kept.isOpen, shut] at live
      cases live
    have stored := stored_kept database call
    have logged := logged_kept database call
    have recovered := recovered_kept database call
    have ends := opens shut call
    generalize database.openDatabase call = result at ends ⊢
    cases ends with
    | storage => exact closed _ stored
    | log => exact closed _ (logged.releases _ _)
    | recovery => exact closed _ (recovered.releases _ _)
    | thrown => exact closed _ recovered
    | done kept =>
      refine ⟨by rw [opened, kept.options, guarded.enabled], fun _ free => ?_⟩
      simp [opened, kept.options, guarded.enabled] at free

end Database

namespace DatabaseCall

open Database

variable {database : Database}

theorem guarded_step (call : DatabaseCall) (guarded : database.Guarded) (lasting : call.Lasting) : (step database call).Guarded := by
  rw [step]
  cases call with
  | openDatabase call => exact guarded.openDatabase call
  | insert key value fault => exact guarded.update (.insert key value) fault
  | erase key fault => exact guarded.update (.erase key) fault
  | checkpoint truncateWal timestamp walk fault =>
    rw [perform, ofStatus]
    exact guarded.checkpoint truncateWal timestamp walk fault
  | close faults =>
    rw [perform, ofStatus]
    exact guarded.close lasting.1 lasting.2

theorem Guarded.logged (guarded : database.Guarded) (call : DatabaseCall) : Logged database call := by
  intro live done event told
  cases call with
  | insert key value fault =>
    obtain rfl : TreeEvent.insert key value = event := by simpa [DatabaseCall.event] using told
    exact Database.Guarded.update_recorded guarded live done
  | erase key fault =>
    obtain rfl : TreeEvent.erase key = event := by simpa [DatabaseCall.event] using told
    exact Database.Guarded.update_recorded guarded live done
  | _ => cases told

/-- In every run in which the flushes that fail inside a close fail for good, each update that an open
database acknowledges is in the log, also after a close that has failed. -/
theorem acknowledged_updates_are_logged (options : DatabaseOptions) (enabled : options.enableWal = true) (clock : Nat → UInt64)
    (calls : List DatabaseCall) (lasting : ∀ call ∈ calls, call.Lasting) :
    Runs.AtEachStep step Logged (Database.create options clock) calls := by
  have start : (Database.create options clock).Guarded := ⟨enabled, fun live => nomatch live⟩
  have always := Runs.always_of_invariant (fun database call guarded meets => guarded_step call guarded meets) start
    (Runs.atEachStep_of_forall fun call member _ => lasting call member)
  exact always.atEachStep fun database call guarded => Guarded.logged guarded call

/-- The database is opened, the flush of its close fails, and a key is inserted. -/
def unsunkRun (sticks : Bool) : List DatabaseCall :=
  [openDatabase { path := "q" }, close { flush := some ⟨.sync, sticks⟩ }, insert (.uint32 7) (PageReference.make 9 1 6) none]

theorem acknowledged_updates_are_logged_unsunk :
    (unsunkRun true).length = 3 ∧ Runs.AtEachStep step Logged (Database.create {} fun _ => 1) (unsunkRun true) := by
  refine ⟨rfl, acknowledged_updates_are_logged {} rfl _ _ fun call member => ?_⟩
  simp only [unsunkRun, List.mem_cons, List.not_mem_nil, or_false] at member
  rcases member with rfl | rfl | rfl
  · trivial
  · exact ⟨fun fault same => by cases same; rfl, fun fault same => nomatch same⟩
  · trivial

theorem not_logged {call : DatabaseCall} (told : call.event.isSome = true) (unlogged : database.isOpen = true ∧
      (call.perform database).1 = .ok () ∧ (call.perform database).2.walAdapter.appended = database.walAdapter.appended) :
    ¬ Logged database call := by
  obtain ⟨live, done, same⟩ := unlogged
  obtain ⟨event, told⟩ := Option.isSome_iff_exists.mp told
  intro logged
  obtain ⟨more, grown, entry, member, -⟩ := logged live done event told
  rw [same] at grown
  obtain rfl : more = [] := by simpa using grown.symm
  cases member

/-- After a flush that fails only once the insertion is acknowledged, and nothing is in the log. -/
theorem acknowledged_update_is_not_logged :
    ¬ Runs.AtEachStep step Logged (Database.create {} fun _ => 1) (unsunkRun false) := by
  intro holds
  have logged := holds ((unsunkRun false).take 2) (insert (.uint32 7) (PageReference.make 9 1 6) none) ⟨[], rfl⟩
  refine not_logged ?_ ?_ logged
  · rfl
  · decide +kernel

end DatabaseCall
end Quartz.Core
