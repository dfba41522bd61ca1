import Quartz.Core.Database

/-! What the calls on a database can do, once for each of them. -/

namespace Quartz.Core.Database
open Storage Btree Wal

variable {database : Database}

/-- An update is refused, fails in the tree, or is followed by a flush. -/
theorem update_cases (enabled : database.options.enableWal = true) (call : TreeCall) (fault : Option FlushFault) :
    (∃ failure, database.update call fault = (.error failure, database)) ∨
    (∃ failure, database.update call fault = (.error failure, (database.onTree call).2)) ∨
    (database.onTree call).1 = .ok () ∧ database.update call fault =
      (if ((database.onTree call).2.wal.flushUnder fault).1.ok then .ok ()
        else .error (.status ((database.onTree call).2.wal.flushUnder fault).1),
        (database.onTree call).2.setWal ((database.onTree call).2.wal.flushUnder fault).2) := by
  unfold update
  split
  · exact .inl ⟨_, rfl⟩
  have same : (database.onTree call).2.options.enableWal = true := enabled
  rcases ended : database.onTree call with ⟨failure | _, after⟩ <;> rw [ended] at same
  · exact .inr (.inl ⟨failure, rfl⟩)
  · refine .inr (.inr ⟨rfl, ?_⟩)
    exact if_pos same

/-- The steps of `open` change neither the options nor the two flags. -/
structure Kept (before after : Database) : Prop where
  options : after.options = before.options
  isOpen : after.isOpen = before.isOpen
  sinkSet : after.sinkSet = before.sinkSet

theorem initializeStorage_kept (database : Database) (call : OpenCall) : Kept database (database.initializeStorage call).2 := by
  unfold initializeStorage
  simp only
  generalize (if call.dataOpenFails = true then _ else _ : Status × DatabaseFile) = opened
  split
  · exact ⟨rfl, rfl, rfl⟩
  split
  · generalize (if call.dataWriteFails = true then _ else _ : Status × DatabaseFile) = written
    split <;> exact ⟨rfl, rfl, rfl⟩
  · exact ⟨rfl, rfl, rfl⟩

theorem initializeWal_kept (database : Database) (call : OpenCall) : Kept database (database.initializeWal call).2 :=
  ⟨rfl, rfl, rfl⟩

theorem runRecovery_kept (database : Database) : Kept database database.runRecovery.2 := ⟨rfl, rfl, rfl⟩

/-- The database after each step of `open`. -/
def stored (database : Database) (call : OpenCall) : Database := (database.initializeStorage call).2
def logged (database : Database) (call : OpenCall) : Database := ((database.stored call).initializeWal call).2
def recovered (database : Database) (call : OpenCall) : Database := (database.logged call).runRecovery.2

inductive Opens (database : Database) (call : OpenCall) : Except Failure Unit × Database → Prop
  | storage (refused : (database.initializeStorage call).1.ok = false) :
    Opens database call (.error (.status (database.initializeStorage call).1), database.stored call)
  | log (granted : (database.initializeStorage call).1.ok = true) (enabled : database.options.enableWal = true)
      (refused : ((database.stored call).initializeWal call).1.ok = false) :
    Opens database call (.error (.status ((database.stored call).initializeWal call).1),
      { database.logged call with file := (database.logged call).file.close.2 })
  | recovery {status : Status} (granted : (database.initializeStorage call).1.ok = true)
      (enabled : database.options.enableWal = true) (initialized : ((database.stored call).initializeWal call).1.ok = true)
      (recovers : database.options.recoverOnOpen = true)
      (failed : (database.logged call).runRecovery.1 = .error (.status status)) :
    Opens database call (.error (.status status), { (database.recovered call).setWal (database.recovered call).wal.shutdown.2 with
      file := (database.recovered call).file.close.2 })
  | thrown {failure : Failure} (granted : (database.initializeStorage call).1.ok = true)
      (enabled : database.options.enableWal = true) (initialized : ((database.stored call).initializeWal call).1.ok = true)
      (recovers : database.options.recoverOnOpen = true) (exception : ∀ status, failure ≠ .status status)
      (failed : (database.logged call).runRecovery.1 = .error failure) :
    Opens database call (.error failure, database.recovered call)
  | done {ready : Database} (kept : Kept database ready) : Opens database call (.ok (), ready.opened)

theorem Kept.trans {first second third : Database} (before : Kept first second) (after : Kept second third) : Kept first third :=
  ⟨after.options.trans before.options, after.isOpen.trans before.isOpen, after.sinkSet.trans before.sinkSet⟩

/-- Letting the two files go changes none of them either. -/
theorem Kept.releases {before after : Database} (kept : Kept before after) (wal : LogManager) (file : DatabaseFile) :
    Kept before { after.setWal wal with file := file } := ⟨kept.options, kept.isOpen, kept.sinkSet⟩

theorem stored_kept (database : Database) (call : OpenCall) : Kept database (database.stored call) :=
  initializeStorage_kept database call

theorem logged_kept (database : Database) (call : OpenCall) : Kept database (database.logged call) :=
  (stored_kept database call).trans (initializeWal_kept _ call)

theorem recovered_kept (database : Database) (call : OpenCall) : Kept database (database.recovered call) :=
  (logged_kept database call).trans (runRecovery_kept _)

theorem opens (shut : database.isOpen = false) (call : OpenCall) : Opens database call (database.openDatabase call) := by
  have storedOptions := (stored_kept database call).options
  have loggedOptions := (logged_kept database call).options
  unfold openDatabase
  rw [if_neg (by simp [shut])]
  simp only
  change Opens database call (if _ then (_, database.stored call) else if (database.stored call).options.enableWal = true then
    if _ then (_, { database.logged call with file := (database.logged call).file.close.2 })
    else if (database.logged call).options.recoverOnOpen = true then _
    else (_, (database.logged call).opened)
    else (_, (database.stored call).opened))
  rw [storedOptions, loggedOptions]
  split
  next refused => exact .storage (by simpa using refused)
  next granted =>
  have granted : (database.initializeStorage call).1.ok = true := by simpa using granted
  split
  next enabled =>
    split
    next refused => exact .log granted enabled ((Bool.not_eq_true' _).mp refused)
    next initialized =>
    have initialized : ((database.stored call).initializeWal call).1.ok = true :=
      Bool.eq_true_of_not_eq_false fun refused => initialized ((Bool.not_eq_true' _).mpr refused)
    split
    next recovers =>
      rw [show ((database.initializeStorage call).2.initializeWal call).2.runRecovery = (database.logged call).runRecovery from rfl]
      rcases ended : (database.logged call).runRecovery with ⟨failure | _, after⟩
      · obtain rfl : database.recovered call = after := congrArg Prod.snd ended
        cases failure with
        | status status => exact .recovery granted enabled initialized recovers (congrArg Prod.fst ended)
        | outOfRange | diverges => exact .thrown granted enabled initialized recovers (by simp) (congrArg Prod.fst ended)
      · obtain rfl : database.recovered call = after := congrArg Prod.snd ended
        exact .done (recovered_kept database call)
    next => exact .done (logged_kept database call)
  next => exact .done (stored_kept database call)

end Quartz.Core.Database
