import Quartz.Lib.Runs
import Quartz.Proofs.DatabaseCalls
import Quartz.Proofs.LiveLogs
import Quartz.Proofs.LogAppending

/-! Opening a database again after it could not be opened. A file that a failed `open` has left open
stands in the way of every later one. -/

namespace Quartz.Core
open Storage Btree Wal Recovery

namespace OpenCall

def DataRefused (call : OpenCall) : Prop := call.dataOpenFails = true ∨ call.data = none ∧ call.createIfMissing = false

/-- The data file is opened, and its header page is written if one has to be. -/
def DataPrepared (call : OpenCall) : Prop :=
  ¬ call.DataRefused ∧
    (call.dataWriteFails = false ∨ call.createIfMissing = false ∧ Pages.kPageSize ≤ (call.data.getD []).length)

/-- There are a data file with its header page and a log with its header, and nothing fails. -/
structure WellFormed (call : OpenCall) : Prop where
  data : ∃ bytes, call.data = some bytes ∧ Pages.kPageSize ≤ bytes.length
  log : ∃ rest, call.log = some (walHeader ++ rest)
  dataOpens : call.dataOpenFails = false
  dataWrites : call.dataWriteFails = false
  logOpens : call.logFault = none

end OpenCall

/-- A log manager that finds this file when it opens its log. -/
def mounted (wal : LogManager) (contents : Option (List UInt8)) : LogManager :=
  { wal with file := { wal.file with file := mount wal.file.file contents } }

namespace Database
open OpenCall

/-- The steps of `open` that open the files: their status and the files. -/
def openFiles (database : Database) (call : OpenCall) : Status × DatabaseFile × Option LogFile :=
  let (status, database) := database.initializeStorage call
  if !status.ok then (status, database.file, none)
  else if database.options.enableWal then
    let (status, database) := database.initializeWal call
    (status, database.file, some database.wal.file)
  else (status, database.file, none)

/-- Files that are well formed are opened as a new database opens them. -/
def OpensAsFresh (database : Database) : Prop :=
  ∀ call : OpenCall, call.WellFormed →
    database.openFiles call = (Database.create database.options database.walAdapter.clock).openFiles call

def Released (database : Database) : Prop :=
  database.file.isOpen = false ∧ (database.options.enableWal = true → database.wal.Idle)

def logOf (database : Database) (call : OpenCall) : Status × LogManager :=
  (mounted database.wal call.log).initializeUnder call.logFault (walPathFor call.path) call.createIfMissing

/-- The log can be initialized, the recovery from it ends with an error, and no read has run past the
end of the log. -/
def RecoveryRefused (database : Database) (call : OpenCall) : Prop :=
  (database.logOf call).1.ok = true ∧
    (∃ refusal, (RecoveryManager.recover (database.logOf call).2 database.tree).1.1 = .error (.status refusal)) ∧
    (RecoveryManager.recover (database.logOf call).2 database.tree).2.file.file.fail = false

/-- The ways to fail that let go of everything. -/
def Releases (database : Database) (call : OpenCall) : Prop :=
  call.DataRefused ∨ call.DataPrepared ∧ (call.logFault = some .openFile ∨ database.RecoveryRefused call)

variable {database : Database} {call : OpenCall}

/-! ### The data file -/

section Streams

variable {file : DatabaseFile} {path : String} {create : Bool}

theorem mount_busy (busy : file.isOpen = true) (contents : Option (List UInt8)) : mount file contents = file := if_pos busy

theorem mount_free (free : file.isOpen = false) (contents : Option (List UInt8)) :
    mount file contents = { file with contents := contents } := if_neg (by simp [free])

theorem openFile_busy (busy : file.isOpen = true) :
    file.openFile path create = (Status.ioError ("File already open: " ++ file.path), file) := if_pos busy

theorem close_shut : file.close.2.isOpen = false := by
  unfold DatabaseFile.close
  split
  next shut => simpa using shut
  · rfl

theorem openFailing_busy (busy : file.isOpen = true) :
    file.openFailing path create = (Status.ioError ("File already open: " ++ file.path), file) := if_pos busy

theorem openFailing_free (free : file.isOpen = false) :
    ∃ message after, file.openFailing path create = (Status.ioError message, after) ∧ after.isOpen = false :=
  ⟨_, _, if_neg (by simp [free]), free⟩

theorem openFile_missing (free : file.isOpen = false) (missing : file.contents = none) :
    ∃ message after, file.openFile path false = (Status.ioError message, after) ∧ after.isOpen = false := by
  rw [DatabaseFile.openFile, if_neg (by simp [free]), missing]
  exact ⟨_, _, rfl, free⟩

theorem openFile_free (free : file.isOpen = false) (found : file.contents.isSome = true ∨ create = true) :
    file.openFile path create = (Status.success,
      { contents := some file.bytes, path := path, isOpen := true, size := file.bytes.length }) := by
  rw [DatabaseFile.openFile, if_neg (by simp [free]), DatabaseFile.bytes]
  cases contents : file.contents with
  | none =>
    have create := found.resolve_left (by simp [contents])
    rw [create]
    rfl
  | some bytes => rfl

end Streams

theorem stored_eq (database : Database) (call : OpenCall) :
    database.stored call = { database with file := (database.stored call).file } := by
  unfold stored initializeStorage
  simp only
  generalize (if call.dataOpenFails = true then _ else _ : Status × DatabaseFile) = opened
  split
  · rfl
  split
  · generalize (if call.dataWriteFails = true then _ else _ : Status × DatabaseFile) = written
    split <;> rfl
  · rfl

theorem initializeStorage_busy (busy : database.file.isOpen = true) (call : OpenCall) :
    (database.initializeStorage call).1.ok = false ∧ (database.stored call).file.isOpen = true := by
  rw [stored, initializeStorage, mount_busy busy]
  simp only [openFailing_busy busy, openFile_busy busy, ite_self, Status.ok_ioError, Bool.not_false, if_true]
  exact ⟨trivial, busy⟩

theorem initializeStorage_refused (free : database.file.isOpen = false) (refused : call.DataRefused) :
    (database.initializeStorage call).1.ok = false ∧ (database.stored call).file.isOpen = false := by
  have opens : ∃ message file, (if call.dataOpenFails then
        (mount database.file call.data).openFailing call.path call.createIfMissing
      else (mount database.file call.data).openFile call.path call.createIfMissing) =
        (Status.ioError message, file) ∧ file.isOpen = false := by
    rw [mount_free free]
    cases fails : call.dataOpenFails with
    | true => exact openFailing_free free
    | false =>
      obtain ⟨missing, kept⟩ := refused.resolve_left (by simp [fails])
      rw [kept]
      exact openFile_missing free missing
  obtain ⟨message, file, opens, shut⟩ := opens
  rw [stored, initializeStorage]
  simp only [opens, Status.ok_ioError, Bool.not_false, if_true]
  exact ⟨trivial, shut⟩

def fileAt (call : OpenCall) : DatabaseFile :=
  { contents := some (call.data.getD []), path := call.path, isOpen := true, size := (call.data.getD []).length }

theorem file_sound (call : OpenCall) : Sound (fileAt call) := ⟨rfl, rfl, rfl⟩

theorem writePage_granted {file : DatabaseFile} (sound : Sound file) {header : Pages.PageHeader}
    (valid : header.pageId ≠ kInvalidPageId) (payload : List UInt8) :
    ∃ after, file.writePage header payload = (Status.success, after) ∧ Sound after := by
  obtain ⟨sought, seek, ready⟩ := seek_granted sound.isOpen sound.good (header.pageId.toNat * Pages.kPageSize)
  obtain ⟨headed, front, still⟩ := writeBytes_granted ready header.serialize
  obtain ⟨whole, back, last⟩ := writeBytes_granted still payload
  refine ⟨whole, ?_, last⟩
  simp only [DatabaseFile.writePage, if_neg valid, seek, front, back, Status.ok_success, if_not_true]

theorem initializeStorage_opened (free : database.file.isOpen = false) (accepted : ¬ call.DataRefused) :
    (database.stored call).file.isOpen = true ∧ ((database.initializeStorage call).1.ok = true ↔ call.DataPrepared) := by
  have opens : call.dataOpenFails = false := Bool.eq_false_of_not_eq_true fun fails => accepted (.inl fails)
  have found : call.data.isSome = true ∨ call.createIfMissing = true := by
    cases data : call.data with
    | some bytes => exact .inl rfl
    | none =>
      exact .inr (Bool.eq_true_of_not_eq_false fun kept => accepted (.inr ⟨data, kept⟩))
  have opened : DatabaseFile.openFile { database.file with contents := call.data } call.path call.createIfMissing =
      (Status.success, fileAt call) := openFile_free free found
  obtain ⟨headed, wrote, sound⟩ := writePage_granted (file_sound call)
    (show (Pages.HeaderPage.create Pages.kVersionMajor Pages.kVersionMinor 0).header.pageId ≠ kInvalidPageId by decide)
    (Pages.HeaderPage.create Pages.kVersionMajor Pages.kVersionMinor 0).layout.serialize
  have flushed : headed.flush.2.isOpen = true := (honest_flush.isOpen headed).trans sound.isOpen
  rw [stored, initializeStorage, mount_free free, opens]
  simp only [if_false_true, opened, Status.ok_success, Bool.not_true, wrote, DataPrepared, accepted, not_false_eq_true, true_and]
  by_cases header : call.createIfMissing || (fileAt call).fileSize < Pages.kPageSize
  · have needed : ¬ (call.createIfMissing = false ∧ Pages.kPageSize ≤ (call.data.getD []).length) := by
      rintro ⟨kept, large⟩
      simp [kept, fileAt, DatabaseFile.fileSize, Nat.not_lt.mpr large] at header
    rw [if_pos header]
    cases fails : call.dataWriteFails with
    | true => simp [DatabaseFile.struck, fileAt, needed]
    | false => simp [flushed]
  · rw [if_neg header]
    obtain ⟨kept, large⟩ := Bool.or_eq_false_iff.mp (Bool.eq_false_of_not_eq_true header)
    have spared : call.createIfMissing = false ∧ Pages.kPageSize ≤ (call.data.getD []).length :=
      ⟨kept, Nat.not_lt.mp (of_decide_eq_false large)⟩
    exact ⟨rfl, iff_of_true rfl (.inr spared)⟩

/-! ### The log -/

section Log

variable {wal : LogManager} {path : String} {create : Bool}

theorem openLog_live {log : LogFile} (free : log.file.isOpen = false) :
    (log.create path).2.Live ∧ (log.openLog path true).2.Live := by
  have opened := @openFile_free log.file path true free (.inr rfl)
  have live : ({ log with file := (log.file.openFile path true).2, attached := true } : LogFile).Live :=
    ⟨rfl, by rw [opened]⟩
  have granted : (log.file.openFile path true).1.ok = true := by rw [opened]; rfl
  constructor
  · simp only [LogFile.create, granted, if_not_true]
    exact LogFile.Live.writeHeader ⟨live.attached, live.isOpen⟩
  · have read := live.reads (LogFile.readHeader_reads _)
    simp only [LogFile.openLog, granted, if_not_true]
    split
    · exact LogFile.Live.writeHeader ⟨read.attached, read.isOpen⟩
    · exact ⟨read.attached, read.isOpen⟩

theorem initializeLog_live (new : wal.initialized = false) (free : wal.file.file.isOpen = false) :
    (wal.initializeLog path create).2.file.Live ∧
      ((wal.initializeLog path create).1.ok = true → (wal.initializeLog path create).2.initialized = true) := by
  have live : (if create then wal.file.create path else wal.file.openLog path true).2.Live := by
    split
    · exact (openLog_live free).1
    · exact (openLog_live free).2
  have restored : ∀ log : LogFile, log.Live →
      (if (!create && decide (log.fileSize > WalFileHeader.kSize)) = true then wal.writer.restoreFromFile log
        else (Status.success, wal.writer, log)).2.2.Live := by
    intro log live
    split
    · exact live.reads (wal.writer.restoreFromFile_reads log)
    · exact live
  rw [LogManager.initializeLog, if_neg (by simp [new])]
  simp only
  generalize (if create then wal.file.create path else wal.file.openLog path true) = opened at live ⊢
  have restored := restored _ (live.reads (LogFile.validate_reads _))
  generalize (if (!create && decide (opened.2.validate.2.fileSize > WalFileHeader.kSize)) = true then
    wal.writer.restoreFromFile opened.2.validate.2 else (Status.success, wal.writer, opened.2.validate.2)) = last at restored ⊢
  split
  next refused => exact ⟨live, fun granted => absurd granted (by simpa using refused)⟩
  split
  next refused => exact ⟨(live.reads (LogFile.validate_reads _)), fun granted => absurd granted (by simpa using refused)⟩
  split
  next refused => exact ⟨restored, fun granted => absurd granted (by simpa using refused)⟩
  · exact ⟨restored, fun _ => rfl⟩

theorem initializeUnder_busy (busy : ¬ wal.Idle) (contents : Option (List UInt8)) (fault : Option InitializeFault) :
    ((mounted wal contents).initializeUnder fault path create).1.ok = false ∧
      ¬ ((mounted wal contents).initializeUnder fault path create).2.Idle := by
  cases started : wal.initialized with
  | true =>
    have refused : (mounted wal contents).initializeUnder fault path create =
        (Status.invalidArgument "LogManager: already initialized", mounted wal contents) := by
      cases fault with
      | none | some fault => exact if_pos started
    rw [refused]
    exact ⟨rfl, fun idle => absurd idle.1 (by simp [mounted, started])⟩
  | false =>
    have held : wal.file.file.isOpen = true := Bool.eq_true_of_not_eq_false fun free => busy ⟨started, free⟩
    have same : mounted wal contents = wal := by rw [mounted, mount_busy held]
    rw [same]
    cases fault with
    | none =>
      simp only [LogManager.initializeUnder_none, LogManager.initializeLog, started, LogFile.create, LogFile.openLog, openFile_busy held,
        if_false_true, Status.ok_ioError, Bool.not_false, if_true, ite_self]
      exact ⟨trivial, fun idle => absurd held (by simpa using idle.2)⟩
    | some fault =>
      cases fault <;> simp only [LogManager.initializeUnder, started, openFile_busy held, openFailing_busy held, if_false_true,
        Status.ok_ioError, Bool.not_false, if_true]
      all_goals exact ⟨trivial, fun idle => absurd held (by simpa using idle.2)⟩

theorem initializeUnder_idle (idle : wal.Idle) (contents : Option (List UInt8)) (fault : Option InitializeFault) :
    (((mounted wal contents).initializeUnder fault path create).2.Idle ↔ fault = some .openFile) ∧
      (((mounted wal contents).initializeUnder fault path create).1.ok = true →
        fault ≠ some .openFile ∧ ((mounted wal contents).initializeUnder fault path create).2.Running) := by
  have new : (mounted wal contents).initialized = false := idle.1
  have free : (mounted wal contents).file.file.isOpen = false := by
    rw [mounted, mount_free idle.2]
    exact idle.2
  generalize mounted wal contents = manager at new free ⊢
  cases fault with
  | none =>
    obtain ⟨live, started⟩ := @initializeLog_live manager path create new free
    rw [LogManager.initializeUnder_none]
    refine ⟨iff_of_false (fun idle => ?_) (by simp), fun granted => ⟨by simp, started granted, live⟩⟩
    cases idle.2.symm.trans live.isOpen
  | some fault =>
    cases fault with
    | openFile =>
      obtain ⟨message, after, failed, shut⟩ := @openFailing_free manager.file.file path true free
      simp only [LogManager.initializeUnder, new, failed, Status.ok_ioError, if_false_true, Bool.not_false, if_true]
      exact ⟨iff_of_true ⟨rfl, shut⟩ trivial, by simp⟩
    | header =>
      simp only [LogManager.initializeUnder, new, openFile_free free (.inr rfl), Status.ok_success, if_not_true]
      exact ⟨iff_of_false (fun idle => nomatch idle.2) (by simp), by simp⟩

end Log

/-! ### One `open` -/

theorem Released.stored_iff : (database.stored call).Released ↔
    (database.stored call).file.isOpen = false ∧ (database.options.enableWal = true → database.wal.Idle) := by
  rw [stored_eq database call]
  rfl

theorem storage_granted (granted : (database.initializeStorage call).1.ok = true) :
    database.file.isOpen = false ∧ ¬ call.DataRefused ∧ call.DataPrepared ∧ (database.stored call).file.isOpen = true := by
  cases held : database.file.isOpen with
  | true => simp [(initializeStorage_busy held call).1] at granted
  | false =>
    have accepted : ¬ call.DataRefused := fun refused => by simp [(initializeStorage_refused held refused).1] at granted
    obtain ⟨kept, prepared⟩ := initializeStorage_opened held accepted
    exact ⟨rfl, accepted, prepared.mp granted, kept⟩

theorem logged_eq (database : Database) (call : OpenCall) :
    ((database.stored call).initializeWal call).1 = (database.logOf call).1 ∧
      database.logged call = { database with
        file := (database.stored call).file
        walAdapter := { database.walAdapter with manager := (database.logOf call).2 } } := by
  rw [logged, stored_eq database call]
  exact ⟨rfl, rfl⟩

theorem log_granted (granted : (database.logOf call).1.ok = true) :
    database.wal.Idle ∧ call.logFault ≠ some .openFile ∧ (database.logOf call).2.Running := by
  by_cases idle : database.wal.Idle
  · exact ⟨idle, (initializeUnder_idle idle _ _).2 granted⟩
  · have refused : (database.logOf call).1.ok = false := (initializeUnder_busy idle call.log call.logFault).1
    simp [refused] at granted

theorem runRecovery_eq (database : Database) : database.runRecovery =
    ((RecoveryManager.recover database.wal database.tree).1.1, { database with
      tree := (RecoveryManager.recover database.wal database.tree).1.2.1
      walAdapter := { database.walAdapter with manager := (RecoveryManager.recover database.wal database.tree).2 }
      lastRecovery := (RecoveryManager.recover database.wal database.tree).1.2.2 }) := by
  rw [runRecovery]
  generalize RecoveryManager.recover database.wal database.tree = result
  rfl

theorem recovery_eq (database : Database) (call : OpenCall) :
    (database.logged call).runRecovery.1 = (RecoveryManager.recover (database.logOf call).2 database.tree).1.1 ∧
      database.recovered call = { database with
        file := (database.stored call).file
        tree := (RecoveryManager.recover (database.logOf call).2 database.tree).1.2.1
        walAdapter := { database.walAdapter with manager := (RecoveryManager.recover (database.logOf call).2 database.tree).2 }
        lastRecovery := (RecoveryManager.recover (database.logOf call).2 database.tree).1.2.2 } := by
  rw [recovered, runRecovery_eq, (logged_eq database call).2]
  exact ⟨rfl, rfl⟩

theorem released_step (shut : database.isOpen = false) (failed : (database.openDatabase call).1 ≠ .ok ()) :
    (database.openDatabase call).2.Released ↔ database.Released ∧ database.Releases call := by
  obtain ⟨status, logged⟩ := logged_eq database call
  have ends := opens shut call
  generalize database.openDatabase call = result at failed ends ⊢
  cases ends with
  | storage refused =>
    rw [Released.stored_iff]
    cases held : database.file.isOpen with
    | true =>
      have stays := (initializeStorage_busy held call).2
      simp [Released, held, stays]
    | false =>
      by_cases cannot : call.DataRefused
      · have shut := (initializeStorage_refused held cannot).2
        simp [Released, held, shut, Releases, cannot]
      · obtain ⟨kept, prepared⟩ := initializeStorage_opened held cannot
        have unprepared : ¬ call.DataPrepared := fun ready => by simp [prepared.mpr ready] at refused
        simp [kept, Releases, cannot, unprepared]
  | log granted enabled refused =>
    obtain ⟨free, accepted, prepared, -⟩ := storage_granted granted
    rw [status] at refused
    have unrecovered : ¬ database.RecoveryRefused call := fun recovered => by simp [recovered.1] at refused
    have after : ({ database.logged call with file := (database.logged call).file.close.2 } : Database).Released ↔
        (database.logOf call).2.Idle := by
      simp [logged, Released, enabled, wal, close_shut]
    rw [after]
    simp only [Released, free, enabled, Releases, accepted, prepared, unrecovered, true_and, false_or, or_false, forall_const]
    by_cases idle : database.wal.Idle
    · exact (initializeUnder_idle idle _ _).1.trans (by simp [idle])
    · exact iff_of_false (initializeUnder_busy idle _ _).2 (by simp [idle])
  | recovery granted enabled initialized recovers refused =>
    obtain ⟨free, accepted, prepared, -⟩ := storage_granted granted
    rw [status] at initialized
    obtain ⟨idle, opened, running⟩ := log_granted initialized
    have recovery := recovery_eq database call
    have held := running.reads (RecoveryManager.recover_reads _ database.tree)
    have after : ({ (database.recovered call).setWal (database.recovered call).wal.shutdown.2 with
          file := (database.recovered call).file.close.2 } : Database).Released ↔
        (RecoveryManager.recover (database.logOf call).2 database.tree).2.file.file.fail = false := by
      rw [← held.shutdown_idle_iff]
      simp [recovery.2, Released, enabled, wal, setWal, close_shut]
    rw [recovery.1] at refused
    rw [after]
    simp [Released, free, enabled, idle, Releases, accepted, prepared, opened, RecoveryRefused, initialized, refused]
  | thrown granted enabled initialized recovers exception thrown =>
    obtain ⟨free, accepted, prepared, kept⟩ := storage_granted granted
    rw [status] at initialized
    obtain ⟨idle, opened, running⟩ := log_granted initialized
    have recovery := recovery_eq database call
    rw [recovery.1] at thrown
    refine iff_of_false (fun released => ?_) ?_
    · have shut := released.1
      rw [recovery.2] at shut
      cases shut.symm.trans kept
    · simp [Releases, accepted, opened, RecoveryRefused, thrown, exception]
  | done => exact absurd rfl failed

/-! ### A later `open` -/

theorem initializeStorage_same {other : Database} (free : database.file.isOpen = false) (otherFree : other.file.isOpen = false)
    (formed : call.WellFormed) : (database.initializeStorage call).1 = (other.initializeStorage call).1 ∧
      (database.stored call).file = (other.stored call).file := by
  obtain ⟨bytes, found, -⟩ := formed.data
  have opened : ∀ file : DatabaseFile, file.isOpen = false → DatabaseFile.openFile { file with contents := call.data }
      call.path call.createIfMissing = (Status.success, fileAt call) :=
    fun file free => openFile_free free (.inl (by simp [found]))
  simp only [stored, initializeStorage, mount_free free, mount_free otherFree, formed.dataOpens, formed.dataWrites, if_false_true,
    opened _ free, opened _ otherFree, Status.ok_success, Bool.not_true]
  split
  · split <;> exact ⟨rfl, rfl⟩
  · exact ⟨rfl, rfl⟩

section Fresh

variable {wal other : LogManager} {path : String} {create : Bool}

theorem readHeader_offset (log : LogFile) (offset : Nat) :
    ({ log with appendOffset := offset } : LogFile).readHeader =
      (log.readHeader.1, log.readHeader.2.1, { log.readHeader.2.2 with appendOffset := offset }) := by
  simp only [LogFile.readHeader, LogFile.isOpen]
  split
  · rfl
  split
  · rfl
  split <;> rfl

theorem openLog_eq {log : LogFile} (free : log.file.isOpen = false) :
    log.openLog path true =
      let opened : LogFile := { file := { contents := some log.file.bytes, path := path, isOpen := true, size := log.file.bytes.length } }
      if !opened.readHeader.1.ok then { opened.readHeader.2.2 with appendOffset := WalFileHeader.kSize }.writeHeader
      else (Status.success, { opened.readHeader.2.2 with appendOffset := opened.readHeader.2.2.file.fileSize }) := by
  have read := readHeader_offset
    { file := { contents := some log.file.bytes, path := path, isOpen := true, size := log.file.bytes.length } } log.appendOffset
  simp only [LogFile.openLog, openFile_free free (.inr rfl), Status.ok_success, if_not_true] at read ⊢
  rw [read]

theorem openLog_same {log second : LogFile} (free : log.file.isOpen = false) (secondFree : second.file.isOpen = false)
    (contents : log.file.contents = second.file.contents) :
    log.create path = second.create path ∧ log.openLog path true = second.openLog path true := by
  have bytes : log.file.bytes = second.file.bytes := by rw [DatabaseFile.bytes, DatabaseFile.bytes, contents]
  constructor
  · simp only [LogFile.create, openFile_free free (.inr rfl), openFile_free secondFree (.inr rfl), bytes, Status.ok_success, if_not_true]
  · rw [openLog_eq free, openLog_eq secondFree, bytes]

theorem initializeLog_same (new : wal.initialized = false) (free : wal.file.file.isOpen = false)
    (otherNew : other.initialized = false) (otherFree : other.file.file.isOpen = false)
    (contents : wal.file.file.contents = other.file.file.contents) :
    (wal.initializeLog path create).1 = (other.initializeLog path create).1 ∧
      (wal.initializeLog path create).2.file = (other.initializeLog path create).2.file := by
  obtain ⟨created, opened⟩ := @openLog_same path _ _ free otherFree contents
  have scanned : ∀ (writer : LogWriter) (log : LogFile), (writer.restoreFromFile log).2.2 =
      (LogWriter.lastLsn log.fileSize log WalFileHeader.kSize .invalid).2 := by
    intro writer log
    unfold LogWriter.restoreFromFile
    simp only
    split <;> rfl
  simp only [LogManager.initializeLog, new, otherNew, if_false_true, created, opened]
  generalize (if create then other.file.create path else other.file.openLog path true) = opened
  split
  · exact ⟨rfl, rfl⟩
  split
  · exact ⟨rfl, rfl⟩
  by_cases scans : (!create && decide (opened.2.validate.2.fileSize > WalFileHeader.kSize)) = true
  · simp only [if_pos scans, LogWriter.restoreFromFile_granted, scanned, Status.ok_success, if_not_true, and_self]
  · simp only [if_neg scans, Status.ok_success, if_not_true, and_self]

end Fresh

theorem openFiles_eq (database : Database) (call : OpenCall) : database.openFiles call =
    if !(database.initializeStorage call).1.ok then ((database.initializeStorage call).1, (database.stored call).file, none)
    else if database.options.enableWal then
      ((database.logOf call).1, (database.stored call).file, some (database.logOf call).2.file)
    else ((database.initializeStorage call).1, (database.stored call).file, none) := by
  have status := (logged_eq database call).1
  have file : (database.logged call).file = (database.stored call).file := by rw [(logged_eq database call).2]
  have log : (database.logged call).wal.file = (database.logOf call).2.file := by rw [(logged_eq database call).2]; rfl
  rw [← status, ← log, ← file, ← (stored_kept database call).options]
  rfl

theorem Released.openFiles_same {other : Database} (released : database.Released) (otherReleased : other.Released)
    (options : other.options = database.options) (formed : call.WellFormed) :
    database.openFiles call = other.openFiles call := by
  obtain ⟨status, file⟩ := initializeStorage_same released.1 otherReleased.1 formed
  rw [openFiles_eq, openFiles_eq, status, file, options]
  cases enabled : database.options.enableWal with
  | false => rfl
  | true =>
    have idle := released.2 enabled
    have otherIdle := otherReleased.2 (by rw [options, enabled])
    have log : (database.logOf call).1 = (other.logOf call).1 ∧ (database.logOf call).2.file = (other.logOf call).2.file := by
      rw [logOf, logOf, formed.logOpens, LogManager.initializeUnder_none, LogManager.initializeUnder_none, mounted, mounted,
        mount_free idle.2, mount_free otherIdle.2]
      exact initializeLog_same idle.1 idle.2 otherIdle.1 otherIdle.2 rfl
    rw [log.1, log.2]

theorem openFiles_refused (held : ¬ database.Released) (call : OpenCall) : (database.openFiles call).1.ok = false := by
  rw [openFiles_eq]
  cases granted : (database.initializeStorage call).1.ok with
  | false => exact granted
  | true =>
    have free := (storage_granted granted).1
    have busy : ¬ (database.options.enableWal = true → database.wal.Idle) := fun idle => held ⟨free, idle⟩
    obtain ⟨enabled, busy⟩ := Classical.not_imp.mp busy
    simp only [if_not_true, enabled, if_true]
    exact (initializeUnder_busy busy _ _).1

/-- A path with both files, as an earlier `open` has left them. -/
def formedCall : OpenCall where
  path := "q"
  data := some (List.replicate Pages.kPageSize 0)
  log := some walHeader

theorem formedCall_wellFormed : formedCall.WellFormed :=
  ⟨⟨_, rfl, by simp⟩, ⟨[], by rw [List.append_nil]; rfl⟩, rfl, rfl, rfl⟩

theorem Released.openFiles_granted (released : database.Released) : (database.openFiles formedCall).1.ok = true := by
  have granted : (database.initializeStorage formedCall).1.ok = true := by
    refine (initializeStorage_opened released.1 ?_).2.mpr ⟨?_, .inl rfl⟩ <;>
    · simp [DataRefused, formedCall]
  rw [openFiles_eq, granted]
  cases enabled : database.options.enableWal with
  | false => exact granted
  | true =>
    have idle := released.2 enabled
    have closed : (mounted database.wal (some walHeader)).file.file.isOpen = false := by
      rw [mounted, mount_free idle.2]
      exact idle.2
    obtain ⟨after, done, -⟩ := LogManager.initialize_create (show (mounted database.wal (some walHeader)).initialized = false from idle.1)
      closed (walPathFor "q")
    have done : database.logOf formedCall = (Status.success, after) := done
    simp [done]

theorem opensAsFresh_iff : database.OpensAsFresh ↔ database.Released := by
  have fresh : (Database.create database.options database.walAdapter.clock).Released := ⟨rfl, fun _ => ⟨rfl, rfl⟩⟩
  constructor
  · intro same
    by_contra held
    have refused := openFiles_refused held formedCall
    rw [same formedCall formedCall_wellFormed, fresh.openFiles_granted] at refused
    cases refused
  · intro released call formed
    exact released.openFiles_same fresh rfl formed

/-! ### Sequences of failed calls -/

def openStep (database : Database) (call : OpenCall) : Database := (database.openDatabase call).2

def OpenFails (database : Database) (call : OpenCall) : Prop := (database.openDatabase call).1 ≠ .ok ()

theorem openStep_shut (shut : database.isOpen = false) (failed : database.OpenFails call) :
    (database.openStep call).isOpen = false := by
  have ends := opens shut call
  rw [openStep]
  rw [OpenFails] at failed
  generalize database.openDatabase call = result at failed ends ⊢
  have closed : ∀ after : Database, Kept database after → after.isOpen = false := fun after kept => kept.isOpen.trans shut
  cases ends with
  | storage => exact closed _ (stored_kept database call)
  | log => exact closed _ ((logged_kept database call).releases _ _)
  | recovery => exact closed _ ((recovered_kept database call).releases _ _)
  | thrown => exact closed _ (recovered_kept database call)
  | done => exact absurd rfl failed

/-- After any calls of `open` that fail, the files at a path are opened as by a new database exactly
when nothing was open before and each call failed in a way that lets go of everything. -/
theorem failed_opens_release_iff (database : Database) (shut : database.isOpen = false) (calls : List OpenCall)
    (failing : Runs.AtEachStep openStep OpenFails database calls) :
    (Runs.after openStep database calls).OpensAsFresh ↔
      database.Released ∧ Runs.AtEachStep openStep Releases database calls := by
  rw [opensAsFresh_iff]
  induction calls generalizing database with
  | nil => simp
  | cons call rest ih =>
    obtain ⟨failed, later⟩ := Runs.atEachStep_cons.mp failing
    rw [Runs.after_cons, Runs.atEachStep_cons, ih _ (openStep_shut shut failed) later, openStep, released_step shut failed, and_assoc]

/-- Both files are there, and the only record of the log is zeros behind its size. -/
def blankRecordCall : OpenCall where
  path := "q"
  createIfMissing := false
  data := some (List.replicate Pages.kPageSize 0)
  log := some (walHeader ++ [45, 0, 0, 0] ++ List.replicate 48 0)

/-- The log is opened, and the recovery from it answers with a status. -/
theorem failed_opens_release_recovery :
    (Runs.after openStep (Database.create {} fun _ => 1) [blankRecordCall]).OpensAsFresh := by
  have facts : ((Database.create {} fun _ => 1).openDatabase blankRecordCall).1 ≠ .ok () ∧
      ((Database.create {} fun _ => 1).logOf blankRecordCall).1.ok = true ∧
      (RecoveryManager.recover ((Database.create {} fun _ => 1).logOf blankRecordCall).2 (Database.create {} fun _ => 1).tree).1.1 =
        .error (.status (Status.corruption "LogValidator: invalid record type")) ∧
      (RecoveryManager.recover ((Database.create {} fun _ => 1).logOf blankRecordCall).2
        (Database.create {} fun _ => 1).tree).2.file.file.fail = false := by
    decide +kernel
  obtain ⟨failed, initialized, refused, good⟩ := facts
  refine (failed_opens_release_iff _ rfl _ (Runs.atEachStep_cons.mpr ⟨failed, Runs.atEachStep_nil⟩)).mpr
    ⟨⟨rfl, fun _ => ⟨rfl, rfl⟩⟩, Runs.atEachStep_cons.mpr ⟨.inr ⟨?_, .inr ⟨initialized, ⟨_, refused⟩, good⟩⟩, Runs.atEachStep_nil⟩⟩
  exact ⟨by simp [DataRefused, blankRecordCall], .inl rfl⟩

/-- The log at the path does not begin with the magic number. -/
def spoiledCall : OpenCall where
  path := "q"
  createIfMissing := false
  data := some (List.replicate Pages.kPageSize 0)
  log := some (List.replicate WalFileHeader.kSize 0)

/-- A log whose header is refused is never closed. -/
theorem refused_header_keeps_log :
    (Database.create {} fun _ => 1).OpenFails spoiledCall ∧
      ¬ ((Database.create {} fun _ => 1).openStep spoiledCall).OpensAsFresh := by
  have facts : ((Database.create {} fun _ => 1).openDatabase spoiledCall).1 ≠ .ok () ∧
      ((Database.create {} fun _ => 1).openStep spoiledCall).options.enableWal = true ∧
      ((Database.create {} fun _ => 1).openStep spoiledCall).wal.file.file.isOpen = true := by
    decide +kernel
  obtain ⟨failed, enabled, held⟩ := facts
  refine ⟨failed, fun same => ?_⟩
  have idle := (opensAsFresh_iff.mp same).2 enabled
  cases idle.2.symm.trans held

end Database
end Quartz.Core
