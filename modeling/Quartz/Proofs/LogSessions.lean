import Quartz.Proofs.LogBatches

/-! Sessions on one log. Initialising with `create` puts the append offset behind the header
of whatever the file holds, so a second session that writes goes over the first. -/

namespace Quartz.Wal
open Storage Serialization Bytes LogWriter LogFile

/-- One session: on a new manager or on the one shut down before, and what it appends. -/
structure LogSession where
  reuse : Bool
  records : List LogRecord
  deriving DecidableEq, Repr

namespace LogManager

/-- Appends records, each flushed on its own, up to the first that fails. -/
def writeAll (manager : LogManager) : List LogRecord → Status × LogManager
  | [] => (Status.success, manager)
  | record :: rest =>
    let (status, manager) := manager.append record
    if !status.ok then (status, manager)
    else
      let (status, manager) := manager.flush
      if !status.ok then (status, manager) else manager.writeAll rest

end LogManager

/-- The manager left by the last session and what every session has written. -/
structure LogSessions where
  manager : LogManager := {}
  written : List (List LogRecord) := []
  deriving DecidableEq, Repr

namespace LogSessions

/-- The manager a session starts with; the file is the one on the path either way. -/
def starting (sessions : LogSessions) (session : LogSession) : LogManager :=
  if session.reuse then sessions.manager
  else { file := { file := { contents := sessions.manager.file.file.contents } } }

def opened (path : String) (sessions : LogSessions) (session : LogSession) : LogManager :=
  ((sessions.starting session).initializeLog path true).2

/-- The session after initialising: appends and flushes, then the shutdown. -/
def outcome (path : String) (sessions : LogSessions) (session : LogSession) : Status × LogManager :=
  let (status, manager) := (opened path sessions session).writeAll session.records
  if !status.ok then (status, manager) else manager.shutdown

def step (path : String) (sessions : LogSessions) (session : LogSession) : LogSessions where
  manager := (outcome path sessions session).2
  written := sessions.written ++
    [LogRecord.numberedFrom (sessions.starting session).writer.nextLsn.value.toNat session.records]

def Accepted (path : String) (sessions : LogSessions) (session : LogSession) : Prop :=
  (outcome path sessions session).1.ok = true

instance (path : String) (sessions : LogSessions) (session : LogSession) : Decidable (Accepted path sessions session) :=
  inferInstanceAs (Decidable (_ = true))

/-- Right after initialising, the log reads as all earlier sessions wrote it. -/
structure Survives (path : String) (sessions : LogSessions) (session : LogSession) : Prop where
  records : ((opened path sessions session).readAll (sessions.written.flatten.length + 1)).1 = sessions.written.flatten
  complete : ((opened path sessions session).readAll (sessions.written.flatten.length + 1)).2.1 =
    some LogManager.endOfLog
  increasing : sessions.written.flatten.Pairwise fun first second => first.lsn.value < second.lsn.value

instance (path : String) (sessions : LogSessions) (session : LogSession) : Decidable (Survives path sessions session) :=
  decidable_of_iff (_ ∧ _ ∧ _) ⟨fun ⟨records, complete, increasing⟩ => ⟨records, complete, increasing⟩,
    fun ⟨records, complete, increasing⟩ => ⟨records, complete, increasing⟩⟩

structure Closed (manager : LogManager) : Prop where
  initialized : manager.initialized = false
  closed : manager.file.file.isOpen = false
  buffer : manager.writer.buffer = {}

structure Writing (manager : LogManager) : Prop where
  initialized : manager.initialized = true
  ready : manager.file.Ready
  inside : manager.file.appendOffset ≤ manager.file.file.bytes.length
  aligned : manager.file.appendOffset % 8 = 0
  buffer : manager.writer.buffer = {}

theorem append_flush {manager : LogManager} (writing : Writing manager) {record : LogRecord} {number : Nat}
    (next : manager.writer.nextLsn = ⟨UInt64.ofNat number⟩) (small : number ≤ 2 ^ 64)
    (accepted : (manager.append record).1.ok = true) :
    ∃ after, (manager.append record).2.flush = (Status.success, after) ∧ Writing after ∧
      Numbered number [record.numbered number] ∧ number + 1 ≤ 2 ^ 64 ∧
      after.writer.nextLsn = ⟨UInt64.ofNat (number + 1)⟩ ∧
      after.file.appendOffset = manager.file.appendOffset + (paddedFrame (record.numbered number)).length ∧
      after.file.file.bytes = Splice.write 0 manager.file.file.bytes manager.file.appendOffset
        (paddedFrame (record.numbered number)) := by
  have called : (!manager.initialized) = false := by rw [writing.initialized]; rfl
  simp only [LogManager.append, called, if_false_true] at accepted ⊢
  -- zero is no sequence number
  have positive : 0 < number := by
    have valid := (appendRecord_ok accepted).1.lsn
    refine Nat.pos_of_ne_zero fun zero => ?_
    simp [next, zero, LogSequenceNumber.isValid] at valid
  have single : manager.writer.appendBatch [record] = (Status.success, (manager.writer.appendRecord record).2) := by
    simp [LogWriter.appendBatch, accepted]
  have appended : (manager.writer.appendBatch [record]).1.ok = true := by rw [single]; rfl
  obtain ⟨numbered, bound, lsn, buffer⟩ := appendBatch_ok next positive small (by rw [writing.buffer]) appended
  rw [single] at lsn buffer
  simp only [writing.buffer, List.nil_append, LogRecord.numberedFrom] at buffer numbered
  obtain ⟨file, flushed, ready, offset, bytes⟩ :=
    flush_ready (manager.writer.appendRecord record).2 writing.ready writing.inside writing.aligned
  have block : (manager.writer.appendRecord record).2.buffer.bytes ++ List.replicate
      (padded (manager.writer.appendRecord record).2.buffer.bytes.length -
        (manager.writer.appendRecord record).2.buffer.bytes.length) 0 = paddedFrame (record.numbered number) := by
    rw [buffer]
    exact blockBytes_singleton (record.numbered number)
  have length : padded (manager.writer.appendRecord record).2.buffer.bytes.length =
      (paddedFrame (record.numbered number)).length := by
    have fits := padded_ge (manager.writer.appendRecord record).2.buffer.bytes.length
    rw [← block, List.length_append, List.length_replicate]
    omega
  rw [length] at offset
  rw [block] at bytes
  refine ⟨{ manager with
      file := file
      writer := ((manager.writer.appendRecord record).2.flush manager.file).2.1 },
    by simp only [LogManager.flush, called, if_false_true, flushed],
    ⟨writing.initialized, ready, ?_, ?_, ?_⟩, numbered, bound, by rw [flushed]; exact lsn, offset, bytes⟩
  · simp only [offset, bytes, Splice.length_write]
    omega
  · have whole := writing.aligned
    simp only [offset, length_paddedFrame, padded_eq] at whole ⊢
    omega
  · simp [flushed, buffer]

theorem writeAll_ok {manager : LogManager} (writing : Writing manager) {records : List LogRecord} {number : Nat}
    (next : manager.writer.nextLsn = ⟨UInt64.ofNat number⟩) (small : number ≤ 2 ^ 64)
    (accepted : (manager.writeAll records).1.ok = true) :
    Writing (manager.writeAll records).2 ∧ Numbered number (LogRecord.numberedFrom number records) ∧
      (manager.writeAll records).2.file.file.bytes = Splice.write 0 manager.file.file.bytes manager.file.appendOffset
        ((LogRecord.numberedFrom number records).flatMap paddedFrame) := by
  induction records generalizing manager number with
  | nil => exact ⟨writing, trivial, by simp [LogManager.writeAll, LogRecord.numberedFrom, Splice.write_inside writing.inside]⟩
  | cons record rest ih =>
    rw [LogManager.writeAll] at accepted ⊢
    cases first : (manager.append record).1.ok with
    | false => simp [first] at accepted
    | true =>
      obtain ⟨after, flushed, kept, numbered, bound, lsn, offset, bytes⟩ :=
        append_flush writing next small first
      simp only [first, flushed, if_not_true, Status.ok_success] at accepted ⊢
      obtain ⟨done, later, block⟩ := ih kept lsn bound accepted
      refine ⟨done, ⟨numbered.1, numbered.2.1, numbered.2.2.1, later⟩, ?_⟩
      rw [block, bytes, offset, Splice.write_write]
      rfl

theorem shutdown_writing {manager : LogManager} (writing : Writing manager) :
    ∃ after, manager.shutdown = (Status.success, after) ∧ Closed after ∧
      after.file.file.bytes = manager.file.file.bytes ∧ after.writer.nextLsn = manager.writer.nextLsn := by
  have called : (!manager.initialized) = false := by rw [writing.initialized]; rfl
  obtain ⟨file, flushed, ready, -, bytes⟩ := flush_ready manager.writer writing.ready writing.inside writing.aligned
  have kept : file.file.bytes = manager.file.file.bytes := by
    simp [bytes, writing.buffer, padded, Splice.write_inside writing.inside]
  refine ⟨{ manager with
      initialized := false, file := file.close.2, writer := (manager.writer.flush manager.file).2.1 },
    ?_, ⟨rfl, ?_, ?_⟩, ?_, ?_⟩
  · simp [LogManager.shutdown, LogManager.flush, called, flushed, LogFile.close, ready.attached, DatabaseFile.close, ready.isOpen]
  · simp [LogFile.close, ready.attached, DatabaseFile.close, ready.isOpen]
  · simp [flushed, writing.buffer]
  · rw [← kept]
    simp only [LogFile.close, ready.attached, if_not_true, DatabaseFile.close, ready.isOpen, DatabaseFile.bytes]
  · rw [flushed]

/-- The file behind its header when these non-empty batches have been written: a second one
has gone over the start of the first. -/
inductive Holds (bytes : List UInt8) : List (List LogRecord) → Prop
  | nothing (empty : bytes = []) : Holds bytes []
  | single {batch : List LogRecord} (written : batch ≠ []) (numbered : Numbered 1 batch)
      (placed : bytes = batch.flatMap paddedFrame) : Holds bytes [batch]
  | several {first record : LogRecord} {rest tail : List LogRecord} {between : List (List LogRecord)}
      {behind : List UInt8} (valid : record.Valid) (fits : record.Fits)
      (placed : bytes = frame record ++ behind) : Holds bytes ((first :: rest) :: between ++ [record :: tail])

/-- The batches of the sessions that appended at all. -/
def active (sessions : LogSessions) : List (List LogRecord) := sessions.written.filter (· ≠ [])

structure Sound (sessions : LogSessions) : Prop where
  closed : Closed sessions.manager
  unnumbered : sessions.active = [] → sessions.manager.writer.nextLsn = .initial
  holds : Holds (sessions.manager.file.file.bytes.drop 16) sessions.active

theorem sound_new : Sound {} :=
  ⟨⟨rfl, rfl, rfl⟩, fun _ => rfl, .nothing rfl⟩

variable {path : String} {sessions : LogSessions} {session : LogSession}

private theorem Sound.starting (sound : Sound sessions) (session : LogSession) :
    Closed (sessions.starting session) ∧
      (sessions.starting session).file.file.bytes = sessions.manager.file.file.bytes ∧
      (sessions.active = [] → (sessions.starting session).writer.nextLsn = .initial) := by
  unfold LogSessions.starting
  split
  · exact ⟨sound.closed, rfl, sound.unnumbered⟩
  · exact ⟨⟨rfl, rfl, rfl⟩, rfl, fun _ => rfl⟩

private theorem Sound.opened (sound : Sound sessions) (path : String) (session : LogSession) :
    Writing (opened path sessions session) ∧
      (opened path sessions session).file.file.bytes = walHeader ++ sessions.manager.file.file.bytes.drop 16 ∧
      (opened path sessions session).file.appendOffset = 16 ∧ (opened path sessions session).reader = {} ∧
      (opened path sessions session).writer = (sessions.starting session).writer := by
  obtain ⟨closed, bytes, -⟩ := sound.starting session
  obtain ⟨after, created, initialized, ready, contents, offset, writer, reader⟩ :=
    LogManager.initialize_create closed.initialized closed.closed path
  have result : LogSessions.opened path sessions session = after := by rw [LogSessions.opened, created]
  rw [result]
  refine ⟨⟨initialized, ready, ?_, by rw [offset], by rw [writer, closed.buffer]⟩, ?_, offset, reader, writer⟩
  · rw [offset, contents, List.length_append, length_walHeader]
    omega
  · rw [contents, bytes]

private theorem Holds.head {bytes : List UInt8} {batches : List (List LogRecord)} (holds : Holds bytes batches)
    (some : batches ≠ []) : ∃ first rest more, batches = (first :: rest) :: more := by
  cases holds with
  | nothing => exact absurd rfl some
  | @single batch written =>
    cases batch with
    | nil => exact absurd rfl written
    | cons first rest => exact ⟨first, rest, [], rfl⟩
  | several => exact ⟨_, _, _, rfl⟩

private theorem Holds.written {old : List UInt8} {batches : List (List LogRecord)} (holds : Holds old batches)
    {batch : List LogRecord} {number : Nat} (numbered : Numbered number batch) (some : batch ≠ [])
    (initial : batches = [] → number = 1) :
    Holds (batch.flatMap paddedFrame ++ old.drop (batch.flatMap paddedFrame).length) (batches ++ [batch]) := by
  by_cases none : batches = []
  · subst none
    cases holds with
    | nothing empty =>
      obtain rfl := initial rfl
      exact .single some numbered (by simp [empty])
  · obtain ⟨first, rest, more, rfl⟩ := holds.head none
    cases batch with
    | nil => exact absurd rfl some
    | cons record tail =>
      obtain ⟨behind, placed⟩ : ∃ behind, (record :: tail).flatMap paddedFrame ++
          old.drop ((record :: tail).flatMap paddedFrame).length = frame record ++ behind := by
        rw [List.flatMap_cons, paddedFrame, List.append_assoc, List.append_assoc]
        exact ⟨_, rfl⟩
      exact .several numbered.2.1 numbered.2.2.1 placed

private theorem Sound.outcome (sound : Sound sessions) (accepted : Accepted path sessions session) {batch : List LogRecord}
    (numbering : batch = LogRecord.numberedFrom (sessions.starting session).writer.nextLsn.value.toNat session.records) :
    Closed (outcome path sessions session).2 ∧
      Numbered (sessions.starting session).writer.nextLsn.value.toNat batch ∧
      (batch = [] → (outcome path sessions session).2.writer.nextLsn = (sessions.starting session).writer.nextLsn) ∧
      (outcome path sessions session).2.file.file.bytes.drop 16 = batch.flatMap paddedFrame ++
        (sessions.manager.file.file.bytes.drop 16).drop (batch.flatMap paddedFrame).length := by
  obtain ⟨writing, bytes, offset, -, writer⟩ := sound.opened path session
  cases wrote : ((LogSessions.opened path sessions session).writeAll session.records).1.ok with
  | false => simp [Accepted, LogSessions.outcome, wrote] at accepted
  | true =>
    obtain ⟨still, numbered, contents⟩ := writeAll_ok writing
      (by rw [writer, UInt64.ofNat_toNat]) (Nat.le_of_lt (UInt64.toNat_lt _)) wrote
    rw [← numbering] at numbered contents
    obtain ⟨after, shut, closed, kept, next⟩ := shutdown_writing still
    have result : (LogSessions.outcome path sessions session).2 = after := by
      simp [LogSessions.outcome, wrote, shut]
    rw [result]
    refine ⟨closed, numbered, fun none => ?_, ?_⟩
    · cases records : session.records with
      | nil => rw [next, records, LogManager.writeAll, writer]
      | cons record rest => simp [numbering, records, LogRecord.numberedFrom] at none
    · have header : (walHeader ++ sessions.manager.file.file.bytes.drop 16).take 16 = walHeader := by
        rw [List.take_append_of_le_length (by simp), List.take_of_length_le (by simp)]
      rw [kept, contents, offset, Splice.write_inside (by rw [← offset]; exact writing.inside), bytes, header,
        List.append_assoc, List.drop_left' length_walHeader, List.drop_append, List.drop_of_length_le (by simp),
        length_walHeader, List.nil_append, Nat.add_sub_cancel_left]

theorem Sound.step (sound : Sound sessions) (accepted : Accepted path sessions session) :
    Sound (step path sessions session) := by
  obtain ⟨closed, numbered, kept, placed⟩ := sound.outcome accepted rfl
  obtain ⟨-, -, initial⟩ := sound.starting session
  set batch := LogRecord.numberedFrom (sessions.starting session).writer.nextLsn.value.toNat session.records with numbering
  have active : (LogSessions.step path sessions session).active = sessions.active ++ [batch].filter (· ≠ []) :=
    List.filter_append _ _
  by_cases none : batch = []
  · have same : (LogSessions.step path sessions session).active = sessions.active := by simp [active, none]
    refine ⟨closed, fun empty => ?_, ?_⟩
    · exact (kept none).trans (initial (same ▸ empty))
    · rw [same, LogSessions.step, placed, none]
      exact sound.holds
  · have more : (LogSessions.step path sessions session).active = sessions.active ++ [batch] := by simp [active, none]
    refine ⟨closed, fun empty => by simp [more] at empty, ?_⟩
    rw [more, LogSessions.step, placed]
    exact sound.holds.written numbered none fun empty => by rw [initial empty]; rfl

theorem flatten_active : sessions.active.flatten = sessions.written.flatten :=
  List.flatten_filter_ne_nil

theorem Survives.of_numbered (sound : Sound sessions) {records : List LogRecord} (numbered : Numbered 1 records)
    (all : sessions.written.flatten = records)
    (placed : sessions.manager.file.file.bytes.drop 16 = records.flatMap paddedFrame) :
    Survives path sessions session := by
  obtain ⟨writing, bytes, -, reader, -⟩ := sound.opened path session
  have read : ∃ after, (LogSessions.opened path sessions session).readAll (records.length + 1) =
      (records, some LogManager.endOfLog, after) := by
    refine LogManager.Facing.readAll ⟨writing.initialized, writing.ready, by rw [reader], ?_, ?_⟩
    · rw [reader]
      exact numbered.ordered (by decide)
    · rw [reader, bytes, placed, show ({} : LogReader).offset = walHeader.length from rfl, List.drop_left]
      exact laid_frames _
  obtain ⟨after, read⟩ := read
  refine ⟨by rw [all, read], by rw [all, read], ?_⟩
  · have increasing : (List.range' 1 records.length).Pairwise (· < ·) := List.pairwise_lt_range'
    rw [← numbered.range, List.pairwise_map] at increasing
    rw [all]
    exact increasing.imp fun less => UInt64.lt_iff_toNat_lt.mpr less

theorem Sound.survives_iff (sound : Sound sessions) : Survives path sessions session ↔ sessions.active.length ≤ 1 := by
  have holds := sound.holds
  have all : sessions.active.flatten = sessions.written.flatten := flatten_active
  generalize sessions.active = batches at holds all ⊢
  cases holds with
  | nothing empty =>
    have numbered : Numbered 1 [] := trivial
    exact iff_of_true (.of_numbered sound numbered all.symm empty) (by simp)
  | single _ numbered placed =>
    exact iff_of_true (.of_numbered sound numbered (by simpa using all.symm) placed) (by simp)
  | @several first record rest tail between behind valid fits placed =>
    refine iff_of_false (fun survives => ?_) (by simp)
    obtain ⟨writing, bytes, -, reader, -⟩ := sound.opened path session
    obtain ⟨read, -, increasing⟩ := survives
    rw [← all] at read increasing
    -- what is read first is the first record of the last batch
    have behindHeader : (LogSessions.opened path sessions session).file.file.bytes.drop
        (LogSessions.opened path sessions session).reader.offset = frame record ++ behind := by
      rw [reader, bytes, placed]
      exact List.drop_left' length_walHeader
    obtain ⟨position, found⟩ := LogReader.readNext_whole writing.ready (by rw [reader]) fits valid
      (fun before => absurd before (by rw [reader]; decide)) behindHeader
    have begins : record = first := by
      simp only [List.cons_append, List.flatten_cons, LogManager.readAll,
        LogManager.readNext_initialized _ writing.initialized, found] at read
      exact (List.cons.inj read).1
    have later : record ∈ rest ++ (between ++ [record :: tail]).flatten := by simp
    have less := (List.pairwise_cons.mp increasing).1 record later
    rw [begins] at less
    exact UInt64.lt_irrefl _ less

theorem active_after (path : String) (start : LogSessions) (done : List LogSession) :
    (Runs.after (step path) start done).active.length =
      start.active.length + (done.filter (·.records ≠ [])).length := by
  induction done generalizing start with
  | nil => simp
  | cons session rest ih =>
    rw [Runs.after_cons, ih]
    cases records : session.records <;> simp [active, step, records, LogRecord.numberedFrom]; omega

/-- Sessions that all succeed find, each right after it initialises, every record of the
sessions before it under increasing numbers exactly when at most one of those that have a
session behind them appends anything. -/
theorem log_survives_iff (path : String) (runs : List LogSession) (accepted : Runs.AtEachStep (step path) (Accepted path) {} runs) :
    Runs.AtEachStep (step path) (Survives path) {} runs ↔
      (runs.dropLast.filter (·.records ≠ [])).length ≤ 1 := by
  have sound : Runs.Always (step path) Sound {} runs :=
    Runs.always_of_invariant (fun _ _ sound accepted => sound.step accepted) sound_new accepted
  have counted : ∀ done, (Runs.after (step path) {} done).active.length = (done.filter (·.records ≠ [])).length := by
    intro done
    rw [active_after]
    exact Nat.zero_add _
  constructor
  · intro survives
    cases runs using List.reverseRecOn with
    | nil => simp
    | append_singleton done last =>
      rw [List.dropLast_concat, ← counted]
      exact (sound done (List.prefix_append _ _)).survives_iff.mp (survives done last (List.prefix_refl _))
  · intro few done next inside
    have early : done <+: runs := (List.prefix_append _ _).trans inside
    refine (sound done early).survives_iff.mpr ?_
    obtain ⟨behind, rfl⟩ := inside
    rw [counted]
    refine Nat.le_trans (List.Sublist.length_le (List.Sublist.filter _ ?_)) few
    rw [List.append_assoc, List.dropLast_append_of_ne_nil (by simp)]
    exact List.sublist_append_left _ _

theorem log_survives_iff_reused :
    let runs := [⟨false, [History.stamped .pageUpdate [1], History.stamped .pageDelete []]⟩, ⟨true, []⟩,
      ⟨true, [History.stamped .pageUpdate [2]]⟩]
    Runs.AtEachStep (step "wal") (Accepted "wal") {} runs ∧
      (Runs.AtEachStep (step "wal") (Survives "wal") {} runs ↔
        (runs.dropLast.filter (·.records ≠ [])).length ≤ 1) :=
  ⟨by decide +kernel, log_survives_iff "wal" _ (by decide +kernel)⟩

/-- Two sessions of one record each: a third finds only the second record. -/
theorem first_session_is_overwritten :
    let runs := [⟨false, [History.stamped .pageUpdate []]⟩, ⟨false, [History.stamped .pageDelete []]⟩, ⟨false, []⟩]
    Runs.AtEachStep (step "wal") (Accepted "wal") {} runs ∧
      ((Runs.after (step "wal") {} (runs.take 2)).written.flatten.map fun record => (record.type, record.lsn.value)) =
        [(.pageUpdate, 1), (.pageDelete, 1)] ∧
      (((opened "wal" (Runs.after (step "wal") {} (runs.take 2)) ⟨false, []⟩).readAll 3).1.map
        fun record => (record.type, record.lsn.value)) = [(.pageDelete, 1)] ∧
      ¬ Runs.AtEachStep (step "wal") (Survives "wal") {} runs := by
  decide +kernel

end LogSessions
end Quartz.Wal
