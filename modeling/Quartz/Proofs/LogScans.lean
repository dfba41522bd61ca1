import Quartz.Lib.Scans
import Quartz.Proofs.LogReading
import Quartz.Proofs.LogReads

/-! The scans of the log over a file with any bytes. Whatever size stands in front of a record, reading it moves the
offset by eight bytes or more, so every scan ends. -/

namespace Quartz.Wal
open Storage

namespace LogFile

theorem seek_size (file : DatabaseFile) (offset : Nat) : (file.seekTo offset).2.size = file.size := by
  unfold DatabaseFile.seekTo
  split
  · rfl
  split <;> rfl

theorem read_size (file : DatabaseFile) (destination : List UInt8) : (file.readBytes destination).2.2.size = file.size := by
  unfold DatabaseFile.readBytes
  split
  · rfl
  split <;> rfl

theorem readBytes_fileSize (log : LogFile) (offset : Nat) (destination : List UInt8) :
    (log.readBytes offset destination).2.2.fileSize = log.fileSize := by
  unfold readBytes
  split
  · rfl
  simp only
  split
  · simp only [fileSize, DatabaseFile.fileSize, seek_size]
  · simp only [fileSize, DatabaseFile.fileSize, read_size, seek_size]

theorem ReadsTo.fileSize {log after : LogFile} (reads : log.ReadsTo after) : after.fileSize = log.fileSize := by
  refine reads.invariant (fun other => other.fileSize = log.fileSize) (fun other offset destination same => ?_) rfl
  exact (other.readBytes_fileSize offset destination).trans same

theorem readRecord_moves {log moved : LogFile} {offset size : Nat} {record : LogRecord}
    (found : log.readRecord offset = (.ok (record, size), moved)) : 8 ≤ size := by
  unfold readRecord at found
  split at found
  · cases found
  simp only at found
  split at found
  · cases found
  split at found
  · cases found
  next some =>
  split at found
  · cases found
  split at found
  · cases found
  · simp only [Prod.mk.injEq, Except.ok.injEq] at found
    rw [← found.1.2, padded_eq]
    omega

def readsAt (log : LogFile) (offset : Nat) : Nat := if offset < log.fileSize then 1 else 0

theorem readsAt_le (log : LogFile) (offset : Nat) : log.readsAt offset ≤ 1 := by
  unfold readsAt
  split <;> decide

theorem readsAt_eq_zero {log : LogFile} {offset : Nat} : log.readsAt offset = 0 ↔ ¬ offset < log.fileSize := by
  simp [readsAt]

theorem lt_of_readsAt {log : LogFile} {offset : Nat} (read : 0 < log.readsAt offset) : offset < log.fileSize := by
  unfold readsAt at read
  split at read
  · assumption
  · cases read

end LogFile

/-! The loops of the source, each by its body. -/

/-- `LogManager.validate` -/
def validateScan : Scan (LogFile × Nat × LogSequenceNumber) (Status × LogFile) where
  round := fun (file, offset, previous) =>
    if offset < file.fileSize then
      match file.readRecord offset with
      | (.error status, file) => .inl (status, file)
      | (.ok (record, bytesRead), file) =>
        let status := LogValidator.validateRecord record
        if !status.ok then .inl (status, file)
        else
          let status := LogValidator.validateLsnOrdering previous record.lsn
          if !status.ok then .inl (status, file) else .inr (file, offset + bytesRead, record.lsn)
    else .inl (Status.success, file)
  reads := fun (file, offset, _) => file.readsAt offset

/-- `LogWriter.restoreFromFile` -/
def restoreScan : Scan (LogFile × Nat × LogSequenceNumber) (LogSequenceNumber × LogFile) where
  round := fun (file, offset, found) =>
    if offset < file.fileSize then
      match file.readRecord offset with
      | (.error _, file) => .inl (found, file)
      | (.ok (record, bytesRead), file) => .inr (file, offset + bytesRead, record.lsn)
    else .inl (found, file)
  reads := fun (file, offset, _) => file.readsAt offset

/-- `LogReader.seekLsn` -/
def seekScan (lsn : LogSequenceNumber) : Scan (LogReader × LogFile) (Status × LogReader × LogFile) where
  round := fun (reader, file) =>
    if reader.endOfLog then .inl (Status.invalidArgument "LogReader: LSN not found", reader, file)
    else
      match reader.readNext file with
      | (.error status, after, file) =>
        if after.endOfLog then .inl (Status.invalidArgument "LogReader: LSN not found", after, file)
        else .inl (status, after, file)
      | (.ok record, after, file) =>
        if record.lsn = lsn then
          let previous := if lsn.value > 1 then ⟨lsn.value - 1⟩ else LogSequenceNumber.invalid
          .inl (Status.success, ⟨reader.offset, previous, false⟩, file)
        else if record.lsn.value > lsn.value then .inl (Status.invalidArgument "LogReader: LSN not found", after, file)
        else .inr (after, file)
  reads := fun (reader, file) => if reader.endOfLog then 0 else file.readsAt reader.offset

/-- The loops that call `LogManager.readNext` until it fails. -/
def recordScan {σ ε : Type} (body : LogRecord → Fallible σ ε Unit) : Scan (LogManager × σ) ((Except ε Unit × σ) × LogManager) where
  round := fun (manager, state) =>
    match manager.readNext with
    | (.error _, manager) => .inl ((.ok (), state), manager)
    | (.ok record, manager) =>
      match (body record).run state with
      | (.error failure, state) => .inl ((.error failure, state), manager)
      | (.ok _, state) => .inr (manager, state)
  reads := fun (manager, _) =>
    if !manager.initialized || manager.reader.endOfLog then 0 else manager.file.readsAt manager.reader.offset

/-- `CheckpointManager.truncateAfterCheckpoint` -/
def truncateScan (lsn : LogSequenceNumber) : Scan (LogFile × Nat) (Status × LogFile) where
  round := fun (file, offset) =>
    if offset < file.fileSize then
      match file.readRecord offset with
      | (.error _, file) =>
        .inl (Status.invalidArgument "CheckpointManager: checkpoint LSN not found for truncation", file)
      | (.ok (record, bytesRead), file) =>
        if record.lsn = lsn then .inl (file.truncate (offset + bytesRead)) else .inr (file, offset + bytesRead)
    else .inl (Status.invalidArgument "CheckpointManager: checkpoint LSN not found for truncation", file)
  reads := fun (file, offset) => file.readsAt offset

namespace LogFile

variable {log : LogFile} {offset : Nat}

theorem readRecord_advances (inside : offset < log.fileSize) {record : LogRecord} {size : Nat} {moved : LogFile}
    (found : log.readRecord offset = (.ok (record, size), moved)) :
    0 < log.readsAt offset ∧ offset + 8 ≤ offset + size ∧ moved.fileSize = log.fileSize := by
  have reads := log.readRecord_reads offset
  rw [found] at reads
  have moves := readRecord_moves found
  exact ⟨by rw [readsAt, if_pos inside]; exact Nat.one_pos, by omega, reads.fileSize⟩

end LogFile

theorem validateScan_advances : validateScan.Advances (fun state => state.2.1) (fun state => state.1.fileSize) 8 where
  once := fun (file, offset, _) => file.readsAt_le offset
  inside := fun _ read => LogFile.lt_of_readsAt read
  moves := by
    rintro ⟨file, offset, previous⟩ next round
    simp only [validateScan] at round ⊢
    split at round
    next inside =>
      split at round
      · cases round
      next record size moved found =>
        split at round
        · cases round
        split at round
        · cases round
        obtain rfl := Sum.inr.inj round
        exact LogFile.readRecord_advances inside found
    · cases round

theorem restoreScan_advances : restoreScan.Advances (fun state => state.2.1) (fun state => state.1.fileSize) 8 where
  once := fun (file, offset, _) => file.readsAt_le offset
  inside := fun _ read => LogFile.lt_of_readsAt read
  moves := by
    rintro ⟨file, offset, found⟩ next round
    simp only [restoreScan] at round ⊢
    split at round
    next inside =>
      split at round
      · cases round
      next record size moved found =>
        obtain rfl := Sum.inr.inj round
        exact LogFile.readRecord_advances inside found
    · cases round

theorem truncateScan_advances (lsn : LogSequenceNumber) :
    (truncateScan lsn).Advances (fun state => state.2) (fun state => state.1.fileSize) 8 where
  once := fun (file, offset) => file.readsAt_le offset
  inside := fun _ read => LogFile.lt_of_readsAt read
  moves := by
    rintro ⟨file, offset⟩ next round
    simp only [truncateScan] at round ⊢
    split at round
    next inside =>
      split at round
      · cases round
      next record size moved found =>
        split at round
        · cases round
        obtain rfl := Sum.inr.inj round
        exact LogFile.readRecord_advances inside found
    · cases round

theorem LogReader.readNext_advances {reader after : LogReader} {log moved : LogFile} {record : LogRecord}
    (read : reader.readNext log = (.ok record, after, moved)) :
    reader.endOfLog = false ∧ 0 < log.readsAt reader.offset ∧ reader.offset + 8 ≤ after.offset ∧
      moved.fileSize = log.fileSize := by
  obtain ⟨going, inside, -, -, size, found, rfl⟩ := readNext_ok read
  exact ⟨going, LogFile.readRecord_advances inside found⟩

theorem seekScan_advances (lsn : LogSequenceNumber) :
    (seekScan lsn).Advances (fun state => state.1.offset) (fun state => state.2.fileSize) 8 where
  once := by
    rintro ⟨reader, file⟩
    simp only [seekScan]
    split
    · exact Nat.zero_le _
    · exact file.readsAt_le _
  inside := by
    rintro ⟨reader, file⟩ read
    simp only [seekScan] at read
    split at read
    · cases read
    · exact LogFile.lt_of_readsAt read
  moves := by
    rintro ⟨reader, file⟩ next round
    simp only [seekScan] at round ⊢
    split at round
    · cases round
    split at round
    · split at round <;> cases round
    next record after moved read =>
      split at round
      · cases round
      split at round
      · cases round
      obtain rfl := Sum.inr.inj round
      obtain ⟨going, advances⟩ := LogReader.readNext_advances read
      rw [if_neg (by simp [going])]
      exact advances

theorem recordScan_advances {σ ε : Type} (body : LogRecord → Fallible σ ε Unit) :
    (recordScan body).Advances (fun state => state.1.reader.offset) (fun state => state.1.file.fileSize) 8 where
  once := by
    rintro ⟨manager, state⟩
    simp only [recordScan]
    split
    · exact Nat.zero_le _
    · exact manager.file.readsAt_le _
  inside := by
    rintro ⟨manager, state⟩ read
    simp only [recordScan] at read
    split at read
    · cases read
    · exact LogFile.lt_of_readsAt read
  moves := by
    rintro ⟨manager, state⟩ next round
    simp only [recordScan] at round ⊢
    cases initialized : manager.initialized with
    | false => simp [LogManager.readNext, initialized] at round
    | true =>
      rw [manager.readNext_initialized initialized] at round
      rcases read : manager.reader.readNext manager.file with ⟨failure | record, after, moved⟩
      · simp [read] at round
      · simp only [read] at round
        split at round
        · cases round
        obtain rfl := Sum.inr.inj round
        obtain ⟨going, advances⟩ := LogReader.readNext_advances read
        rw [if_neg (by simp [going])]
        exact advances

/-! Each loop, from the first record. -/

def LogFile.mostRecords (log : LogFile) : Nat := (log.fileSize - WalFileHeader.kSize) / 8 + 1

theorem validateFrom_endsWithin (log : LogFile) :
    validateScan.EndsWithin log.mostRecords (log, WalFileHeader.kSize, .invalid)
      (LogManager.validateFrom log.fileSize log WalFileHeader.kSize .invalid) := by
  refine validateScan_advances.run_endsWithin (by decide)
    (fun fuel (file, offset, previous) => LogManager.validateFrom fuel file offset previous) ?_ ?_
    (log, WalFileHeader.kSize, .invalid) (Nat.sub_le _ _)
  · rintro ⟨file, offset, previous⟩ result round silent
    simp only [validateScan, LogFile.readsAt_eq_zero] at round silent
    rw [if_neg silent] at round
    exact Sum.inl.inj round
  · rintro fuel ⟨file, offset, previous⟩
    simp only [LogManager.validateFrom, validateScan]
    rcases file.readRecord offset with ⟨failure | ⟨record, size⟩, moved⟩
    · split <;> rfl
    · split
      · simp only
        split
        · rfl
        · split <;> rfl
      · rfl

theorem lastLsn_endsWithin (log : LogFile) :
    restoreScan.EndsWithin log.mostRecords (log, WalFileHeader.kSize, .invalid)
      (LogWriter.lastLsn log.fileSize log WalFileHeader.kSize .invalid) := by
  refine restoreScan_advances.run_endsWithin (by decide)
    (fun fuel (file, offset, found) => LogWriter.lastLsn fuel file offset found) ?_ ?_
    (log, WalFileHeader.kSize, .invalid) (Nat.sub_le _ _)
  · rintro ⟨file, offset, found⟩ result round silent
    simp only [restoreScan, LogFile.readsAt_eq_zero] at round silent
    rw [if_neg silent] at round
    exact Sum.inl.inj round
  · rintro fuel ⟨file, offset, found⟩
    simp only [LogWriter.lastLsn, restoreScan]
    rcases file.readRecord offset with ⟨failure | ⟨record, size⟩, moved⟩
    · split <;> rfl
    · split <;> rfl

theorem truncateFrom_endsWithin (log : LogFile) (lsn : LogSequenceNumber) :
    (truncateScan lsn).EndsWithin log.mostRecords (log, WalFileHeader.kSize)
      (Recovery.CheckpointManager.truncateFrom lsn log.fileSize log WalFileHeader.kSize) := by
  refine (truncateScan_advances lsn).run_endsWithin (by decide)
    (fun fuel (file, offset) => Recovery.CheckpointManager.truncateFrom lsn fuel file offset) ?_ ?_
    (log, WalFileHeader.kSize) (Nat.sub_le _ _)
  · rintro ⟨file, offset⟩ result round silent
    simp only [truncateScan, LogFile.readsAt_eq_zero] at round silent
    rw [if_neg silent] at round
    exact Sum.inl.inj round
  · rintro fuel ⟨file, offset⟩
    simp only [Recovery.CheckpointManager.truncateFrom, truncateScan]
    rcases file.readRecord offset with ⟨failure | ⟨record, size⟩, moved⟩
    · split <;> rfl
    · split
      · simp only
        split <;> rfl
      · rfl

theorem seekFrom_succ (lsn : LogSequenceNumber) (fuel : Nat) (state : LogReader × LogFile) :
    LogReader.seekFrom lsn (fuel + 1) state.1 state.2 =
      ((seekScan lsn).round state).elim id fun next => LogReader.seekFrom lsn fuel next.1 next.2 := by
  obtain ⟨reader, file⟩ := state
  simp only [LogReader.seekFrom, seekScan]
  rcases reader.readNext file with ⟨failure | record, after, moved⟩
  · split
    · rfl
    · simp only
      split <;> rfl
  · split
    · rfl
    · simp only
      split
      · rfl
      · split <;> rfl

theorem seekLsn_endsWithin (reader : LogReader) (log : LogFile) (lsn : LogSequenceNumber) :
    (seekScan lsn).EndsWithin log.mostRecords (reader.rewind, log) (reader.seekLsn log lsn) := by
  -- the fuel of the seek is one more, so a round that leaves the loop is always taken
  refine (seekScan_advances lsn).run_endsWithin (by decide)
    (fun fuel state => LogReader.seekFrom lsn (fuel + 1) state.1 state.2) ?_ ?_ (reader.rewind, log) (Nat.sub_le _ _)
  · intro state result round _
    rw [seekFrom_succ, round, Sum.elim_inl, id]
  · intro fuel state
    exact seekFrom_succ lsn (fuel + 1) state

theorem forRecords_succ {σ ε : Type} (body : LogRecord → Fallible σ ε Unit) (fuel : Nat) (state : LogManager × σ) :
    state.1.forRecords body (fuel + 1) state.2 =
      ((recordScan body).round state).elim id fun next => next.1.forRecords body fuel next.2 := by
  obtain ⟨manager, state⟩ := state
  simp only [LogManager.forRecords, recordScan]
  rcases manager.readNext with ⟨failure | record, after⟩
  · rfl
  · simp only
    rcases (body record).run state with ⟨failure | _, changed⟩ <;> rfl

theorem forRecords_endsWithin {σ ε : Type} (body : LogRecord → Fallible σ ε Unit) (wal : LogManager) (state : σ) :
    (recordScan body).EndsWithin wal.file.mostRecords (wal.rewound, state)
      (wal.rewound.forRecords body (wal.rewound.file.fileSize + 1) state) := by
  refine (recordScan_advances body).run_endsWithin (by decide)
    (fun fuel state => state.1.forRecords body (fuel + 1) state.2) ?_ ?_ (wal.rewound, state) (Nat.sub_le _ _)
  · intro state result round _
    rw [forRecords_succ, round, Sum.elim_inl, id]
  · intro fuel state
    exact forRecords_succ body (fuel + 1) state

end Quartz.Wal

namespace Quartz.Recovery
open Storage Btree Wal

variable {ω : Type} [BTreeWalSink ω]

/-- Over a file with any bytes each of the six scans is left, with what its function then returns, after reading no more
records than there are eighths of the bytes behind the header, and one. -/
theorem scans_terminate (wal : LogManager) (writer : LogWriter) (reader : LogReader) (lsn : LogSequenceNumber) (tree : BTree ω) :
    (wal.initialized = true → wal.file.validate.1.ok = true → ∃ status moved,
        validateScan.EndsWithin wal.file.mostRecords (wal.file.validate.2, WalFileHeader.kSize, .invalid) (status, moved) ∧
        wal.validate = (status, { wal with file := moved })) ∧
      (∃ found moved, restoreScan.EndsWithin wal.file.mostRecords (wal.file, WalFileHeader.kSize, .invalid) (found, moved) ∧
        writer.restoreFromFile wal.file = (Status.success, if found.isValid
          then { writer with currentLsn := found, nextLsn := found.next, lastFlushedLsn := found } else writer, moved)) ∧
      (∃ status moved, (truncateScan lsn).EndsWithin wal.file.mostRecords (wal.file, WalFileHeader.kSize) (status, moved) ∧
        CheckpointManager.truncateAfterCheckpoint wal lsn = (status, { wal with file := moved })) ∧
      (seekScan lsn).EndsWithin wal.file.mostRecords (reader.rewind, wal.file) (reader.seekLsn wal.file lsn) ∧
      (wal.initialized = true → ∃ outcome search after,
        (recordScan CheckpointManager.examine).EndsWithin wal.file.mostRecords (wal.rewound, {}) ((outcome, search), after) ∧
        (CheckpointManager.findLastCheckpoint wal).2 = (search, after)) ∧
      (wal.initialized = true → (recordScan (LogReplayer.replayRecord lsn)).EndsWithin wal.file.mostRecords (wal.rewound, (tree, {}))
          (LogReplayer.replay wal tree lsn)) := by
  refine ⟨fun initialized header => ?_, ?_, ?_, seekLsn_endsWithin reader wal.file lsn, fun initialized => ?_, fun initialized => ?_⟩
  · have ends := validateFrom_endsWithin wal.file.validate.2
    rw [LogFile.mostRecords, wal.file.validate_reads.fileSize] at ends
    refine ⟨_, _, ends, ?_⟩
    simp only [LogManager.validate, initialized, header, if_not_true, wal.file.validate_reads.fileSize]
  · refine ⟨_, _, lastLsn_endsWithin wal.file, ?_⟩
    rw [LogWriter.restoreFromFile]
    simp only
    split <;> rfl
  · exact ⟨_, _, truncateFrom_endsWithin wal.file lsn, rfl⟩
  · have ends := forRecords_endsWithin CheckpointManager.examine wal {}
    rw [CheckpointManager.findLastCheckpoint, LogManager.rewindReader_eq initialized]
    simp only [Status.ok_success, Bool.not_true, Bool.false_eq_true, if_false]
    rcases looped : wal.rewound.forRecords CheckpointManager.examine (wal.rewound.file.fileSize + 1) {} with
      ⟨⟨failure | done, search⟩, after⟩
    · exact ⟨_, search, after, looped ▸ ends, rfl⟩
    · refine ⟨_, search, after, looped ▸ ends, ?_⟩
      simp only
      split <;> rfl
  · have ends := forRecords_endsWithin (LogReplayer.replayRecord lsn) wal (tree, {})
    rw [LogReplayer.replay, LogManager.rewindReader_eq initialized]
    exact ends

/-- Twelve bytes behind the header that are no record. -/
def garbageLog : LogManager where
  initialized := true
  file := { file := { contents := some (WalFileHeader.serialize { magic := kJournalMagic, version := kWalFormatVersion } ++
                        List.replicate 12 255), isOpen := true, size := 28 } }

theorem scans_terminate_garbage :
    (∃ status moved, validateScan.EndsWithin 2 (garbageLog.file.validate.2, WalFileHeader.kSize, .invalid) (status, moved) ∧
        garbageLog.validate = (status, { garbageLog with file := moved })) ∧
      ∃ outcome search after, (recordScan CheckpointManager.examine).EndsWithin 2 (garbageLog.rewound, {}) ((outcome, search), after) ∧
        (CheckpointManager.findLastCheckpoint garbageLog).2 = (search, after) :=
  have ends := scans_terminate garbageLog {} {} .invalid
    ({ space := Space.SpaceManager.withPolicy .firstFit } : BTree Empty)
  ⟨ends.1 rfl (by decide +kernel), ends.2.2.2.2.1 rfl⟩

end Quartz.Recovery
