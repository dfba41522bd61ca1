import Quartz.Proofs.LogScans
import Quartz.Proofs.UnreadableCheckpoints

/-! The report of a recovery. The replay clears what recovery has put into it before, so a checkpoint that was
restored is never reported. -/

namespace Quartz.Wal
open Storage Serialization

theorem LogRecord.candid_deserialize : Candid LogRecord.deserialize := by
  unfold LogRecord.deserialize
  iterate 9 refine candid_bind (candid_read _) fun _ => ?_
  exact candid_bind (candid_readBytes _) fun _ => candid_pure _

namespace LogFile

/-- The log without where its stream stands, which a read does not depend on. -/
def still (log : LogFile) : LogFile := { log with file := { log.file with position := 0, eof := false } }

variable {log other : LogFile} {offset : Nat}

theorem fileSize_congr (same : log.still = other.still) : log.fileSize = other.fileSize :=
  show log.still.fileSize = other.still.fileSize by rw [same]

theorem fail_congr (same : log.still = other.still) : log.file.fail = other.file.fail :=
  show log.still.file.fail = other.still.file.fail by rw [same]

theorem isOpen_congr (same : log.still = other.still) : log.isOpen = other.isOpen :=
  show log.still.isOpen = other.still.isOpen by rw [same]

theorem readBytes_still (log : LogFile) (offset : Nat) (destination : List UInt8) :
    (log.still.readBytes offset destination).1 = (log.readBytes offset destination).1 ∧
      (log.still.readBytes offset destination).2.1 = (log.readBytes offset destination).2.1 ∧
      (log.still.readBytes offset destination).2.2.still = (log.readBytes offset destination).2.2.still := by
  obtain ⟨⟨contents, path, isOpen, position, eof, fail, size⟩, attached, appendOffset⟩ := log
  cases attached <;> cases isOpen <;> cases fail <;>
    simp [still, readBytes, LogFile.isOpen, DatabaseFile.seekTo, DatabaseFile.readBytes, DatabaseFile.bytes]

theorem readBytes_congr (same : log.still = other.still) (offset : Nat) (destination : List UInt8) :
    (log.readBytes offset destination).1 = (other.readBytes offset destination).1 ∧
      (log.readBytes offset destination).2.1 = (other.readBytes offset destination).2.1 ∧
      (log.readBytes offset destination).2.2.still = (other.readBytes offset destination).2.2.still := by
  obtain ⟨status, bytes, moved⟩ := log.readBytes_still offset destination
  obtain ⟨status', bytes', moved'⟩ := other.readBytes_still offset destination
  rw [same] at status bytes moved
  exact ⟨status.symm.trans status', bytes.symm.trans bytes', moved.symm.trans moved'⟩

theorem readBytes_good {destination : List UInt8} (good : (log.readBytes offset destination).2.2.file.fail = false) :
    (log.readBytes offset destination).2.2.still = log.still := by
  obtain ⟨⟨contents, path, isOpen, position, eof, fail, size⟩, attached, appendOffset⟩ := log
  cases attached <;> cases isOpen <;> cases fail <;>
    simp_all [still, readBytes, LogFile.isOpen, DatabaseFile.seekTo, DatabaseFile.readBytes, DatabaseFile.bytes]

theorem length_readBytes (log : LogFile) (offset : Nat) (destination : List UInt8) :
    (log.readBytes offset destination).2.1.length = destination.length := by
  have read : ∀ file : DatabaseFile, (file.readBytes destination).2.1.length = destination.length := by
    intro file
    unfold DatabaseFile.readBytes
    split
    · rfl
    split
    · rfl
    · simp only [List.length_append, List.length_take, List.length_drop]
      omega
  unfold readBytes
  split
  · rfl
  simp only
  split
  · rfl
  · exact read _

theorem readRecord_congr (same : log.still = other.still) (offset : Nat) :
    (log.readRecord offset).1 = (other.readRecord offset).1 ∧
      (log.readRecord offset).2.still = (other.readRecord offset).2.still := by
  obtain ⟨status, bytes, moved⟩ := readBytes_congr same offset (List.replicate 4 0)
  rw [readRecord, readRecord, isOpen_congr same]
  split
  · exact ⟨rfl, same⟩
  simp only [status, bytes]
  split
  · exact ⟨rfl, moved⟩
  split
  · exact ⟨rfl, moved⟩
  obtain ⟨status', bytes', moved'⟩ := readBytes_congr moved (offset + 4)
    (List.replicate (Bytes.decode (other.readBytes offset (List.replicate 4 0)).2.1) 0)
  simp only [status', bytes']
  split
  · exact ⟨rfl, moved'⟩
  generalize (BinaryReader.skip 4 *> LogRecord.deserialize).run _ = decoded
  rcases decoded with failure | ⟨record, reader⟩ <;> exact ⟨rfl, moved'⟩

/-- A stream that has not failed shows that every read before has left the log as it was. -/
theorem ReadsTo.good (reads : log.ReadsTo other) (good : other.file.fail = false) : other.still = log.still := by
  induction reads with
  | refl => rfl
  | tail _ once ih =>
    obtain ⟨offset, destination, rfl⟩ := once
    have last := readBytes_good good
    exact last.trans (ih (fail_congr last ▸ good))

/-- The records of a file from an offset on, one after the other as far as they can be read. -/
def recordsFrom : Nat → LogFile → Nat → List LogRecord
  | 0, _, _ => []
  | fuel + 1, log, offset =>
    if offset < log.fileSize then
      match log.readRecord offset with
      | (.error _, _) => []
      | (.ok (record, bytesRead), log) => record :: recordsFrom fuel log (offset + bytesRead)
    else []

/-- The records of a log; every record read moves the offset. -/
def records (log : LogFile) : List LogRecord := recordsFrom log.fileSize log WalFileHeader.kSize

/-- From the offset up to its end the file has these records, and reading them does not make its stream fail. -/
def Stands (log : LogFile) : Nat → List LogRecord → Prop
  | offset, [] => log.fileSize ≤ offset
  | offset, record :: rest => offset < log.fileSize ∧ ∃ size moved, log.readRecord offset = (.ok (record, size), moved) ∧
      moved.still = log.still ∧ Stands log (offset + size) rest

theorem Stands.congr {records : List LogRecord} (same : log.still = other.still) (stands : log.Stands offset records) :
    other.Stands offset records := by
  induction records generalizing offset with
  | nil => exact (fileSize_congr same).symm.trans_le stands
  | cons record rest ih =>
    obtain ⟨inside, size, moved, found, kept, later⟩ := stands
    obtain ⟨result, moved'⟩ := readRecord_congr same offset
    rw [found] at result moved'
    refine ⟨fileSize_congr same ▸ inside, size, (other.readRecord offset).2, Prod.ext result.symm rfl, ?_, ih later⟩
    exact moved'.symm.trans (kept.trans same)

theorem Stands.recordsFrom {records : List LogRecord} (stands : log.Stands offset records) {fuel : Nat}
    (enough : log.fileSize - offset ≤ fuel) : LogFile.recordsFrom fuel log offset = records := by
  induction records generalizing log offset fuel with
  | nil =>
    cases fuel with
    | zero => rfl
    | succ fuel => rw [LogFile.recordsFrom, if_neg (Nat.not_lt.mpr stands)]
  | cons record rest ih =>
    obtain ⟨inside, size, moved, found, kept, later⟩ := stands
    have moves := readRecord_moves found
    cases fuel with
    | zero => omega
    | succ fuel =>
      have next : LogFile.recordsFrom fuel moved (offset + size) = rest :=
        ih (later.congr kept.symm) (by rw [fileSize_congr kept]; omega)
      rw [LogFile.recordsFrom, if_pos inside, found]
      simp only [next]

theorem Stands.length_le {records : List LogRecord} (stands : log.Stands offset records) :
    8 * records.length ≤ log.fileSize - offset + 7 := by
  induction records generalizing offset with
  | nil => simp
  | cons record rest ih =>
    obtain ⟨inside, size, moved, found, -, later⟩ := stands
    have moves := readRecord_moves found
    have fewer := ih later
    rw [List.length_cons]
    by_cases past : log.fileSize ≤ offset + size
    · have none : rest.length = 0 := by omega
      omega
    · omega

theorem readRecord_refused {status : Status} {moved : LogFile} (refused : log.readRecord offset = (.error status, moved)) :
    status.ok = false := by
  unfold readRecord at refused
  split at refused
  · cases refused
    rfl
  simp only at refused
  split at refused
  next bad =>
    cases refused
    simpa using bad
  split at refused
  · cases refused
    rfl
  split at refused
  next bad =>
    cases refused
    simpa using bad
  split at refused
  next failed =>
    cases refused
    rw [seqRight_eq_bind] at failed
    exact candid_bind (candid_skip 4) (fun _ => LogRecord.candid_deserialize) _ _ failed
  · cases refused

theorem readRecord_fits {record : LogRecord} {size : Nat} {moved : LogFile}
    (found : log.readRecord offset = (.ok (record, size), moved)) : record.Fits := by
  unfold readRecord at found
  split at found
  · cases found
  simp only at found
  split at found
  · cases found
  split at found
  · cases found
  split at found
  · cases found
  split at found
  · cases found
  next decoded =>
    have size := Bytes.decode_lt (log.readBytes offset (List.replicate 4 0)).2.1
    rw [length_readBytes, List.length_replicate] at size
    rw [LogRecord.deserialize_framed (by rw [length_readBytes, List.length_replicate]; exact size)] at decoded
    split at decoded
    next enough =>
      obtain ⟨rfl, -⟩ := by simpa only [Except.ok.injEq, Prod.mk.injEq] using decoded
      obtain ⟨⟨rfl, -⟩, -⟩ := by simpa only [Except.ok.injEq, Prod.mk.injEq] using found
      rw [length_readBytes, List.length_replicate] at enough
      rw [LogRecord.Fits, LogRecord.parse, List.length_take]
      exact Nat.lt_of_le_of_lt (Nat.le_trans (Nat.add_le_add_left (Nat.min_le_left _ _) 45) enough) size
    · cases decoded

theorem stands_of_scans {fuel : Nat} {previous found : LogSequenceNumber} (same : log.still = other.still)
    (enough : log.fileSize - offset ≤ fuel) (valid : (LogManager.validateFrom fuel log offset previous).1.ok = true)
    (good : (LogWriter.lastLsn fuel other offset found).2.file.fail = false) :
    ∃ records, log.Stands offset records ∧ Ordered previous records := by
  induction fuel generalizing log other offset previous found with
  | zero => exact ⟨[], (Nat.sub_eq_zero_iff_le.mp (Nat.le_zero.mp enough)), trivial⟩
  | succ fuel ih =>
    rw [LogManager.validateFrom] at valid
    by_cases inside : offset < log.fileSize
    case neg => exact ⟨[], Nat.not_lt.mp inside, trivial⟩
    rw [if_pos inside] at valid
    rw [LogWriter.lastLsn, if_pos (fileSize_congr same ▸ inside)] at good
    obtain ⟨result, moved⟩ := readRecord_congr same offset
    rcases read : log.readRecord offset with ⟨status | ⟨record, size⟩, after⟩
    · simp only [read, readRecord_refused read] at valid
      cases valid
    · have moves := readRecord_moves read
      simp only [read] at valid result moved
      rcases passed : (LogValidator.validateRecord record).ok with - | -
      · rw [passed] at valid
        simp [passed] at valid
      rcases ordered : (LogValidator.validateLsnOrdering previous record.lsn).ok with - | -
      · simp [passed, ordered] at valid
      simp only [passed, ordered, if_not_true] at valid
      rcases read' : other.readRecord offset with ⟨status | ⟨record', size'⟩, after'⟩
      · rw [read'] at result
        cases result
      · rw [read'] at result moved
        simp only [read'] at good
        obtain ⟨rfl, rfl⟩ := by simpa only [Except.ok.injEq, Prod.mk.injEq] using result
        have kept' : after'.still = other.still := by
          have once := other.readRecord_reads offset
          rw [read'] at once
          exact once.good (fail_congr ((LogWriter.lastLsn_reads ..).good good) ▸ good)
        have kept : after.still = log.still := moved.trans (kept'.trans same.symm)
        obtain ⟨rest, stands, order⟩ := ih moved (by rw [fileSize_congr kept]; omega) valid good
        have precedes := validateLsnOrdering_ok.mp ordered
        exact ⟨record :: rest, ⟨inside, size, after, read, kept, stands.congr kept⟩, precedes.2,
          LogRecord.validateRecord_ok.mp passed, readRecord_fits read, order⟩

theorem validate_good (valid : log.validate.1.ok = true) : log.file.fail = false := by
  by_contra bad
  have seek : (log.file.seekTo 0).1.ok = false ∨ log.isOpen = false := by
    cases live : log.file.isOpen with
    | false => exact .inr (by simp [isOpen, live])
    | true => exact .inl (by simp [DatabaseFile.seekTo, live, bad, Status.ioError, Status.ok])
  have header : log.isOpen = true → log.readHeader.1.ok = false := by
    intro live
    unfold readHeader
    rw [if_neg (by simp [live])]
    split
    · rfl
    · have refused := seek.resolve_right (by simp [live])
      simp [refused]
  unfold validate at valid
  split at valid
  · cases valid
  next live =>
    have refused := header (by simpa using live)
    simp [refused] at valid

theorem validateFrom_failed {fuel : Nat} {previous : LogSequenceNumber} (bad : log.file.fail = true)
    (enough : log.fileSize - offset ≤ fuel) (valid : (LogManager.validateFrom fuel log offset previous).1.ok = true) :
    log.fileSize ≤ offset := by
  by_contra inside
  cases fuel with
  | zero => omega
  | succ fuel =>
    rw [LogManager.validateFrom, if_pos (Nat.not_le.mp inside)] at valid
    rcases read : log.readRecord offset with ⟨status | ⟨record, size⟩, after⟩
    · simp only [read, readRecord_refused read] at valid
      cases valid
    · cases live : log.isOpen with
      | false => simp [readRecord, live] at read
      | true =>
        obtain ⟨attached, isOpen⟩ := Bool.and_eq_true_iff.mp live
        rw [readRecord_broken ⟨attached, isOpen, bad⟩] at read
        cases read

end LogFile

namespace LogManager

variable {manager : LogManager} {log : LogFile} {records : List LogRecord}

/-- The reader stands in front of the last records of a log, whatever the bytes between them. -/
structure Before (manager : LogManager) (log : LogFile) (records : List LogRecord) : Prop where
  initialized : manager.initialized = true
  same : manager.file.still = log.still
  going : manager.reader.endOfLog = false
  ordered : Ordered manager.reader.lastLsn records
  stands : log.Stands manager.reader.offset records

/-- Over such records the loop does what its body does to each of them. -/
theorem Before.forRecords {σ ε : Type} (body : LogRecord → Fallible σ ε Unit) (before : manager.Before log records)
    {fuel : Nat} (enough : records.length < fuel) (state : σ) :
    ∃ after, manager.forRecords body fuel state = ((forM records body).run state, after) ∧
      after.initialized = true ∧ after.file.still = log.still := by
  induction records generalizing manager fuel state with
  | nil =>
    cases fuel with
    | zero => cases enough
    | succ fuel =>
      have past : manager.reader.offset ≥ manager.file.fileSize := by
        rw [LogFile.fileSize_congr before.same]
        exact before.stands
      refine ⟨{ manager with reader := { manager.reader with endOfLog := true } }, ?_, before.initialized, before.same⟩
      rw [LogManager.forRecords, manager.readNext_initialized before.initialized, LogReader.readNext,
        if_neg (by simp [before.going]), if_pos past]
      rfl
  | cons record rest ih =>
    obtain ⟨order, valid, fits, later⟩ := before.ordered
    obtain ⟨inside, size, moved, found, kept, behind⟩ := before.stands.congr before.same.symm
    have read := LogReader.readNext_accepts before.going inside found valid order
    cases fuel with
    | zero => cases enough
    | succ fuel =>
      let middle : LogManager := { manager with
        reader := { manager.reader with lastLsn := record.lsn, offset := manager.reader.offset + size }, file := moved }
      have next : middle.Before log rest :=
        ⟨before.initialized, kept.trans before.same, before.going, later, behind.congr before.same⟩
      rw [LogManager.forRecords, manager.readNext_initialized before.initialized, read, List.forM_cons]
      rcases ended : (body record).run state with ⟨failure | _, changed⟩
      · refine ⟨middle, ?_, before.initialized, kept.trans before.same⟩
        rw [Fallible.run_bind_error ended]
        simp only [ended, middle]
      · obtain ⟨after, others, last⟩ := ih next (Nat.lt_of_succ_lt_succ enough) changed
        refine ⟨after, ?_, last⟩
        rw [Fallible.run_bind_ok ended]
        simp only [ended]
        exact others

end LogManager
end Quartz.Wal

namespace Quartz.Recovery
open Storage Btree Wal CheckpointManager LogReplayer

variable {ω : Type} [BTreeWalSink ω]

namespace RecoveryManager

variable {wal after : LogManager} {start base built : BTree ω} {result : RecoveryResult}

theorem replay_ok {lsn : LogSequenceNumber} {done : Unit} (replayed : replay wal base lsn = ((.ok done, built, result), after)) :
    wal.initialized = true ∧
      wal.rewound.forRecords (replayRecord lsn) (wal.rewound.file.fileSize + 1) (base, {}) = ((.ok (), built, result), after) := by
  cases initialized : wal.initialized with
  | false => simp [replay, LogManager.rewindReader, initialized, Status.invalidArgument, Status.ok] at replayed
  | true =>
    rw [replay, LogManager.rewindReader_eq initialized] at replayed
    exact ⟨rfl, replayed⟩

omit [BTreeWalSink ω] in
theorem validate_ok {tree : BTree ω} (valid : (RecoveryValidator.validate wal tree).1 = .ok ()) :
    wal.file.validate.1.ok = true ∧
      (LogManager.validateFrom wal.file.validate.2.fileSize wal.file.validate.2 WalFileHeader.kSize .invalid).1.ok = true := by
  have checked : wal.validate.1.ok = true := by
    rw [RecoveryValidator.validate] at valid
    by_contra refused
    simp only [Bool.eq_false_of_not_eq_true refused, Bool.not_false, if_true] at valid
    cases valid
  rw [LogManager.validate] at checked
  split at checked
  · cases checked
  simp only at checked
  split at checked
  next refused =>
    simp only at checked
    simp [checked] at refused
  next passed => exact ⟨by simpa using passed, checked⟩

omit [BTreeWalSink ω] in
theorem validate_stands {tree : BTree ω} (initialized : wal.initialized = true)
    (valid : (RecoveryValidator.validate wal.restoreWriterState.2.rewound tree).1 = .ok ()) :
    wal.file.file.fail = false ∧ ∃ records, wal.file.Stands WalFileHeader.kSize records ∧ Ordered .invalid records := by
  obtain ⟨header, walked⟩ := validate_ok valid
  have scanned : wal.restoreWriterState.2.rewound.file =
      (LogWriter.lastLsn wal.file.fileSize wal.file WalFileHeader.kSize .invalid).2 := by
    simp only [LogManager.rewound, LogManager.restoreWriterState, initialized, if_not_true, LogWriter.restoreFromFile]
    split <;> rfl
  rw [scanned] at header walked
  generalize read : (LogWriter.lastLsn wal.file.fileSize wal.file WalFileHeader.kSize .invalid).2 = moved at header walked
  have good : (LogWriter.lastLsn wal.file.fileSize wal.file WalFileHeader.kSize .invalid).2.file.fail = false :=
    read ▸ LogFile.validate_good header
  have same : moved.still = wal.file.still := read ▸ (LogWriter.lastLsn_reads ..).good good
  have size : moved.validate.2.fileSize = wal.file.fileSize := moved.validate_reads.fileSize.trans (LogFile.fileSize_congr same)
  refine ⟨(LogFile.fail_congr same) ▸ LogFile.validate_good header, ?_⟩
  rw [size] at walked
  cases failed : moved.validate.2.file.fail with
  | false =>
    have kept := (moved.validate_reads.good failed).trans same
    obtain ⟨records, stands, ordered⟩ := LogFile.stands_of_scans kept (by rw [size]; exact Nat.sub_le _ _) walked good
    exact ⟨records, stands.congr kept, ordered⟩
  | true =>
    have past := LogFile.validateFrom_failed failed (by rw [size]; exact Nat.sub_le _ _) walked
    exact ⟨[], size.symm.trans_le past, trivial⟩

theorem findLastCheckpoint_before {records : List LogRecord} (before : wal.rewound.Before wal.file records)
    (few : records.length < wal.file.fileSize + 1) :
    ((findLastCheckpoint wal).1, (findLastCheckpoint wal).2.1) = searchRecords records := by
  obtain ⟨after, looped, -⟩ := before.forRecords examine few {}
  have rewinds : wal.rewindReader = (Status.success, wal.rewound) := LogManager.rewindReader_eq before.initialized
  rw [findLastCheckpoint, searchRecords, rewinds]
  simp only [Status.ok_success, Bool.not_true, Bool.false_eq_true, if_false]
  rw [show wal.rewound.file.fileSize = wal.file.fileSize from rfl, looped]
  rcases (forM records examine).run {} with ⟨failure | done, search⟩
  · rfl
  · simp only
    split <;> rfl

/-- What a recovery that succeeds has done: it has replayed the records of the log behind what the search found. -/
theorem recover_ok (recovered : recover wal start = ((.ok (), built, result), after)) :
    wal.rewound.Before wal.file wal.file.records ∧ wal.file.file.fail = false ∧
      ((findLastCheckpoint wal).1, (findLastCheckpoint wal).2.1) = searchRecords wal.file.records ∧
      ∃ base, (forM wal.file.records (replayRecord (searchRecords wal.file.records).2.lsn)).run (base, {}) =
        (.ok (), built, result) := by
  rw [recover] at recovered
  rcases searched : findLastCheckpoint wal with ⟨status, search, found⟩
  simp only [searched] at recovered
  split at recovered
  · cases recovered
  rcases ran : replay found (baseTree status search.payload start).2 search.lsn with ⟨⟨failure | done, tree, report⟩, replayed⟩
  · simp [ran] at recovered
  simp only [ran] at recovered
  split at recovered
  · cases recovered
  next restored =>
  have called : replayed.initialized = true := by
    cases raw : replayed.initialized with
    | true => rfl
    | false => simp [LogManager.restoreWriterState, raw, Status.invalidArgument, Status.ok] at restored
  have called' := replayed.restoreWriterState_reads.initialized.trans called
  rw [LogManager.rewindReader_eq called'] at recovered
  simp only [Status.ok_success, Bool.not_true, Bool.false_eq_true, if_false] at recovered
  obtain ⟨⟨valid, rfl, rfl⟩, -⟩ := by simpa only [Prod.mk.injEq] using recovered
  obtain ⟨good, records, stands, ordered⟩ := validate_stands called valid
  -- back through the replay and the search: a stream that has not failed at the end never did
  obtain ⟨initialized, looped⟩ := replay_ok ran
  have replays := replay_reads found (baseTree status search.payload start).2 search.lsn
  have searches := findLastCheckpoint_reads wal
  rw [ran] at replays
  rw [searched] at searches
  have kept := replays.file.good good
  have kept' := searches.file.good (LogFile.fail_congr kept ▸ good)
  have begun := searches.initialized.symm.trans initialized
  have stands' := stands.congr (kept.trans kept')
  have few : records.length < wal.file.fileSize + 1 := by
    have most := stands'.length_le
    omega
  obtain rfl : wal.file.records = records := stands'.recordsFrom (Nat.sub_le _ _)
  have before : wal.rewound.Before wal.file wal.file.records := ⟨begun, rfl, rfl, ordered, stands'⟩
  have answered := findLastCheckpoint_before before few
  rw [searched] at answered
  have before' : found.rewound.Before wal.file wal.file.records := ⟨initialized, kept', rfl, ordered, stands'⟩
  refine ⟨before, LogFile.fail_congr (kept.trans kept') ▸ good, answered, (baseTree status search.payload start).2, ?_⟩
  have few' : wal.file.records.length < found.rewound.file.fileSize + 1 := by
    rw [show found.rewound.file.fileSize = wal.file.fileSize from LogFile.fileSize_congr kept']
    exact few
  obtain ⟨last, looped', -⟩ := before'.forRecords (replayRecord search.lsn) few' ((baseTree status search.payload start).2, {})
  rw [looped] at looped'
  rw [← answered]
  exact (congrArg Prod.fst looped').symm

def replayed (afterLsn : LogSequenceNumber) (records : List LogRecord) : List LogRecord :=
  records.filter fun record => decide (record.type ≠ .checkpointMarker ∧ afterLsn.value < record.lsn.value)

def counted (afterLsn : LogSequenceNumber) (records : List LogRecord) (result : RecoveryResult) : RecoveryResult :=
  { result with
    lastReplayedLsn := ((replayed afterLsn records).map LogRecord.lsn).getLast?.getD result.lastReplayedLsn
    recordsReplayed := result.recordsReplayed + UInt64.ofNat (replayed afterLsn records).length
    recordsSkipped := result.recordsSkipped + UInt64.ofNat (records.length - (replayed afterLsn records).length) }

theorem counted_counted (afterLsn : LogSequenceNumber) (record : LogRecord) (rest : List LogRecord) (result : RecoveryResult) :
    counted afterLsn rest (counted afterLsn [record] result) = counted afterLsn (record :: rest) result := by
  have fewer : (replayed afterLsn rest).length ≤ rest.length := List.length_filter_le _ _
  by_cases new : record.type ≠ .checkpointMarker ∧ afterLsn.value < record.lsn.value
  · have one : replayed afterLsn [record] = [record] := by simp [replayed, new]
    have more : replayed afterLsn (record :: rest) = record :: replayed afterLsn rest :=
      List.filter_cons_of_pos (by simpa using new)
    simp only [counted, one, more, List.length_cons, List.length_nil, List.map_cons, List.map_nil, List.getLast?_cons,
      Option.getD_some, Nat.sub_self, UInt64.ofNat_add, Nat.add_sub_add_right]
    simp [UInt64.add_assoc, UInt64.add_comm 1]
  · have none : replayed afterLsn [record] = [] := by simp [replayed, new]
    have same : replayed afterLsn (record :: rest) = replayed afterLsn rest :=
      List.filter_cons_of_neg (by simpa using new)
    simp only [counted, none, same, List.length_cons, List.length_nil, Nat.succ_sub fewer, Nat.succ_eq_add_one, UInt64.ofNat_add]
    simp [UInt64.add_assoc, UInt64.add_comm 1]

theorem replayRecord_counts {afterLsn : LogSequenceNumber} {record : LogRecord} {report : RecoveryResult} {done : Unit}
    (ran : (replayRecord afterLsn record).run (base, result) = (.ok done, built, report)) :
    report = counted afterLsn [record] result := by
  have skips : ¬ (record.type ≠ .checkpointMarker ∧ afterLsn.value < record.lsn.value) →
      counted afterLsn [record] result = { result with recordsSkipped := result.recordsSkipped + 1 } := fun other => by
    simp [counted, replayed, other]
  simp only [Fallible.run, replayRecord] at ran
  split at ran
  · cases ran
  split at ran
  next old =>
    obtain ⟨-, -, rfl⟩ := by simpa only [Prod.mk.injEq] using ran
    exact (skips fun both => absurd old (UInt64.not_le.mpr both.2)).symm
  next new =>
  split at ran
  next marker =>
    obtain ⟨-, -, rfl⟩ := by simpa only [Prod.mk.injEq] using ran
    exact (skips fun both => both.1 marker).symm
  next other =>
  split at ran
  · cases ran
  · obtain ⟨-, -, rfl⟩ := by simpa only [Prod.mk.injEq] using ran
    simp [counted, replayed, other, UInt64.not_le.mp new]

theorem replayRecords_counts {afterLsn : LogSequenceNumber} {records : List LogRecord} {report : RecoveryResult} {done : Unit}
    (ran : (forM records (replayRecord afterLsn)).run (base, result) = (.ok done, built, report)) :
    report = counted afterLsn records result := by
  induction records generalizing base result with
  | nil =>
    obtain ⟨-, -, rfl⟩ := by simpa only [List.forM_nil, Fallible.run_pure, Prod.mk.injEq] using ran
    simp [counted, replayed]
  | cons record rest ih =>
    rw [List.forM_cons] at ran
    obtain ⟨_, ⟨tree, middle⟩, first, later⟩ := Fallible.bind_ok ran
    rw [ih later, replayRecord_counts first, counted_counted]

/-- The checkpoint that recovery restores. -/
structure Restores (wal : LogManager) (marker : LogRecord) : Prop where
  held : marker ∈ wal.file.records
  type : marker.type = .checkpointMarker
  found : (findLastCheckpoint wal).1.ok = true
  number : (findLastCheckpoint wal).2.1.lsn = marker.lsn

/-- What the report should say about a log. -/
structure Accurate (wal : LogManager) (result : RecoveryResult) : Prop where
  recovered : result.recoveredFromCheckpoint = true ↔ ∃ marker, Restores wal marker
  checkpoint : ∀ marker, Restores wal marker → result.checkpointLsn = marker.lsn
  replayed : result.recordsReplayed.toNat = (replayed result.checkpointLsn wal.file.records).length
  total : result.recordsReplayed.toNat + result.recordsSkipped.toNat = wal.file.records.length
  last : result.lastReplayedLsn =
    ((RecoveryManager.replayed (findLastCheckpoint wal).2.1.lsn wal.file.records).map LogRecord.lsn).getLast?.getD .invalid

/-- Before the first checkpoint that cannot be read there is no checkpoint; or there is one that cannot be read, and
nothing but checkpoints stands before a checkpoint in front of it. -/
def Unreported (records : List LogRecord) : Prop :=
  ∀ before marker between, readableFront records = before ++ marker :: between → marker.type = .checkpointMarker →
    readableFront records ≠ records ∧ ∀ record ∈ before, record.type = .checkpointMarker

variable {records : List LogRecord}

theorem found_in_front {before between : List LogRecord} {marker : LogRecord}
    (front : readableFront records = before ++ marker :: between) (type : marker.type = .checkpointMarker) :
    (searchRecords records).2.found = true := by
  have latest := searchRecords_latest records
  generalize (searchRecords records).2 = search at latest
  cases latest with
  | unchanged without => exact absurd type (without marker (by rw [front]; simp))
  | found => rfl

theorem searchRecords_marker (succeeded : (searchRecords records).1.ok = true) :
    ∃ before marker between, readableFront records = before ++ marker :: between ∧ marker ∈ records ∧
      marker.type = .checkpointMarker ∧ (searchRecords records).2.lsn = marker.lsn := by
  obtain ⟨whole, some⟩ := searchRecords_ok.mp succeeded
  have latest := searchRecords_latest records
  generalize (searchRecords records).2 = search at latest some
  cases latest with
  | unchanged => cases some
  | found before marker between payload reader front type read last =>
    exact ⟨before, marker, between, front, by rw [← whole, front]; simp, type, rfl⟩

theorem unreported_iff (ordered : Ordered .invalid records) :
    Unreported records ↔ ¬ (searchRecords records).1.ok = true ∧
      ∀ record ∈ records, record.type ≠ .checkpointMarker → (searchRecords records).2.lsn.value < record.lsn.value := by
  constructor
  · intro unreported
    refine ⟨fun succeeded => ?_, fun record member other => ?_⟩
    · obtain ⟨before, marker, between, front, -, type, -⟩ := searchRecords_marker succeeded
      exact (unreported before marker between front type).1 (searchRecords_ok.mp succeeded).1
    · by_contra low
      obtain ⟨-, before, marker, between, front, type, place⟩ := reached_by_search ordered member (UInt64.not_lt.mp low)
      rcases place with inside | rfl
      · exact other ((unreported before marker between front type).2 record inside)
      · exact other type
  · rintro ⟨failed, above⟩ before marker between front type
    refine ⟨fun whole => failed (searchRecords_ok.mpr ⟨whole, found_in_front front type⟩), fun record inside => ?_⟩
    by_contra other
    have member : record ∈ records := (List.takeWhile_prefix _).subset (show record ∈ readableFront records by rw [front]; simp [inside])
    exact UInt64.lt_irrefl _ (UInt64.lt_of_lt_of_le (above record member other) (skipped ordered front type inside))

theorem length_replayed_iff (ordered : Ordered .invalid records) (lsn : LogSequenceNumber) :
    (replayed lsn records).length = (replayed {} records).length ↔
      ∀ record ∈ records, record.type ≠ .checkpointMarker → lsn.value < record.lsn.value := by
  have positive : ∀ record ∈ records, (0 : UInt64) < record.lsn.value := fun record member =>
    UInt64.pos_iff_ne_zero.mpr (by simpa [LogSequenceNumber.isValid] using (ordered.valid record member).lsn)
  have split : replayed lsn records = (replayed {} records).filter fun record => decide (lsn.value < record.lsn.value) := by
    rw [replayed, replayed, List.filter_filter]
    refine List.filter_congr fun record member => ?_
    simp [positive record member, Bool.and_comm]
  rw [split, List.length_filter_eq_length_iff]
  simp only [replayed, List.mem_filter, decide_eq_true_eq]
  exact ⟨fun all record member other => all record ⟨member, other, positive record member⟩,
    fun all record inside => all record inside.1 inside.2.1⟩

/-- For every log on which recovery succeeds: the report is accurate exactly if no checkpoint was restored and none that
was found in front of an unreadable one has made the replay skip a record. -/
theorem report_accurate_iff (wal : LogManager) (small : wal.file.fileSize < 2 ^ 64) (start built : BTree ω)
    (result : RecoveryResult) (after : LogManager) (recovered : recover wal start = ((.ok (), built, result), after)) :
    Accurate wal result ↔ Unreported wal.file.records := by
  obtain ⟨before, -, answered, base, ran⟩ := recover_ok recovered
  have report := replayRecords_counts ran
  obtain ⟨status, search⟩ := Prod.mk.inj answered
  have most := before.stands.length_le
  have fewer : (replayed (searchRecords wal.file.records).2.lsn wal.file.records).length ≤ wal.file.records.length :=
    List.length_filter_le _ _
  have count : result.recordsReplayed.toNat = (replayed (searchRecords wal.file.records).2.lsn wal.file.records).length := by
    rw [report]
    simp only [counted, UInt64.zero_add]
    exact UInt64.toNat_ofNat_of_lt' (show _ < 2 ^ 64 by omega)
  have rest : result.recordsSkipped.toNat = wal.file.records.length -
      (replayed (searchRecords wal.file.records).2.lsn wal.file.records).length := by
    rw [report]
    simp only [counted, UInt64.zero_add]
    exact UInt64.toNat_ofNat_of_lt' (show _ < 2 ^ 64 by omega)
  have silent : result.recoveredFromCheckpoint = false ∧ result.checkpointLsn = {} := by rw [report]; exact ⟨rfl, rfl⟩
  rw [unreported_iff before.ordered, ← length_replayed_iff before.ordered]
  constructor
  · intro accurate
    refine ⟨fun succeeded => ?_, ?_⟩
    · obtain ⟨-, marker, -, -, member, type, number⟩ := searchRecords_marker succeeded
      have claimed := accurate.recovered.mpr ⟨marker, member, type, by rw [status]; exact succeeded, by rw [search]; exact number⟩
      rw [silent.1] at claimed
      cases claimed
    · rw [← count, accurate.replayed, silent.2]
  · rintro ⟨failed, same⟩
    have none : ∀ marker, ¬ Restores wal marker := fun marker restores => failed (status ▸ restores.found)
    refine ⟨?_, fun marker restores => absurd restores (none marker), ?_, by omega, ?_⟩
    · rw [silent.1]
      exact ⟨nofun, fun ⟨marker, restores⟩ => absurd restores (none marker)⟩
    · rw [count, same, silent.2]
    · rw [search, report]
      rfl

def blankMarker : LogRecord :=
  { LogRecord.make .checkpointMarker kInvalidPageId 0 1 with
    lsn := ⟨1⟩
    payload := CheckpointPayload.serialize { lsn := ⟨1⟩, btreeSnapshot := emptyTree.serialize emptyTree.listed } }

theorem recovered_of_ok {tree : BTree ω} (succeeded : (recover wal tree).1.1.isOk = true) :
    recover wal tree = ((.ok (), (recover wal tree).1.2.1, (recover wal tree).1.2.2), (recover wal tree).2) := by
  rcases ran : recover wal tree with ⟨⟨failure | _, built, result⟩, after⟩
  · rw [ran] at succeeded
    cases succeeded
  · rfl

/-- A log without checkpoints is reported as it is. -/
theorem report_accurate_iff_single : Accurate (openLog [loneUpdate]) (recover (openLog [loneUpdate]) emptyTree).1.2.2 := by
  have succeeded : (recover (openLog [loneUpdate]) emptyTree).1.1.isOk = true := by decide +kernel
  refine (report_accurate_iff _ (by decide +kernel) emptyTree _ _ _ (recovered_of_ok succeeded)).mpr ?_
  have records : (openLog [loneUpdate]).file.records = [loneUpdate] := by decide +kernel
  rw [records, unreported_iff (by obtain ⟨first, valid, fits, -⟩ := ordered_hiddenLog; exact ⟨first, valid, fits, trivial⟩)]
  decide +kernel

/-- Recovery restores the checkpoint of the log and reports that it has not. -/
theorem restored_checkpoint_is_not_reported :
    (recover (openLog [blankMarker]) emptyTree).1.1.isOk = true ∧ Restores (openLog [blankMarker]) blankMarker ∧
      (recover (openLog [blankMarker]) emptyTree).1.2.2.recoveredFromCheckpoint = false ∧
      (recover (openLog [blankMarker]) emptyTree).1.2.2.checkpointLsn ≠ blankMarker.lsn := by
  refine ⟨by decide +kernel, ⟨by decide +kernel, rfl, by decide +kernel, by decide +kernel⟩, by decide +kernel, by decide +kernel⟩

end RecoveryManager
end Quartz.Recovery
