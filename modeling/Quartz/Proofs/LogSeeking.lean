import Quartz.Proofs.Checkpoints
import Quartz.Proofs.LogNumbers

/-! Finding a record by its number: the reader's seek, and the cut behind a checkpoint. -/

namespace Quartz.Wal
open Storage LogWriter LogFile LogRecord

namespace LogReader

/-- The number the reader takes to be that of the record before. -/
def guessBefore (lsn : LogSequenceNumber) : LogSequenceNumber := if lsn.value > 1 then ⟨lsn.value - 1⟩ else .invalid

theorem guessBefore_precedes (lsn : LogSequenceNumber) : (guessBefore lsn).Precedes lsn := by
  intro valid
  unfold guessBefore at valid ⊢
  split
  next above =>
    rw [gt_iff_lt, UInt64.lt_iff_toNat_lt, show (1 : UInt64).toNat = 1 from rfl] at above
    rw [UInt64.lt_iff_toNat_lt, UInt64.toNat_sub_of_le _ _ (UInt64.le_iff_toNat_le.mpr (by simpa using above.le))]
    simp only [UInt64.toNat_one]
    omega
  next small =>
    rw [if_neg small] at valid
    cases valid

variable {reader : LogReader} {log : LogFile} {records : List LogRecord} {lsn : LogSequenceNumber} {fuel : Nat}

/-- The seek from a reader that faces the records stops in front of the one with the number. -/
theorem seekFrom_finds {front rest : List LogRecord} {record : LogRecord} (ready : log.Ready) (going : reader.endOfLog = false)
    (ordered : Ordered reader.lastLsn (front ++ record :: rest))
    (laid : Laid (front ++ record :: rest) (log.file.bytes.drop reader.offset)) (enough : front.length < fuel) :
    ∃ offset moved, seekFrom record.lsn fuel reader log = (Status.success, ⟨offset, guessBefore record.lsn, false⟩, moved) ∧
      moved.Ready ∧ Laid (record :: rest) (moved.file.bytes.drop offset) ∧ Ordered (guessBefore record.lsn) (record :: rest) := by
  induction front generalizing reader log fuel with
  | nil =>
    obtain ⟨order, valid, fits, later⟩ := ordered
    obtain ⟨moved, found, ready', bytes, -, -⟩ := laid.readRecord ready fits
    have read := readNext_accepts going (laid.inside ready) found valid order
    cases fuel with
    | zero => cases enough
    | succ fuel =>
      refine ⟨reader.offset, moved, ?_, ready', by rw [bytes]; exact laid, guessBefore_precedes _, valid, fits, later⟩
      rw [seekFrom, if_neg (by simp [going]), read]
      simp only [if_true]
      rfl
  | cons first front ih =>
    obtain ⟨order, valid, fits, later⟩ := ordered
    obtain ⟨moved, found, ready', bytes, -, behind⟩ := laid.readRecord ready fits
    have read := readNext_accepts going (laid.inside ready) found valid order
    have below : first.lsn.value < record.lsn.value := later.above valid.lsn record (by simp)
    cases fuel with
    | zero => cases enough
    | succ fuel =>
      rw [seekFrom, if_neg (by simp [going]), read]
      have other : first.lsn ≠ record.lsn := fun same => UInt64.lt_irrefl _ (same ▸ below)
      simp only [if_neg other, if_neg (UInt64.lt_asymm below)]
      exact ih ready' going later behind (Nat.lt_of_succ_lt_succ enough)

theorem seekFrom_misses (ready : log.Ready) (going : reader.endOfLog = false) (ordered : Ordered reader.lastLsn records)
    (laid : Laid records (log.file.bytes.drop reader.offset)) (absent : ∀ record ∈ records, record.lsn ≠ lsn) (fuel : Nat) :
    (seekFrom lsn fuel reader log).1.ok = false := by
  induction records generalizing reader log fuel with
  | nil =>
    cases fuel with
    | zero => rfl
    | succ fuel =>
      have past := laid.done ready
      rw [seekFrom, if_neg (by simp [going]), readNext, if_neg (by simp [going]), if_pos past]
      rfl
  | cons first rest ih =>
    obtain ⟨order, valid, fits, later⟩ := ordered
    obtain ⟨moved, found, ready', -, -, behind⟩ := laid.readRecord ready fits
    have read := readNext_accepts going (laid.inside ready) found valid order
    obtain ⟨other, others⟩ := List.forall_mem_cons.mp absent
    cases fuel with
    | zero => rfl
    | succ fuel =>
      rw [seekFrom, if_neg (by simp [going]), read]
      simp only [if_neg other]
      split
      · rfl
      · refine ih ready' ?_ later behind others fuel
        exact going

/-- In a log of whole records in order, from any state of the reader: a number is found exactly when a record has it, and
then that record and all behind it are read, up to the end of the log. -/
theorem seekLsn_finds_iff (reader : LogReader) {log : LogFile} (ready : log.Ready) {records : List LogRecord}
    (laid : Laid records (log.file.bytes.drop WalFileHeader.kSize)) (ordered : Ordered .invalid records)
    (lsn : LogSequenceNumber) :
    ((reader.seekLsn log lsn).1.ok = true ↔ ∃ record ∈ records, record.lsn = lsn) ∧
      ∀ front record rest, records = front ++ record :: rest → record.lsn = lsn → ∀ writer, ∃ last,
        LogManager.readAll (rest.length + 2)
            ⟨true, (reader.seekLsn log lsn).2.2, writer, (reader.seekLsn log lsn).2.1⟩ =
          (record :: rest, some LogManager.endOfLog, last) := by
  have sought : ∀ {front record rest}, records = front ++ record :: rest → record.lsn = lsn →
      ∃ offset moved, reader.seekLsn log lsn = (Status.success, ⟨offset, guessBefore record.lsn, false⟩, moved) ∧
        moved.Ready ∧ Laid (record :: rest) (moved.file.bytes.drop offset) ∧
        Ordered (guessBefore record.lsn) (record :: rest) := by
    rintro front record rest rfl rfl
    have enough : front.length < log.fileSize + 1 := by
      have frames := laid.length_le
      rw [List.length_append, List.length_drop] at frames
      rw [ready.fileSize]
      omega
    exact seekFrom_finds ready rfl ordered laid enough
  refine ⟨⟨fun found => ?_, ?_⟩, ?_⟩
  · by_contra absent
    have missed : (reader.seekLsn log lsn).1.ok = false :=
      seekFrom_misses ready rfl ordered laid (fun record member same => absent ⟨record, member, same⟩) _
    rw [missed] at found
    cases found
  · rintro ⟨record, member, same⟩
    obtain ⟨front, rest, split⟩ := List.append_of_mem member
    obtain ⟨offset, moved, found, -⟩ := sought split same
    rw [found]
    rfl
  · intro front record rest split same writer
    obtain ⟨offset, moved, found, ready', laid', ordered'⟩ := sought split same
    have facing : LogManager.Facing ⟨true, moved, writer, ⟨offset, guessBefore record.lsn, false⟩⟩ (record :: rest) :=
      ⟨rfl, ready', rfl, ordered', laid'⟩
    rw [found]
    exact facing.readAll

def gappedRecords : List LogRecord := [{ Reading.eightBytes with lsn := ⟨3⟩ }, { Reading.eightBytes with lsn := ⟨7⟩ }]

theorem seekLsn_finds_iff_gap :
    (({} : LogReader).seekLsn (Reading.cutLog gappedRecords 144) ⟨7⟩).1.ok = true ∧
      ¬ (({} : LogReader).seekLsn (Reading.cutLog gappedRecords 144) ⟨5⟩).1.ok = true := by
  have laid : Laid gappedRecords ((Reading.cutLog gappedRecords 144).file.bytes.drop WalFileHeader.kSize) :=
    laid_frames gappedRecords
  have ordered : Ordered .invalid gappedRecords :=
    ⟨nofun, ⟨rfl, rfl, by decide⟩, (by decide : 45 + 8 < 2 ^ 32), fun _ => by decide, ⟨rfl, rfl, by decide⟩,
      (by decide : 45 + 8 < 2 ^ 32), trivial⟩
  have sought := seekLsn_finds_iff {} (Reading.ready_cutLog gappedRecords 144) laid ordered
  exact ⟨(sought ⟨7⟩).1.mpr (by decide), fun found => absurd ((sought ⟨5⟩).1.mp found) (by decide)⟩

end LogReader

/-- Numbers that are valid and go up, on records whose sizes can be framed. -/
structure Ascending (records : List LogRecord) : Prop where
  rises : records.Pairwise fun first second => first.lsn.value < second.lsn.value
  each : ∀ record ∈ records, record.lsn.isValid = true ∧ record.Fits

/-- An open log file of these records behind a header, each padded to the boundary. -/
structure LogFile.Consists (log : LogFile) (header : List UInt8) (records : List LogRecord) : Prop where
  ready : log.Ready
  sized : header.length = WalFileHeader.kSize
  bytes : log.file.bytes = header ++ records.flatMap paddedFrame

namespace LogFile

variable {log : LogFile} {header : List UInt8} {records : List LogRecord}

theorem Consists.laid (consists : log.Consists header records) : Laid records (log.file.bytes.drop WalFileHeader.kSize) := by
  rw [consists.bytes, List.drop_left' consists.sized]
  exact laid_frames records

theorem truncate_ready (ready : log.Ready) {newSize : Nat} (behind : WalFileHeader.kSize ≤ newSize)
    (inside : newSize ≤ log.file.bytes.length) :
    ∃ after, log.truncate newSize = (Status.success, after) ∧ after.Ready ∧ after.file.bytes = log.file.bytes.take newSize ∧
      after.appendOffset = newSize := by
  have resized : (log.file.resize newSize).1 = Status.success ∧ (log.file.resize newSize).2.isOpen = true ∧
      (log.file.resize newSize).2.fail = false ∧ (log.file.resize newSize).2.bytes = log.file.bytes.take newSize ∧
      (log.file.resize newSize).2.size = newSize := by
    rw [DatabaseFile.resize, if_neg (by simp [ready.isOpen])]
    refine ⟨rfl, ready.isOpen, rfl, ?_, rfl⟩
    rw [Nat.sub_eq_zero_of_le inside, List.replicate_zero, List.append_nil]
    rfl
  obtain ⟨status, isOpen, good, bytes, size⟩ := resized
  refine ⟨{ log with file := (log.file.resize newSize).2, appendOffset := newSize }, ?_, ⟨ready.attached, isOpen, good, ?_⟩, bytes, rfl⟩
  · rw [truncate, if_neg (by simp [ready.attached]), if_neg (Nat.not_lt.mpr behind)]
    simp only [status, Status.ok_success, if_not_true]
  · rw [bytes, size, List.length_take, Nat.min_eq_left inside]

end LogFile
end Quartz.Wal

namespace Quartz.Recovery
open Storage Wal LogWriter LogFile

namespace CheckpointManager

variable {log : LogFile} {lsn : LogSequenceNumber} {offset fuel : Nat}

/-- The walk cuts the log behind the first record with the number. -/
theorem truncateFrom_finds {front rest : List LogRecord} {record : LogRecord} (ready : log.Ready)
    (laid : Laid (front ++ record :: rest) (log.file.bytes.drop offset))
    (fits : ∀ other ∈ front ++ record :: rest, other.Fits) (before : ∀ other ∈ front, other.lsn ≠ record.lsn)
    (enough : front.length < fuel) :
    ∃ moved : LogFile, moved.Ready ∧ moved.file.bytes = log.file.bytes ∧
      truncateFrom record.lsn fuel log offset = moved.truncate (offset + ((front ++ [record]).flatMap paddedFrame).length) := by
  induction front generalizing log offset fuel with
  | nil =>
    obtain ⟨moved, found, ready', bytes, -, -⟩ := laid.readRecord ready (fits record List.mem_cons_self)
    cases fuel with
    | zero => cases enough
    | succ fuel =>
      refine ⟨moved, ready', bytes, ?_⟩
      rw [truncateFrom, if_pos (laid.inside ready), found]
      simp only [if_true]
      simp
  | cons first front ih =>
    obtain ⟨fit, fits⟩ := List.forall_mem_cons.mp fits
    obtain ⟨other, before⟩ := List.forall_mem_cons.mp before
    obtain ⟨moved, found, ready', bytes, -, behind⟩ := laid.readRecord ready fit
    cases fuel with
    | zero => cases enough
    | succ fuel =>
      obtain ⟨last, ready'', bytes', cut⟩ := ih ready' behind fits before (Nat.lt_of_succ_lt_succ enough)
      refine ⟨last, ready'', bytes'.trans bytes, ?_⟩
      rw [truncateFrom, if_pos (laid.inside ready), found]
      simp only [if_neg other, cut]
      rw [List.cons_append, List.flatMap_cons, List.length_append, length_paddedFrame, Nat.add_assoc]

theorem truncateFrom_misses {records : List LogRecord} (ready : log.Ready) (laid : Laid records (log.file.bytes.drop offset))
    (fits : ∀ record ∈ records, record.Fits) (absent : ∀ record ∈ records, record.lsn ≠ lsn) (fuel : Nat) :
    (truncateFrom lsn fuel log offset).1.ok = false ∧ (truncateFrom lsn fuel log offset).2.file.bytes = log.file.bytes := by
  induction records generalizing log offset fuel with
  | nil =>
    cases fuel with
    | zero => exact ⟨rfl, rfl⟩
    | succ fuel =>
      rw [truncateFrom, if_neg (Nat.not_lt.mpr (laid.done ready))]
      exact ⟨rfl, rfl⟩
  | cons first rest ih =>
    obtain ⟨fit, fits⟩ := List.forall_mem_cons.mp fits
    obtain ⟨other, others⟩ := List.forall_mem_cons.mp absent
    obtain ⟨moved, found, ready', bytes, -, behind⟩ := laid.readRecord ready fit
    cases fuel with
    | zero => exact ⟨rfl, rfl⟩
    | succ fuel =>
      obtain ⟨refused, same⟩ := ih ready' behind fits others fuel
      rw [truncateFrom, if_pos (laid.inside ready), found]
      simp only [if_neg other]
      exact ⟨refused, same.trans bytes⟩

theorem filter_ascending {front rest : List LogRecord} {record : LogRecord} (ascending : Ascending (front ++ record :: rest)) :
    (front ++ record :: rest).filter (fun other => other.lsn.value ≤ record.lsn.value) = front ++ [record] := by
  obtain ⟨-, behind, before⟩ := List.pairwise_append.mp ascending.rises
  obtain ⟨above, -⟩ := List.pairwise_cons.mp behind
  have kept : front.filter (fun other => decide (other.lsn.value ≤ record.lsn.value)) = front :=
    List.filter_eq_self.mpr fun other member => by
      simpa using UInt64.le_of_lt (before other member record List.mem_cons_self)
  have dropped : rest.filter (fun other => decide (other.lsn.value ≤ record.lsn.value)) = [] :=
    List.filter_eq_nil_iff.mpr fun other member => by simpa using above other member
  rw [List.filter_append, kept, List.filter_cons_of_pos (by simp), dropped]

variable {wal : LogManager} {header : List UInt8} {front rest : List LogRecord} {record : LogRecord}

theorem truncateAfterCheckpoint_cuts (consists : wal.file.Consists header (front ++ record :: rest))
    (ascending : Ascending (front ++ record :: rest)) :
    ∃ file, truncateAfterCheckpoint wal record.lsn = (Status.success, { wal with file := file }) ∧
      file.Consists header (front ++ [record]) ∧ file.appendOffset = file.file.bytes.length := by
  have frames : (front ++ record :: rest).flatMap paddedFrame =
      (front ++ [record]).flatMap paddedFrame ++ rest.flatMap paddedFrame := by
    rw [← List.flatMap_append, List.append_assoc, List.singleton_append]
  have before : ∀ other ∈ front, other.lsn ≠ record.lsn := fun other member same =>
    UInt64.lt_irrefl _ (same ▸ (List.pairwise_append.mp ascending.rises).2.2 other member record List.mem_cons_self)
  have enough : front.length < wal.file.fileSize := by
    have count := consists.laid.length_le
    have sized := consists.sized
    rw [List.length_append, List.length_cons, List.length_drop] at count
    rw [consists.ready.fileSize]
    omega
  obtain ⟨moved, ready, bytes, found⟩ := truncateFrom_finds consists.ready consists.laid
    (fun other member => (ascending.each other member).2) before enough
  have length := congrArg List.length (bytes.trans consists.bytes)
  rw [frames, List.length_append, List.length_append, consists.sized] at length
  have inside : WalFileHeader.kSize + ((front ++ [record]).flatMap paddedFrame).length ≤ moved.file.bytes.length := by omega
  obtain ⟨after, cut, ready', kept, offset⟩ := truncate_ready ready (Nat.le_add_right _ _) inside
  have front' : after.file.bytes = header ++ (front ++ [record]).flatMap paddedFrame := by
    rw [kept, bytes, consists.bytes, frames, ← consists.sized, ← List.length_append, ← List.append_assoc, List.take_left]
  refine ⟨after, ?_, ⟨ready', consists.sized, front'⟩, ?_⟩
  · rw [truncateAfterCheckpoint, found, cut]
  · rw [offset, front', List.length_append, consists.sized]

end CheckpointManager
end Quartz.Recovery

namespace Quartz.Wal.LogManager
open Storage LogWriter LogFile LogRecord

variable {wal : LogManager} {header : List UInt8} {records front : List LogRecord} {record : LogRecord}

/-- The counters are set to the number of the last record. -/
theorem restoreWriterState_last (initialized : wal.initialized = true) (consists : wal.file.Consists header (front ++ [record]))
    (fits : ∀ other ∈ front ++ [record], other.Fits) (valid : record.lsn.isValid = true) :
    ∃ after, wal.restoreWriterState = (Status.success, after) ∧ after.initialized = true ∧
      after.writer = { wal.writer with
        currentLsn := record.lsn, nextLsn := record.lsn.next, lastFlushedLsn := record.lsn } ∧
      after.file.Consists header (front ++ [record]) ∧ after.file.appendOffset = wal.file.appendOffset := by
  have enough : (front ++ [record]).length ≤ wal.file.fileSize := by
    have count := consists.laid.length_le
    rw [List.length_drop] at count
    rw [consists.ready.fileSize]
    omega
  obtain ⟨file, scanned, ready, bytes, offset⟩ := lastLsn_laid consists.laid consists.ready fits enough .invalid
  rw [List.foldl_append, List.foldl_cons, List.foldl_nil] at scanned
  simp only [restoreWriterState, initialized, if_not_true, restoreFromFile, scanned, valid, if_true]
  exact ⟨_, rfl, rfl, rfl, ⟨ready, consists.sized, bytes.trans consists.bytes⟩, offset⟩

/-- A record that is accepted and flushed stands behind the records of the log. -/
theorem append_consists (initialized : wal.initialized = true) (buffer : wal.writer.buffer = {})
    (consists : wal.file.Consists header records) (offset : wal.file.appendOffset = wal.file.file.bytes.length)
    (accepts : wal.writer.Accepts record) :
    ∃ appended flushed, wal.append record = (Status.success, appended) ∧ appended.flush = (Status.success, flushed) ∧
      flushed.writer.lastFlushedLsn = wal.writer.nextLsn ∧
      flushed.file.Consists header (records ++ [{ record with lsn := wal.writer.nextLsn }]) := by
  have called : (!wal.initialized) = false := by rw [initialized]; rfl
  have granted := appendRecord_accepts accepts.valid accepts.room
  obtain ⟨-, room, changed⟩ := appendRecord_ok ((appendRecord_sized_iff (length_frame _)).mpr accepts)
  have buffered : (wal.writer.appendRecord record).2.buffer.bytes = frame { record with lsn := wal.writer.nextLsn } := by
    rw [changed, buffer]
    rfl
  have aligned : wal.file.appendOffset % 8 = 0 := by
    have whole := logBytes_aligned records
    rw [logBytes, List.length_append, length_walHeader] at whole
    rw [offset, consists.bytes, List.length_append, consists.sized, WalFileHeader.kSize]
    exact whole
  obtain ⟨file, flushed, ready, -, bytes⟩ := flush_ready (wal.writer.appendRecord record).2 consists.ready
    (Nat.le_of_eq offset) aligned
  rw [buffered, length_frame, offset, consists.bytes, Splice.write_at_end] at bytes
  let appended : LogManager := { wal with writer := (wal.writer.appendRecord record).2 }
  refine ⟨appended, appended.flush.2, ?_, ?_, ?_, ?_⟩
  · simp only [LogManager.append, called, if_false_true, granted, appended]
  · simp only [LogManager.flush, appended, called, if_false_true, flushed]
  · have current : (wal.writer.appendRecord record).2.currentLsn = wal.writer.nextLsn := by rw [changed]
    simp only [LogManager.flush, appended, called, if_false_true, flushed, current]
  · simp only [LogManager.flush, appended, called, if_false_true, flushed]
    refine ⟨ready, consists.sized, ?_⟩
    rw [bytes, List.flatMap_append, List.flatMap_cons, List.flatMap_nil, List.append_nil, List.append_assoc]
    rfl

theorem readNext_behind {log : LogFile} {marker next : LogRecord} (consists : log.Consists header (front ++ [marker] ++ [next]))
    (fits : marker.Fits) (fits' : next.Fits) (valid : next.Valid) (above : marker.lsn.value < next.lsn.value) :
    ∃ place size moved, log.readRecord place = (.ok (marker, size), moved) ∧
      (LogReader.readNext ⟨place + size, marker.lsn, false⟩ moved).1 = .ok next := by
  have placed : log.file.bytes.drop (WalFileHeader.kSize + (front.flatMap paddedFrame).length) =
      [marker, next].flatMap paddedFrame := by
    rw [consists.bytes, ← List.drop_drop, List.drop_left' consists.sized, List.append_assoc, List.flatMap_append, List.drop_left]
    rfl
  have laid : Laid [marker, next] (log.file.bytes.drop (WalFileHeader.kSize + (front.flatMap paddedFrame).length)) :=
    placed ▸ laid_frames _
  obtain ⟨moved, found, ready, -, -, behind⟩ := laid.readRecord consists.ready fits
  obtain ⟨moved', found', -⟩ := behind.readRecord ready fits'
  let reader : LogReader := ⟨WalFileHeader.kSize + (front.flatMap paddedFrame).length +
    padded (49 + marker.payload.length), marker.lsn, false⟩
  have order : reader.lastLsn.Precedes next.lsn := fun _ => above
  have read := @LogReader.readNext_accepts reader moved next moved' _ rfl (behind.inside ready) found' valid order
  exact ⟨_, _, moved, found, congrArg Prod.fst read⟩

end Quartz.Wal.LogManager

namespace Quartz.Recovery.CheckpointManager
open Storage Wal LogWriter LogFile LogRecord

theorem next_toNat {lsn : LogSequenceNumber} (below : lsn.value.toNat < 2 ^ 64 - 1) :
    lsn.next.value.toNat = lsn.value.toNat + 1 := by
  rw [LogSequenceNumber.next, UInt64.toNat_add, UInt64.toNat_one, Nat.mod_eq_of_lt (by omega)]

/-- In every well-formed log with nothing buffered: a number that no record has is refused and the file stays; behind a
record that has it the log is cut, and the next record gets the number after it and is read right behind it. -/
theorem truncateAfterCheckpoint_keeps_prefix {wal : LogManager} {header : List UInt8} {records : List LogRecord}
    (initialized : wal.initialized = true) (buffer : wal.writer.buffer = {}) (consists : wal.file.Consists header records)
    (ascending : Ascending records) (lsn : LogSequenceNumber) (below : lsn.value.toNat < 2 ^ 64 - 1) :
    ((∀ record ∈ records, record.lsn ≠ lsn) → (truncateAfterCheckpoint wal lsn).1.ok = false ∧
        (truncateAfterCheckpoint wal lsn).2.file.file.bytes = wal.file.file.bytes) ∧
      ∀ marker ∈ records, marker.lsn = lsn → ∃ cut restored, truncateAfterCheckpoint wal lsn = (Status.success, cut) ∧
        cut.file.Consists header (records.filter fun record => record.lsn.value ≤ lsn.value) ∧
        cut.restoreWriterState = (Status.success, restored) ∧
        ∀ record : LogRecord, isValidRecordType record.type = true → record.timestamp ≠ 0 →
          4 + record.wireSize ≤ 64 * 1024 →
          ∃ appended flushed next, restored.append record = (Status.success, appended) ∧
            appended.flush = (Status.success, flushed) ∧ next = { record with lsn := lsn.next } ∧
            next.lsn.value.toNat = lsn.value.toNat + 1 ∧ flushed.writer.lastFlushedLsn = next.lsn ∧
            flushed.file.Consists header ((records.filter fun record => record.lsn.value ≤ lsn.value) ++ [next]) ∧
            ∃ place size moved, flushed.file.readRecord place = (.ok (marker, size), moved) ∧
              (LogReader.readNext ⟨place + size, lsn, false⟩ moved).1 = .ok next := by
  refine ⟨fun absent => ?_, ?_⟩
  · have missed := truncateFrom_misses consists.ready consists.laid (fun record member => (ascending.each record member).2)
      absent wal.file.fileSize
    exact missed
  rintro marker member rfl
  obtain ⟨front, rest, rfl⟩ := List.append_of_mem member
  rw [filter_ascending ascending]
  obtain ⟨file, cut, consists', offset⟩ := truncateAfterCheckpoint_cuts consists ascending
  have kept : ∀ record ∈ front ++ [marker], record.Fits := fun record inside =>
    (ascending.each record (by rw [List.append_cons]; exact List.mem_append_left rest inside)).2
  obtain ⟨valid, fits⟩ := ascending.each marker member
  obtain ⟨restored, restores, initialized', writer, consists'', offset'⟩ :=
    @LogManager.restoreWriterState_last { wal with file := file } _ _ _ initialized consists' kept valid
  refine ⟨_, restored, cut, consists', restores, fun record type timestamp small => ?_⟩
  have number := next_toNat below
  have above : marker.lsn.value < marker.lsn.next.value := by
    rw [UInt64.lt_iff_toNat_lt, number]
    exact Nat.lt_succ_self _
  have valid' : ({ record with lsn := marker.lsn.next } : LogRecord).Valid := by
    refine ⟨type, ?_, timestamp⟩
    simp only [LogSequenceNumber.isValid, bne_iff_ne, ne_eq, ← UInt64.toNat_inj, number]
    exact Nat.succ_ne_zero _
  have short : 49 + record.payload.length ≤ 64 * 1024 := by
    rw [wireSize] at small
    omega
  have fits' : ({ record with lsn := marker.lsn.next } : LogRecord).Fits :=
    show 45 + record.payload.length < 2 ^ 32 by omega
  have empty : restored.writer.buffer = {} := by rw [writer, buffer]
  have next : restored.writer.nextLsn = marker.lsn.next := by rw [writer]
  have accepts : restored.writer.Accepts record := by
    refine ⟨next ▸ valid', ?_⟩
    rw [empty]
    exact (Nat.zero_add _).trans_le short
  obtain ⟨appended, flushed, append, flush, last, consists'''⟩ := LogManager.append_consists initialized' empty consists''
    (offset'.trans (offset.trans (by rw [consists'.bytes, consists''.bytes]))) accepts
  rw [next] at last consists'''
  exact ⟨appended, flushed, _, append, flush, rfl, number, last, consists''',
    LogManager.readNext_behind consists''' fits fits' valid' above⟩

def gappedLog : LogManager where
  initialized := true
  file := Reading.cutLog LogReader.gappedRecords 144

theorem truncateAfterCheckpoint_keeps_prefix_gap :
    (truncateAfterCheckpoint gappedLog ⟨5⟩).1.ok = false ∧
      ∃ cut, truncateAfterCheckpoint gappedLog ⟨3⟩ = (Status.success, cut) ∧
        cut.file.Consists walHeader [{ Reading.eightBytes with lsn := ⟨3⟩ }] := by
  have consists : gappedLog.file.Consists walHeader LogReader.gappedRecords := ⟨Reading.ready_cutLog _ _, rfl, rfl⟩
  have ascending : Ascending LogReader.gappedRecords := by
    refine ⟨by decide, ?_⟩
    simp only [LogReader.gappedRecords, List.forall_mem_cons]
    exact ⟨⟨rfl, (by decide : 45 + 8 < 2 ^ 32)⟩, ⟨rfl, (by decide : 45 + 8 < 2 ^ 32)⟩, nofun⟩
  have keeps := truncateAfterCheckpoint_keeps_prefix rfl rfl consists ascending
  obtain ⟨cut, -, done, kept, -⟩ := (keeps ⟨3⟩ (by decide)).2 _ List.mem_cons_self rfl
  exact ⟨((keeps ⟨5⟩ (by decide)).1 (by decide)).1, cut, done, kept⟩

end Quartz.Recovery.CheckpointManager
