import Quartz.Proofs.FaultyFlush
import Quartz.Proofs.LogBatches
import Quartz.Proofs.WrittenBlocks

/-! Sequence numbers over a run. The counter only goes up: the frames in the file have lost their numbers,
so a restore finds none to go back to. For the same reason the numbers in the file do not go up. -/

namespace Quartz.Wal
open Storage Serialization Bytes LogWriter LogFile

namespace LogFile

variable {log : LogFile} {offset fuel : Nat}

/-- The numbers of the records in a file, one after another up to the end or the first that cannot be read. -/
def lsns : Nat → LogFile → Nat → List LogSequenceNumber × LogFile
  | 0, log, _ => ([], log)
  | fuel + 1, log, offset =>
    if offset < log.fileSize then
      match log.readRecord offset with
      | (.error _, log) => ([], log)
      | (.ok (record, bytesRead), log) =>
        let (later, log) := lsns fuel log (offset + bytesRead)
        (record.lsn :: later, log)
    else ([], log)

theorem lastLsn_eq (fuel : Nat) (log : LogFile) (offset : Nat) (found : LogSequenceNumber) :
    lastLsn fuel log offset found =
      ((lsns fuel log offset).1.foldl (fun _ lsn => lsn) found, (lsns fuel log offset).2) := by
  induction fuel generalizing log offset found with
  | zero => rfl
  | succ fuel ih =>
    rw [lastLsn, lsns]
    split
    · rcases log.readRecord offset with ⟨status | ⟨record, bytesRead⟩, after⟩
      · rfl
      · exact ih after (offset + bytesRead) record.lsn
    · rfl

/-- Only the stream differs. -/
structure Reread (log after : LogFile) : Prop where
  bytes : after.file.bytes = log.file.bytes
  size : after.file.size = log.file.size
  offset : after.appendOffset = log.appendOffset

theorem Reread.refl (log : LogFile) : log.Reread log := ⟨rfl, rfl, rfl⟩

theorem Reread.trans {between after : LogFile} (first : log.Reread between) (second : between.Reread after) :
    log.Reread after :=
  ⟨second.bytes.trans first.bytes, second.size.trans first.size, second.offset.trans first.offset⟩

theorem nonzero_of_window {bytes : List UInt8} {start count place : Nat}
    (nonzero : (window bytes start count)[place]?.getD 0 ≠ 0) : bytes[start + place]?.getD 0 ≠ 0 := by
  rw [window] at nonzero
  rcases Nat.lt_or_ge place ((bytes.drop start).take count).length with inside | outside
  · rw [List.getElem?_append_left inside] at nonzero
    rw [List.length_take] at inside
    rwa [List.getElem?_take_of_lt (by omega), List.getElem?_drop] at nonzero
  · rw [List.getElem?_append_right outside, List.getElem?_replicate] at nonzero
    split at nonzero <;> exact absurd rfl nonzero

/-- The bytes behind the header are a hollow log of records that fit the buffer. -/
def Emptied (log : LogFile) : Prop := ∃ rest, log.file.bytes = walHeader ++ rest ∧ Hollow 2 rest

/-- Where a size stands there is no sequence number behind it, wherever the record is read. -/
theorem Emptied.lsn_zero (emptied : log.Emptied) (behind : WalFileHeader.kSize ≤ offset) {size : Nat}
    (sized : field log.file.bytes offset 4 ≠ 0) : field (window log.file.bytes (offset + 4) size) 1 8 = 0 := by
  obtain ⟨rest, bytes, hollow⟩ := emptied
  have inRest : ∀ {place : Nat}, offset ≤ place → log.file.bytes[place]?.getD 0 ≠ 0 → rest[place - 16]?.getD 0 ≠ 0 := by
    intro place after nonzero
    have header : walHeader.length ≤ place := by
      rw [length_walHeader]
      exact behind.trans after
    rwa [bytes, List.getElem?_append_right header, length_walHeader] at nonzero
  by_contra numbered
  obtain ⟨first, low, high, left⟩ := exists_byte_of_field sized
  obtain ⟨second, from1, to9, right⟩ := exists_byte_of_field numbered
  have behind : 16 ≤ offset := behind
  have far := hollow.apart (show first - 16 < offset + 4 + second - 16 by omega) (inRest low left)
    (inRest (by omega) (nonzero_of_window right))
  omega

theorem Emptied.readRecord (emptied : log.Emptied) (tight : log.Tight) (behind : WalFileHeader.kSize ≤ offset) :
    log.Reread (log.readRecord offset).2 ∧
      ∀ record size, (log.readRecord offset).1 = .ok (record, size) → record.lsn = .invalid := by
  cases opened : log.isOpen with
  | false =>
    simp only [LogFile.readRecord, opened, Bool.not_false, if_true]
    exact ⟨.refl log, fun _ _ found => by cases found⟩
  | true =>
    have attached : log.attached = true ∧ log.file.isOpen = true := by simpa [LogFile.isOpen] using opened
    cases failed : log.file.fail with
    | true =>
      rw [readRecord_broken ⟨attached.1, attached.2, failed⟩]
      exact ⟨⟨rfl, rfl, rfl⟩, fun _ _ found => by cases found⟩
    | false =>
      have ready : log.Ready := ⟨attached.1, attached.2, failed, tight.size⟩
      rcases Nat.lt_or_ge log.file.bytes.length (offset + 4) with short | sized
      · obtain ⟨status, position, eof, found⟩ := readRecord_unsized ready short
        rw [found]
        exact ⟨⟨rfl, rfl, rfl⟩, fun _ _ found => by cases found⟩
      rcases Nat.eq_zero_or_pos (field log.file.bytes offset 4) with zero | positive
      · obtain ⟨position, found⟩ := readRecord_zero ready sized zero
        rw [found]
        exact ⟨⟨rfl, rfl, rfl⟩, fun _ _ found => by cases found⟩
      obtain ⟨position, found⟩ := readRecord_sized ready sized rfl positive
      rw [found]
      refine ⟨⟨rfl, rfl, rfl⟩, fun record size read => ?_⟩
      simp only at read
      split at read
      · obtain ⟨rfl, -⟩ := Prod.mk.inj (Except.ok.inj read)
        rw [LogRecord.parse, emptied.lsn_zero behind (Nat.pos_iff_ne_zero.mp positive)]
        rfl
      · cases read

theorem Reread.emptied {after : LogFile} (same : log.Reread after) (emptied : log.Emptied) : after.Emptied := by
  rw [Emptied, same.bytes]
  exact emptied

theorem Reread.tight {after : LogFile} (same : log.Reread after) (tight : log.Tight) : after.Tight :=
  ⟨by rw [same.offset, same.bytes]; exact tight.offset, by rw [same.size, same.bytes]; exact tight.size⟩

/-- Every number that is found in a hollow log is invalid. -/
theorem Emptied.lsns (emptied : log.Emptied) (tight : log.Tight) (behind : WalFileHeader.kSize ≤ offset) :
    log.Reread (log.lsns fuel offset).2 ∧ ∀ lsn ∈ (log.lsns fuel offset).1, lsn = .invalid := by
  induction fuel generalizing log offset with
  | zero => exact ⟨.refl log, by simp [LogFile.lsns]⟩
  | succ fuel ih =>
    rw [LogFile.lsns]
    split
    · obtain ⟨same, zero⟩ := emptied.readRecord tight behind
      rcases read : log.readRecord offset with ⟨status | ⟨record, bytesRead⟩, after⟩
      · rw [read] at same
        exact ⟨same, by simp⟩
      · rw [read] at same zero
        obtain ⟨later, rest⟩ := ih (same.emptied emptied) (same.tight tight)
          (show WalFileHeader.kSize ≤ offset + bytesRead from behind.trans (Nat.le_add_right _ _))
        exact ⟨same.trans later, List.forall_mem_cons.mpr ⟨zero record bytesRead rfl, rest⟩⟩
    · exact ⟨.refl log, by simp⟩

end LogFile

namespace LogWriter

/-- Nothing is restored from a hollow log. -/
theorem restoreFromFile_emptied (writer : LogWriter) {log : LogFile} (emptied : log.Emptied) (tight : log.Tight) :
    writer.restoreFromFile log = (Status.success, writer, (log.lsns log.fileSize WalFileHeader.kSize).2) := by
  obtain ⟨-, invalid⟩ := emptied.lsns tight (Nat.le_refl WalFileHeader.kSize)
  have none : (log.lsns log.fileSize WalFileHeader.kSize).1.foldl (fun _ lsn => lsn) LogSequenceNumber.invalid = .invalid := by
    rcases List.eq_nil_or_concat' (log.lsns log.fileSize WalFileHeader.kSize).1 with empty | ⟨earlier, last, some⟩
    · rw [empty]
      rfl
    · rw [some, List.foldl_append]
      exact invalid last (by rw [some]; simp)
  rw [restoreFromFile, lastLsn_eq, none]
  rfl

/-- Over whole records the scan finds the number of the last. -/
theorem lastLsn_laid {records : List LogRecord} {log : LogFile} {offset fuel : Nat}
    (laid : Laid records (log.file.bytes.drop offset)) (ready : log.Ready) (fits : ∀ record ∈ records, record.Fits)
    (enough : records.length ≤ fuel) (found : LogSequenceNumber) :
    ∃ after, lastLsn fuel log offset found = (records.foldl (fun _ record => record.lsn) found, after) ∧
      after.Ready ∧ after.file.bytes = log.file.bytes ∧ after.appendOffset = log.appendOffset := by
  induction records generalizing log offset fuel found with
  | nil =>
    refine ⟨log, ?_, ready, rfl, rfl⟩
    cases fuel with
    | zero => rfl
    | succ fuel => rw [lastLsn, if_neg (Nat.not_lt.mpr (laid.done ready)), List.foldl_nil]
  | cons record rest ih =>
    obtain ⟨fit, later⟩ := List.forall_mem_cons.mp fits
    obtain ⟨file, read, ready', bytes, offset, behind⟩ := laid.readRecord ready fit
    cases fuel with
    | zero => cases enough
    | succ fuel =>
      obtain ⟨after, scanned, good, sameBytes, sameOffset⟩ :=
        ih behind ready' later (Nat.le_of_succ_le_succ enough) record.lsn
      refine ⟨after, ?_, good, sameBytes.trans bytes, sameOffset.trans offset⟩
      rw [lastLsn, if_pos (laid.inside ready), read]
      exact scanned

/-- The records of a batch that are appended, under their numbers: those before the first
that is refused. -/
def accepted (writer : LogWriter) : List LogRecord → List LogRecord
  | [] => []
  | record :: rest =>
    if (writer.appendRecord record writtenFrame).1.ok then
      { record with lsn := writer.nextLsn } :: (writer.appendRecord record writtenFrame).2.accepted rest
    else []

theorem appendBatch_single (writer : LogWriter) (record : LogRecord) :
    (writer.appendBatch [record] writtenFrame).2 = (writer.appendRecord record writtenFrame).2 := by
  rw [appendBatch]
  simp only
  split <;> rfl

end LogWriter

/-- Records in the order of their numbers, all from a range, that fit into the buffer. -/
structure Rising (low high : Nat) (records : List LogRecord) : Prop where
  increasing : records.Pairwise fun first second => first.lsn.value < second.lsn.value
  range : ∀ record ∈ records, low ≤ record.lsn.value.toNat ∧ record.lsn.value.toNat < high
  small : ∀ record ∈ records, 49 + record.payload.length ≤ 64 * 1024

namespace Rising

variable {low middle high : Nat} {first second : List LogRecord}

theorem nil (low high : Nat) : Rising low high [] := ⟨List.Pairwise.nil, by simp, by simp⟩

theorem append (before : Rising low middle first) (after : Rising middle high second) (up : low ≤ middle)
    (further : middle ≤ high) : Rising low high (first ++ second) := by
  refine ⟨List.pairwise_append.mpr ⟨before.increasing, after.increasing, fun left inFirst right inSecond => ?_⟩,
    fun record member => ?_, fun record member => ?_⟩
  · have below := (before.range left inFirst).2
    have above := (after.range right inSecond).1
    rw [UInt64.lt_iff_toNat_lt]
    omega
  · rcases List.mem_append.mp member with member | member
    · have inside := before.range record member
      omega
    · have inside := after.range record member
      omega
  · rcases List.mem_append.mp member with member | member
    · exact before.small record member
    · exact after.small record member

theorem hollow (rising : Rising low high first) : Hollow 2 (first.flatMap writtenFrame) := by
  refine Hollow.flatMap_frame (fun record member => ?_) (fun record member => ?_)
  · have small := rising.small record member
    rw [LogRecord.Fits]
    omega
  · have small := rising.small record member
    omega

end Rising

namespace LogWriter

/-- What a batch leaves behind while the numbers last: the accepted records stand in the
buffer, numbered from where the counter was. -/
theorem appendBatch_rising {writer : LogWriter} {records : List LogRecord} (capacity : writer.buffer.capacity = 64 * 1024)
    (positive : 1 ≤ writer.nextLsn.value.toNat) (enough : writer.nextLsn.value.toNat + records.length < 2 ^ 64)
    (fits : ∀ record ∈ records, record.Fits) :
    Rising writer.nextLsn.value.toNat (writer.appendBatch records writtenFrame).2.nextLsn.value.toNat
        (writer.accepted records) ∧
      writer.nextLsn.value.toNat ≤ (writer.appendBatch records writtenFrame).2.nextLsn.value.toNat ∧
      (writer.appendBatch records writtenFrame).2.buffer = { writer.buffer with
        bytes := writer.buffer.bytes ++ (writer.accepted records).flatMap writtenFrame } := by
  induction records generalizing writer with
  | nil => exact ⟨Rising.nil _ _, Nat.le_refl _, by simp [appendBatch, accepted]⟩
  | cons record rest ih =>
    rw [List.length_cons] at enough
    obtain ⟨fit, fits⟩ := List.forall_mem_cons.mp fits
    have next : (writer.appendRecord record writtenFrame).2.nextLsn.value.toNat = writer.nextLsn.value.toNat + 1 := by
      have one : (1 : UInt64).toNat = 1 := rfl
      rw [appendRecord_nextLsn, LogSequenceNumber.next, UInt64.toNat_add, one]
      exact Nat.mod_eq_of_lt (by omega)
    rw [appendBatch, accepted]
    rcases writer.appendRecord_cases record writtenFrame with ⟨refused, buffer⟩ | ⟨-, stored, done⟩
    · simp only [refused, Bool.not_false, if_true, if_false_true]
      refine ⟨Rising.nil _ _, by omega, ?_⟩
      rw [buffer, List.flatMap_nil, List.append_nil]
    · have accepts : (writer.appendRecord record writtenFrame).1.ok = true := by rw [done]; rfl
      simp only [accepts, if_not_true, if_true]
      have room : (writer.appendRecord record writtenFrame).2.buffer.capacity = 64 * 1024 := by rw [done]; exact capacity
      obtain ⟨rising, further, buffer⟩ := ih room (by omega) (by omega) fits
      have head : Rising writer.nextLsn.value.toNat (writer.appendRecord record writtenFrame).2.nextLsn.value.toNat
          [{ record with lsn := writer.nextLsn }] := by
        refine ⟨List.pairwise_singleton _ _, ?_, ?_⟩ <;> simp only [List.forall_mem_singleton]
        · omega
        · rw [length_numberedFrame fit, capacity] at stored
          omega
      refine ⟨head.append rising (by omega) further, by omega, ?_⟩
      rw [buffer, done]
      simp only [List.flatMap_cons, List.append_assoc]

end LogWriter

inductive WriterCall where
  | append (record : LogRecord)
  | appendBatch (records : List LogRecord)
  | flush
  | restoreWriterState
  deriving DecidableEq, Repr

def WriterCall.records : WriterCall → List LogRecord
  | .append record => [record]
  | .appendBatch records => records
  | .flush => []
  | .restoreWriterState => []

namespace History

/-- A call with any outcome: the accepted records are pending under the numbers they took, until a flush that
is granted. -/
def write (history : History) : WriterCall → History
  | .append record =>
    { history with
      manager := (history.manager.append record writtenFrame).2
      pending := history.pending ++ history.manager.writer.accepted [record] }
  | .appendBatch records =>
    { history with
      manager := (history.manager.appendBatch records writtenFrame).2
      pending := history.pending ++ history.manager.writer.accepted records }
  | .flush =>
    if history.manager.flush.1.ok then history.call .flush else { history with manager := history.manager.flush.2 }
  | .restoreWriterState => { history with manager := history.manager.restoreWriterState.2 }

/-- No accepted record has the number of an earlier one or a smaller one. -/
def Increases (history : History) : Prop :=
  (history.batches.flatten ++ history.pending).Pairwise fun first second => first.lsn.value < second.lsn.value

def Alone (history : History) : Prop := ∀ batch ∈ history.batches, batch.length ≤ 1

def inFile (history : History) : List LogSequenceNumber :=
  (history.manager.file.lsns history.manager.file.fileSize WalFileHeader.kSize).1

/-- Of records that were flushed one by one the numbers in the file increase. -/
def IncreasesInFile (history : History) : Prop :=
  history.Alone → history.inFile.Pairwise fun first second => first.value < second.value

def Single (history : History) : Prop := history.Alone → history.batches.flatten.length ≤ 1

/-- The numbers last, and a record has a size that its frame can hold. -/
def Lasting (history : History) (next : WriterCall) : Prop :=
  history.manager.writer.nextLsn.value.toNat + next.records.length < 2 ^ 64 ∧ ∀ record ∈ next.records, record.Fits

instance (record : LogRecord) : Decidable record.Fits := inferInstanceAs (Decidable (_ < _))

instance (history : History) : Decidable history.Increases := inferInstanceAs (Decidable (List.Pairwise _ _))

instance (history : History) : Decidable history.Alone := inferInstanceAs (Decidable (∀ batch ∈ history.batches, batch.length ≤ 1))

instance (history : History) : Decidable history.IncreasesInFile := inferInstanceAs (Decidable (_ → _))

instance (history : History) (next : WriterCall) : Decidable (history.Lasting next) := inferInstanceAs (Decidable (_ ∧ _))

/-- The counter is ahead of every record, the file has lost all numbers, and while the records were flushed one
by one it holds their frames. -/
structure Counted (history : History) : Prop where
  initialized : history.manager.initialized = true
  tight : history.manager.file.Tight
  emptied : history.manager.file.Emptied
  buffer : Hollow 2 history.manager.writer.buffer.bytes
  capacity : history.manager.writer.buffer.capacity = 64 * 1024
  positive : 1 ≤ history.manager.writer.nextLsn.value.toNat
  rising : Rising 1 history.manager.writer.nextLsn.value.toNat (history.batches.flatten ++ history.pending)
  stored : history.Alone → history.Stored writtenFrame

theorem counted_fresh (path : String) : (fresh path).Counted := by
  obtain ⟨stored, writer⟩ := stored_fresh path writtenFrame
  refine ⟨stored.initialized, ⟨stored.offset, stored.ready.size⟩, ⟨[], stored.bytes, .nil⟩, ?_, stored.capacity, ?_, ?_, fun _ => stored⟩
  · rw [stored.buffer]
    exact .nil
  · rw [writer]
    exact Nat.le_refl 1
  · rw [writer]
    exact Rising.nil _ _

theorem counted_append {history : History} (counted : history.Counted) {records : List LogRecord}
    {writer : LogWriter} (called : (history.manager.writer.appendBatch records writtenFrame).2 = writer)
    (enough : history.manager.writer.nextLsn.value.toNat + records.length < 2 ^ 64)
    (fits : ∀ record ∈ records, record.Fits) :
    Counted { history with
      manager := { history.manager with writer := writer }
      pending := history.pending ++ history.manager.writer.accepted records } := by
  subst called
  obtain ⟨rising, further, buffer⟩ := appendBatch_rising counted.capacity counted.positive enough fits
  refine ⟨counted.initialized, counted.tight, counted.emptied, ?_, ?_, counted.positive.trans further, ?_, fun alone => ?_⟩
  · simp only [buffer]
    exact counted.buffer.append rising.hollow
  · simp only [buffer, counted.capacity]
  · rw [← List.append_assoc]
    exact counted.rising.append rising counted.positive further
  · have stored := counted.stored alone
    refine ⟨stored.initialized, stored.ready, stored.bytes, stored.offset, ?_, ?_⟩
    · simp only [buffer, stored.buffer, List.flatMap_append]
    · simp only [buffer, stored.capacity]

theorem counted_flush {history : History} (counted : history.Counted) : (history.write .flush).Counted := by
  have called : (!history.manager.initialized) = false := by rw [counted.initialized]; rfl
  have flushed := history.manager.writer.flushUnder_flushed none counted.tight
  have manager : history.manager.flush.2 = { history.manager with
      writer := (history.manager.writer.flushUnder none history.manager.file).2.1
      file := (history.manager.writer.flushUnder none history.manager.file).2.2 } := by
    simp only [LogManager.flush, called, if_false_true]
    rfl
  have after : (history.write .flush).manager = history.manager.flush.2 := by
    simp only [write, call]
    split <;> rfl
  have records : (history.write .flush).batches.flatten ++ (history.write .flush).pending =
      history.batches.flatten ++ history.pending := by
    simp only [write, call]
    split <;> simp
  refine ⟨?_, ?_, ?_, ?_, ?_, ?_, ?_, fun alone => ?_⟩
  · rw [after, manager]
    exact counted.initialized
  · rw [after, manager]
    exact flushed.tight
  · rw [after, manager]
    obtain ⟨rest, bytes, hollow⟩ := counted.emptied
    rcases flushed.bytes with same | ⟨count, grown⟩
    · exact ⟨rest, same.trans bytes, hollow⟩
    · refine ⟨rest ++ history.manager.writer.buffer.bytes ++ List.replicate count 0, ?_,
        (hollow.append counted.buffer).append (.replicate 2 count)⟩
      rw [grown, bytes, List.append_assoc, List.append_assoc, List.append_assoc]
  · rw [after, manager]
    rcases flushed.buffer with same | empty
    · simp only [same]
      exact counted.buffer
    · simp only [empty]
      exact .nil
  · rw [after, manager]
    exact flushed.capacity.trans counted.capacity
  · rw [after, manager]
    simp only [flushed.next]
    exact counted.positive
  · rw [records, after, manager]
    simp only [flushed.next]
    exact counted.rising
  · have before : history.Alone := by
      intro batch member
      refine alone batch ?_
      simp only [write, call]
      split
      · exact List.mem_append_left _ member
      · exact member
    obtain ⟨granted, stored, -⟩ := (counted.stored before).flush
    rw [write, if_pos granted]
    exact stored

theorem flatMap_alone {batches : List (List LogRecord)} (alone : ∀ batch ∈ batches, batch.length ≤ 1) :
    batches.flatMap (blockBytes writtenFrame) =
      batches.flatten.flatMap fun record => blockBytes writtenFrame [record] := by
  induction batches with
  | nil => rfl
  | cons batch rest ih =>
    obtain ⟨first, later⟩ := List.forall_mem_cons.mp alone
    rw [List.flatMap_cons, ih later, List.flatten_cons, List.flatMap_append]
    congr 1
    cases batch with
    | nil => rfl
    | cons record others =>
      obtain rfl : others = [] := by
        rw [List.length_cons] at first
        exact List.eq_nil_of_length_eq_zero (by omega)
      simp

end History

namespace LogFile

variable {log : LogFile} {offset fuel : Nat}

theorem block_eq {record : LogRecord} (fits : record.Fits) :
    blockBytes writtenFrame [record] = encode 4 (45 + record.payload.length) ++
      (List.replicate (45 + record.payload.length) 0 ++
        List.replicate (padded (49 + record.payload.length) - (49 + record.payload.length)) 0) := by
  rw [blockBytes, List.flatMap_cons, List.flatMap_nil, List.append_nil, length_writtenFrame fits, writtenFrame_eq fits, List.append_assoc]

theorem length_block {record : LogRecord} (fits : record.Fits) :
    (blockBytes writtenFrame [record]).length = padded (49 + record.payload.length) := by
  have longer := padded_ge (49 + record.payload.length)
  rw [block_eq fits]
  simp only [List.length_append, encode_length, List.length_replicate]
  omega

/-- A frame is read as a record of its size, without its number. -/
theorem readRecord_written (ready : log.Ready) {record : LogRecord} (fits : record.Fits) {rest : List UInt8}
    (placed : log.file.bytes.drop offset = blockBytes writtenFrame [record] ++ rest) :
    ∃ found position, log.readRecord offset =
      (.ok (found, padded (49 + record.payload.length)), log.movedTo position false) ∧ found.lsn = .invalid := by
  have bound : 45 + record.payload.length < 256 ^ 4 := fits
  have longer := padded_ge (49 + record.payload.length)
  have length := congrArg List.length placed
  rw [List.length_drop, List.length_append, length_block fits] at length
  have size : field log.file.bytes offset 4 = 45 + record.payload.length := by
    rw [← Nat.add_zero offset, ← field_drop, placed, block_eq fits, List.append_assoc, field_encode]
    exact Nat.mod_eq_of_lt bound
  have body : window log.file.bytes (offset + 4) (45 + record.payload.length) =
      List.replicate (45 + record.payload.length) 0 := by
    rw [window_inside (by omega), ← List.drop_drop, placed, block_eq fits, List.append_assoc,
      List.drop_left' (encode_length 4 _), List.append_assoc, List.take_left' List.length_replicate]
  have zero : ∀ start width, field (List.replicate (45 + record.payload.length) 0) start width = 0 := by
    intro start width
    rw [field, List.drop_replicate, List.take_replicate, decode_zeros]
  obtain ⟨position, found⟩ := readRecord_body ready (by omega) size body (by rw [zero]; exact Nat.zero_le _)
  rw [decide_eq_false (by omega)] at found
  refine ⟨_, position, found, ?_⟩
  rw [LogRecord.parse, zero 1 8]
  rfl

/-- Frames one after another, each padded, are read to the end, and each gives an invalid number. -/
theorem lsns_frames {records : List LogRecord} (ready : log.Ready) (fits : ∀ record ∈ records, record.Fits)
    (placed : log.file.bytes.drop offset = records.flatMap fun record => blockBytes writtenFrame [record])
    (enough : log.file.bytes.length - offset ≤ fuel) :
    (log.lsns fuel offset).1 = List.replicate records.length .invalid ∧ (log.lsns fuel offset).2.Ready := by
  induction records generalizing log offset fuel with
  | nil =>
    have done : ¬ offset < log.fileSize := by
      rw [ready.fileSize]
      exact Nat.not_lt.mpr (List.drop_eq_nil_iff.mp placed)
    cases fuel with
    | zero => exact ⟨rfl, ready⟩
    | succ fuel =>
      rw [lsns, if_neg done]
      exact ⟨rfl, ready⟩
  | cons record rest ih =>
    obtain ⟨fit, later⟩ := List.forall_mem_cons.mp fits
    rw [List.flatMap_cons] at placed
    obtain ⟨found, position, read, lsn⟩ := readRecord_written ready fit placed
    have length := congrArg List.length placed
    have longer := padded_ge (49 + record.payload.length)
    rw [List.length_drop, List.length_append, length_block fit] at length
    have inside : offset < log.fileSize := by
      rw [ready.fileSize]
      omega
    have behind : (log.movedTo position false).file.bytes.drop (offset + padded (49 + record.payload.length)) =
        rest.flatMap fun record => blockBytes writtenFrame [record] := by
      rw [bytes_movedTo, ← List.drop_drop, placed, ← length_block fit, List.drop_left]
    cases fuel with
    | zero => omega
    | succ fuel =>
      have left : log.file.bytes.length - (offset + padded (49 + record.payload.length)) ≤ fuel := by omega
      obtain ⟨numbers, good⟩ := ih (ready.movedTo position) later behind left
      rw [lsns, if_pos inside, read]
      exact ⟨by simp only [lsn, numbers, List.length_cons, List.replicate_succ], good⟩

end LogFile

namespace History

variable {history : History}

theorem Counted.fits (counted : history.Counted) : ∀ record ∈ history.batches.flatten, record.Fits := by
  intro record member
  have small := counted.rising.small record (List.mem_append_left _ member)
  rw [LogRecord.Fits]
  omega

/-- Records that were flushed one by one are all read, with invalid numbers. -/
theorem Counted.inFile_alone (counted : history.Counted) (alone : history.Alone) :
    history.inFile = List.replicate history.batches.flatten.length .invalid ∧
      (history.manager.file.lsns history.manager.file.fileSize WalFileHeader.kSize).2.Ready := by
  have stored := counted.stored alone
  have placed : history.manager.file.file.bytes.drop WalFileHeader.kSize =
      history.batches.flatten.flatMap fun record => blockBytes writtenFrame [record] := by
    rw [stored.bytes, flatMap_alone alone]
    exact List.drop_left' length_walHeader
  refine lsns_frames stored.ready counted.fits placed ?_
  rw [stored.ready.fileSize]
  exact Nat.sub_le _ _

theorem counted_restore (counted : history.Counted) : (history.write .restoreWriterState).Counted := by
  have called : (!history.manager.initialized) = false := by rw [counted.initialized]; rfl
  obtain ⟨same, -⟩ := counted.emptied.lsns counted.tight (Nat.le_refl WalFileHeader.kSize)
  have after : history.write .restoreWriterState = { history with manager := { history.manager with
      file := (history.manager.file.lsns history.manager.file.fileSize WalFileHeader.kSize).2 } } := by
    simp only [write, LogManager.restoreWriterState, called, if_false_true, restoreFromFile_emptied _ counted.emptied counted.tight]
  rw [after]
  refine ⟨counted.initialized, same.tight counted.tight, same.emptied counted.emptied, counted.buffer, counted.capacity,
    counted.positive, counted.rising, fun alone => ?_⟩
  have stored := counted.stored alone
  exact ⟨stored.initialized, (counted.inFile_alone alone).2, same.bytes.trans stored.bytes,
    (same.offset.trans stored.offset).trans (congrArg List.length same.bytes).symm, stored.buffer, stored.capacity⟩

theorem write_counted (counted : history.Counted) {next : WriterCall} (lasting : history.Lasting next) :
    (history.write next).Counted := by
  have called : (!history.manager.initialized) = false := by rw [counted.initialized]; rfl
  obtain ⟨enough, fits⟩ := lasting
  cases next with
  | append record =>
    simp only [write, LogManager.append, called, if_false_true]
    exact counted_append counted (appendBatch_single _ record) enough fits
  | appendBatch records =>
    simp only [write, LogManager.appendBatch, called, if_false_true]
    exact counted_append counted rfl enough fits
  | flush => exact counted_flush counted
  | restoreWriterState => exact counted_restore counted

theorem pairwise_invalid (count : Nat) :
    ((List.replicate count LogSequenceNumber.invalid).Pairwise fun first second => first.value < second.value) ↔
      count ≤ 1 := by
  cases count with
  | zero => simp
  | succ count =>
    cases count with
    | zero => simp
    | succ count => simp [List.replicate_succ, LogSequenceNumber.invalid]

theorem Counted.increasesInFile_iff (counted : history.Counted) : history.IncreasesInFile ↔ history.Single := by
  refine forall_congr' fun alone => ?_
  rw [(counted.inFile_alone alone).1]
  exact pairwise_invalid _

/-- For every run while the numbers last: no number is given out twice. But the frames in the file have lost
theirs, and the numbers found there increase only as long as no second record has been flushed by itself. -/
theorem numbers_in_file_increase_iff (path : String) (calls : List WriterCall)
    (lasting : Runs.AtEachStep write Lasting (fresh path) calls) :
    Runs.Always write Increases (fresh path) calls ∧
      (Runs.Always write IncreasesInFile (fresh path) calls ↔ Runs.Always write Single (fresh path) calls) := by
  have always : Runs.Always write Counted (fresh path) calls :=
    Runs.always_of_invariant (fun _ _ counted lasting => write_counted counted lasting) (counted_fresh path) lasting
  refine ⟨fun done inside => (always done inside).rising.increasing, ?_⟩
  exact forall₂_congr fun done inside => (always done inside).increasesInFile_iff

def update (payload : List UInt8) : LogRecord :=
  { LogRecord.make .pageUpdate 8 0 1 with payload := payload }

/-- A restore in between does not move the counter. -/
theorem numbers_in_file_increase_restored :
    let calls := [.append (update [1]), .restoreWriterState, .flush, .restoreWriterState, .appendBatch [update [], update []]]
    Runs.AtEachStep write Lasting (fresh "wal") calls ∧ Runs.Always write Increases (fresh "wal") calls ∧
      (Runs.after write (fresh "wal") calls).manager.writer.nextLsn = ⟨4⟩ ∧
      (Runs.Always write IncreasesInFile (fresh "wal") calls ↔ Runs.Always write Single (fresh "wal") calls) := by
  intro calls
  have lasting : Runs.AtEachStep write Lasting (fresh "wal") calls := by decide +kernel
  obtain ⟨increases, iff⟩ := numbers_in_file_increase_iff "wal" calls lasting
  exact ⟨lasting, increases, by decide +kernel, iff⟩

/-- Two records, each flushed by itself, were given the numbers 1 and 2 and have 0 and 0 in the file. -/
theorem flushed_numbers_are_lost :
    let history := Runs.after write (fresh "wal") [.append (update []), .flush, .append (update []), .flush]
    history.Alone ∧ history.batches.flatten.map (fun record => record.lsn.value) = [1, 2] ∧
      history.inFile.map LogSequenceNumber.value = [0, 0] ∧ ¬ history.IncreasesInFile := by
  decide +kernel

end History
end Quartz.Wal
