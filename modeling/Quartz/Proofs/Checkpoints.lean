import Quartz.Proofs.Decoding
import Quartz.Proofs.LogNumbers
import Quartz.Proofs.TornLog
import Quartz.Recovery.CheckpointManager

/-! The end of a log, and the search for its last checkpoint. A checkpoint that cannot be read
ends the search, with what was found before it. -/

namespace Quartz.Wal
open LogWriter LogFile

theorem Ordered.append {previous : LogSequenceNumber} {records : List LogRecord} {last : LogRecord}
    (ordered : Ordered previous records) (first : previous.Precedes last.lsn)
    (above : ∀ record ∈ records, record.lsn.value < last.lsn.value) (valid : last.Valid) (fits : last.Fits) :
    Ordered previous (records ++ [last]) := by
  induction records generalizing previous with
  | nil => exact ⟨first, valid, fits, trivial⟩
  | cons record rest ih =>
    obtain ⟨order, good, small, later⟩ := ordered
    refine ⟨order, good, small, ih later (fun _ => above record List.mem_cons_self) fun other member => ?_⟩
    exact above other (List.mem_cons_of_mem _ member)

theorem Ordered.each {previous : LogSequenceNumber} {records : List LogRecord} (ordered : Ordered previous records) :
    ∀ record ∈ records, record.Valid ∧ record.Fits := by
  induction records generalizing previous with
  | nil => simp
  | cons record rest ih =>
    obtain ⟨-, good, small, later⟩ := ordered
    exact List.forall_mem_cons.mpr ⟨⟨good, small⟩, ih later⟩

theorem Ordered.valid {previous : LogSequenceNumber} {records : List LogRecord} (ordered : Ordered previous records) :
    ∀ record ∈ records, record.Valid := fun record member => (ordered.each record member).1

theorem Ordered.fits {previous : LogSequenceNumber} {records : List LogRecord} (ordered : Ordered previous records) :
    ∀ record ∈ records, record.Fits := fun record member => (ordered.each record member).2

/-- Behind a valid number all others are higher. -/
theorem Ordered.above {previous : LogSequenceNumber} {records : List LogRecord} (ordered : Ordered previous records)
    (known : previous.isValid = true) : ∀ record ∈ records, previous.value < record.lsn.value := by
  induction records generalizing previous with
  | nil => simp
  | cons record rest ih =>
    obtain ⟨order, valid, -, later⟩ := ordered
    refine List.forall_mem_cons.mpr ⟨order known, fun other member => ?_⟩
    exact UInt64.lt_trans (order known) (ih later valid.lsn other member)

theorem Ordered.increasing {previous : LogSequenceNumber} {records : List LogRecord} (ordered : Ordered previous records) :
    records.Pairwise fun first second => first.lsn.value < second.lsn.value := by
  induction records generalizing previous with
  | nil => exact .nil
  | cons record rest ih =>
    obtain ⟨-, valid, -, later⟩ := ordered
    exact .cons (later.above valid.lsn) (ih later)

theorem Ordered.le_iff {previous : LogSequenceNumber} {before after : List LogRecord} {record other : LogRecord}
    (ordered : Ordered previous (before ++ record :: after)) (member : other ∈ before ++ record :: after) :
    other.lsn.value ≤ record.lsn.value ↔ other ∈ before ∨ other = record := by
  obtain ⟨-, behind, across⟩ := List.pairwise_append.mp ordered.increasing
  constructor
  · intro low
    rcases List.mem_append.mp member with first | later
    · exact .inl first
    · rcases List.mem_cons.mp later with same | later
      · exact .inr same
      · exact absurd low (UInt64.not_le.mpr ((List.pairwise_cons.mp behind).1 other later))
  · rintro (first | rfl)
    · exact UInt64.le_of_lt (across other first record List.mem_cons_self)
    · exact UInt64.le_refl _

theorem logBytes_append (records : List LogRecord) (last : LogRecord) :
    logBytes (records ++ [last]) = logBytes records ++ paddedFrame last := by
  simp [logBytes]

theorem logBytes_aligned (records : List LogRecord) : (logBytes records).length % 8 = 0 := by
  rw [logBytes, List.length_append, length_walHeader]
  induction records with
  | nil => rfl
  | cons record rest ih =>
    have whole := padded_eq (49 + record.payload.length)
    rw [List.flatMap_cons, List.length_append, length_paddedFrame]
    omega

namespace LogManager

/-- A manager at the end of a log of these records, with nothing buffered. -/
structure AtEnd (wal : LogManager) (records : List LogRecord) : Prop where
  initialized : wal.initialized = true
  ready : wal.file.Ready
  bytes : wal.file.file.bytes = logBytes records
  ordered : Ordered .invalid records
  appendOffset : wal.file.appendOffset = (logBytes records).length
  buffer : wal.writer.buffer = {}
  nextLsn : wal.writer.nextLsn = if wal.writer.currentLsn.isValid then wal.writer.currentLsn.next else .initial
  reached : ∀ record ∈ records, record.lsn.value ≤ wal.writer.currentLsn.value

variable {wal : LogManager} {records : List LogRecord} {record : LogRecord}

/-- The next number, unless it has wrapped, is above all that were given. -/
theorem AtEnd.above (atEnd : wal.AtEnd records) (numbered : wal.writer.nextLsn.isValid = true) :
    ∀ record ∈ records, record.lsn.value < wal.writer.nextLsn.value := by
  intro record member
  have below := atEnd.reached record member
  have positive := (atEnd.ordered.valid record member).lsn
  have next := atEnd.nextLsn
  simp only [LogSequenceNumber.isValid, bne_iff_ne, ne_eq, ← UInt64.toNat_inj, LogSequenceNumber.next,
    UInt64.lt_iff_toNat_lt, UInt64.le_iff_toNat_le] at *
  split at next
  · have wraps := wal.writer.currentLsn.value.toNat_lt
    have sum : wal.writer.nextLsn.value.toNat = (wal.writer.currentLsn.value.toNat + 1) % 2 ^ 64 := by rw [next]; rfl
    have zero : (0 : UInt64).toNat = 0 := rfl
    omega
  · have zero : (0 : UInt64).toNat = 0 := rfl
    omega

/-- A record that is accepted and flushed stands at the end of the log, under the next number. -/
theorem AtEnd.append (atEnd : wal.AtEnd records) (accepted : (wal.writer.appendRecord record).1.ok = true) :
    ∃ after, (wal.append record).2.flush = (Status.success, after) ∧
      after.AtEnd (records ++ [{ record with lsn := wal.writer.nextLsn }]) ∧
      after.writer.currentLsn = wal.writer.nextLsn := by
  have called : (!wal.initialized) = false := by rw [atEnd.initialized]; rfl
  obtain ⟨valid, room, changed⟩ := appendRecord_ok accepted
  rw [atEnd.buffer] at room
  have fits : ({ record with lsn := wal.writer.nextLsn } : LogRecord).Fits := by
    simp only [LogRecord.Fits, List.length_nil] at room ⊢
    omega
  obtain ⟨file, flushed, ready, offset, bytes⟩ := flush_ready (wal.writer.appendRecord record).2 atEnd.ready
    (by rw [atEnd.appendOffset, atEnd.bytes]) (by rw [atEnd.appendOffset]; exact logBytes_aligned records)
  have buffered : (wal.writer.appendRecord record).2.buffer.bytes = frame { record with lsn := wal.writer.nextLsn } := by
    rw [changed, atEnd.buffer]
    rfl
  rw [buffered, length_frame, atEnd.appendOffset, atEnd.bytes, Splice.write_at_end] at bytes
  rw [buffered, length_frame] at offset
  have writer : (wal.writer.appendRecord record).2.flush wal.file = (Status.success, { wal.writer with
      buffer := {}, nextLsn := wal.writer.nextLsn.next, currentLsn := wal.writer.nextLsn
      lastFlushedLsn := wal.writer.nextLsn }, file) := by
    rw [flushed, changed, atEnd.buffer]
  refine ⟨{ wal with file := file, writer := { wal.writer with
      buffer := {}, nextLsn := wal.writer.nextLsn.next, currentLsn := wal.writer.nextLsn
      lastFlushedLsn := wal.writer.nextLsn } }, ?_, ?_, rfl⟩
  · simp only [LogManager.append, LogManager.flush, called, if_false_true, writer]
  · refine ⟨atEnd.initialized, ready, ?_, ?_, ?_, rfl, (if_pos valid.lsn).symm, ?_⟩
    · rw [bytes, logBytes_append]
      rfl
    · exact atEnd.ordered.append (fun known => absurd known (by decide)) (atEnd.above valid.lsn) valid fits
    · rw [logBytes_append, List.length_append, length_paddedFrame, ← atEnd.appendOffset]
      exact offset
    · intro other member
      rcases List.mem_append.mp member with before | same
      · exact UInt64.le_of_lt (atEnd.above valid.lsn other before)
      · rw [List.mem_singleton.mp same]
        exact UInt64.le_refl _

/-- An open log of these records. The padding of the last may be cut off. -/
structure Holds (wal : LogManager) (records : List LogRecord) : Prop where
  initialized : wal.initialized = true
  ready : wal.file.Ready
  laid : ∃ rest, wal.file.file.bytes = walHeader ++ rest ∧ Laid records rest
  ordered : Ordered .invalid records

theorem AtEnd.holds (atEnd : wal.AtEnd records) : wal.Holds records :=
  ⟨atEnd.initialized, atEnd.ready, ⟨_, atEnd.bytes, laid_frames records⟩, atEnd.ordered⟩

namespace Holds

variable {after : LogManager} (holds : wal.Holds records)
include holds

theorem reread (same : wal.Rereads after) : after.Holds records := by
  obtain ⟨rest, bytes, laid⟩ := holds.laid
  exact ⟨same.initialized.trans holds.initialized, same.ready, ⟨rest, same.bytes.trans bytes, laid⟩, holds.ordered⟩

theorem rewound : wal.rewound.Holds records := ⟨holds.initialized, holds.ready, holds.laid, holds.ordered⟩

theorem behind_header : Laid records (wal.file.file.bytes.drop WalFileHeader.kSize) := by
  obtain ⟨rest, bytes, laid⟩ := holds.laid
  rw [bytes, show WalFileHeader.kSize = walHeader.length from rfl, List.drop_left]
  exact laid

/-- After a rewind the reader faces the whole log. -/
theorem facing : wal.rewound.Facing records :=
  ⟨holds.initialized, holds.ready, rfl, holds.ordered, holds.behind_header⟩

theorem validate : wal.validate.1 = Status.success := by
  obtain ⟨rest, bytes, laid⟩ := holds.laid
  exact validate_laid holds.initialized holds.ready bytes laid holds.ordered

theorem restoreWriterState : ∃ after, wal.restoreWriterState = (Status.success, after) ∧ after.Holds records := by
  obtain ⟨rest, bytes, laid⟩ := holds.laid
  have enough : records.length ≤ wal.file.fileSize := by
    have frames := laid.length_le
    rw [holds.ready.fileSize, bytes, List.length_append]
    omega
  obtain ⟨file, scanned, ready, same, -⟩ := lastLsn_laid holds.behind_header holds.ready holds.ordered.fits enough .invalid
  have laid' : ∃ rest, file.file.bytes = walHeader ++ rest ∧ Laid records rest := ⟨rest, same.trans bytes, laid⟩
  simp only [LogManager.restoreWriterState, holds.initialized, if_not_true, restoreFromFile, scanned]
  split <;> exact ⟨_, rfl, rfl, ready, laid', holds.ordered⟩

end Holds

end LogManager
end Quartz.Wal

namespace Quartz.Recovery
open Storage Serialization Bytes Btree Wal Fallible

namespace CheckpointPayload

variable {payload : CheckpointPayload}

theorem length_serialize (some : 0 < payload.btreeSnapshot.length % 2 ^ 32) :
    payload.serialize.length = 32 + payload.btreeSnapshot.length := by
  rw [serialize, if_pos some]
  simp only [List.length_append, encode_length]

theorem codes_deserialize (small : payload.btreeSnapshot.length < 2 ^ 32) (valid : payload.validate.ok = true) :
    Codes deserialize payload.serialize payload := by
  have snapshot : (if payload.btreeSnapshot.length % 2 ^ 32 > 0 then payload.btreeSnapshot else []) =
      payload.btreeSnapshot := by
    rw [Nat.mod_eq_of_lt small]
    split
    · rfl
    next empty => exact (List.eq_nil_of_length_eq_zero (by omega)).symm
  rw [serialize, snapshot]
  simp only [List.append_assoc]
  refine codes_bind (codes_read (show payload.magic.toNat < 256 ^ 4 from payload.magic.toNat_lt)) ?_
  refine codes_bind (codes_read (show payload.version.toNat < 256 ^ 4 from payload.version.toNat_lt)) ?_
  refine codes_bind (codes_read (show payload.lsn.value.toNat < 256 ^ 8 from payload.lsn.value.toNat_lt)) ?_
  refine codes_bind (codes_read (show payload.treeSize.toNat < 256 ^ 8 from payload.treeSize.toNat_lt)) ?_
  refine codes_bind (codes_read (show payload.treeHeight.toNat < 256 ^ 4 from payload.treeHeight.toNat_lt)) ?_
  refine codes_bind (codes_read small) (codes_rest ?_)
  simp only [UInt32.ofNat_toNat, UInt64.ofNat_toNat, valid, if_true]
  exact decodes_pure payload

theorem candid_deserialize : Candid deserialize := by
  refine candid_bind (candid_read 4) fun _ => candid_bind (candid_read 4) fun _ => candid_bind (candid_read 8) fun _ => ?_
  refine candid_bind (candid_read 8) fun _ => candid_bind (candid_read 4) fun _ => candid_bind (candid_read 4) fun _ => ?_
  refine candid_bind (candid_readBytes _) fun _ => ?_
  dsimp only
  split
  · exact candid_pure _
  next refused => exact candid_throw (by simpa using refused)

end CheckpointPayload

/-- A checkpoint whose payload can be read, or no checkpoint. -/
def Readable (record : LogRecord) : Prop :=
  record.type = .checkpointMarker → (CheckpointPayload.deserialize.run { view := record.payload }).isOk = true

instance (record : LogRecord) : Decidable (Readable record) := inferInstanceAs (Decidable (_ → _))

namespace CheckpointManager

variable {record : LogRecord} {search : CheckpointSearch}

theorem examine_marker (type : record.type = .checkpointMarker) {payload : CheckpointPayload} {reader : BinaryReader}
    (read : CheckpointPayload.deserialize.run { view := record.payload } = .ok (payload, reader)) :
    (examine record).run search = (.ok (), ⟨payload, record.lsn, true⟩) := by
  rw [examine, if_neg (fun other => other type), read]
  rfl

theorem examine_ok : ((examine record).run search).1 = .ok () ↔ Readable record := by
  by_cases type : record.type = .checkpointMarker
  · rw [examine, if_neg (fun other => other type), Readable]
    cases CheckpointPayload.deserialize.run { view := record.payload } with
    | error status | ok result => simp [type, Except.isOk, Except.toBool]
  · rw [examine, if_pos type]
    exact iff_of_true rfl fun marker => absurd marker type

theorem examine_all (records : List LogRecord) :
    ((forM records examine).run search).1 = .ok () ↔ ∀ record ∈ records, Readable record := by
  induction records generalizing search with
  | nil => exact iff_of_true rfl (by simp)
  | cons record rest ih =>
    rw [List.forM_cons, List.forall_mem_cons, ← @examine_ok record search]
    rcases ended : (examine record).run search with ⟨failure | _, after⟩
    · rw [run_bind_error ended]
      simp
    · rw [run_bind_ok ended, ih]
      simp

theorem examine_error {status : Status} {after : CheckpointSearch}
    (failed : (examine record).run search = (.error status, after)) : status.ok = false := by
  rw [examine] at failed
  split at failed
  · cases failed
  split at failed
  · cases failed
  next refused =>
    obtain rfl := Except.error.inj (congrArg Prod.fst failed)
    exact CheckpointPayload.candid_deserialize _ _ refused

theorem examine_all_error {records : List LogRecord} {status : Status} {after : CheckpointSearch}
    (failed : (forM records examine).run search = (.error status, after)) : status.ok = false := by
  induction records generalizing search with
  | nil => cases failed
  | cons record rest ih =>
    rw [List.forM_cons] at failed
    rcases ended : (examine record).run search with ⟨other | _, middle⟩
    · rw [run_bind_error ended] at failed
      obtain rfl := Except.error.inj (congrArg Prod.fst failed)
      exact examine_error ended
    · rw [run_bind_ok ended] at failed
      exact ih failed

theorem examine_all_last {records : List LogRecord} (readable : ∀ record ∈ records, Readable record)
    (type : record.type = .checkpointMarker) {payload : CheckpointPayload} {reader : BinaryReader}
    (read : CheckpointPayload.deserialize.run { view := record.payload } = .ok (payload, reader)) :
    (forM (records ++ [record]) examine).run search = (.ok (), ⟨payload, record.lsn, true⟩) := by
  have passed := (@examine_all search records).mpr readable
  rcases ended : (forM records examine).run search with ⟨failure | _, after⟩
  · rw [ended] at passed
    cases passed
  · rw [List.forM_append, run_bind_ok ended, List.forM_cons, run_bind_ok (examine_marker type read)]
    rfl

def searchRecords (records : List LogRecord) : Status × CheckpointSearch :=
  match (forM records examine).run {} with
  | (.error status, search) => (status, search)
  | (.ok _, search) =>
    if !search.found then (Status.invalidArgument "CheckpointManager: no checkpoint found", search)
    else (Status.success, search)

theorem findLastCheckpoint_holds {wal : LogManager} {records : List LogRecord} (holds : wal.Holds records) :
    ∃ after, findLastCheckpoint wal = ((searchRecords records).1, (searchRecords records).2, after) ∧ after.Holds records := by
  obtain ⟨after, looped, same⟩ := holds.facing.forRecords_rewound examine {}
  have rewinds : wal.rewindReader = (Status.success, wal.rewound) := LogManager.rewindReader_eq holds.initialized
  refine ⟨after, ?_, holds.reread same⟩
  simp only [findLastCheckpoint, searchRecords, rewinds, Status.ok_success, if_not_true, looped]
  rcases (forM records examine).run {} with ⟨failure | _, search⟩
  · rfl
  · dsimp only
    split <;> rfl

theorem readable_of_found {records : List LogRecord} (found : (searchRecords records).1 = Status.success) :
    ∀ record ∈ records, Readable record := by
  rw [← @examine_all {} records]
  rw [searchRecords] at found
  rcases ended : (forM records examine).run {} with ⟨status | _, other⟩
  · have bad := examine_all_error ended
    rw [ended] at found
    obtain rfl : status = Status.success := found
    cases bad
  · rfl

end CheckpointManager
end Quartz.Recovery
