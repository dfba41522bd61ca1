import Quartz.Lib.Runs
import Quartz.Proofs.LogAppending

/-! Batches of records in the log. The writer pads each flushed batch as a whole and the
reader steps by padded records, so a batch is read back exactly when every record of it
but the last ends on the boundary. -/

namespace Quartz.Wal
open Storage Serialization Bytes LogWriter LogFile

/-- What one flush writes of records that are framed like this. -/
def blockBytes (framed : LogRecord → List UInt8) (batch : List LogRecord) : List UInt8 :=
  batch.flatMap framed ++
    List.replicate (padded (batch.flatMap framed).length - (batch.flatMap framed).length) 0

/-- Every record but the last ends on the boundary. -/
def Aligned (batch : List LogRecord) : Prop :=
  ∀ record ∈ batch.dropLast, (49 + record.payload.length) % kLogRecordAlignment = 0

@[simp] theorem blockBytes_nil : blockBytes frame [] = [] := rfl

theorem blockBytes_singleton (record : LogRecord) : blockBytes frame [record] = paddedFrame record := by
  simp [blockBytes, paddedFrame]

theorem blockBytes_cons {record : LogRecord} (whole : (49 + record.payload.length) % 8 = 0) (rest : List LogRecord) :
    blockBytes frame (record :: rest) = paddedFrame record ++ blockBytes frame rest := by
  have exact : padded (49 + record.payload.length) = 49 + record.payload.length := by rw [padded_eq]; omega
  rw [blockBytes, List.flatMap_cons, List.length_append, length_frame, padded_eq, blockBytes, paddedFrame, exact,
    padded_eq, Nat.sub_self, List.replicate_zero, List.append_nil, List.append_assoc]
  congr 3
  omega

theorem blockBytes_aligned {batch : List LogRecord} (aligned : Aligned batch) :
    blockBytes frame batch = batch.flatMap paddedFrame := by
  induction batch with
  | nil => rfl
  | cons record rest ih =>
    cases rest with
    | nil => simp [blockBytes_singleton]
    | cons next rest =>
      rw [Aligned, List.dropLast_cons_cons, List.forall_mem_cons] at aligned
      rw [blockBytes_cons aligned.1, ih aligned.2]
      rfl

/-- The reserved fields as every record is made; only decoding sets them. -/
def LogRecord.Blank (record : LogRecord) : Prop := record.reserved0 = 0 ∧ record.reserved1 = 0

theorem serialize_blank {record : LogRecord} (blank : record.Blank) {index : Nat} (low : 37 ≤ index)
    (high : index < 45) : record.serialize[index]? = some 0 := by
  have zeros : encode 4 0 = List.replicate 4 0 := rfl
  obtain ⟨first, second⟩ := blank
  rw [LogRecord.serialize, first, second, UInt32.toNat_zero, zeros, List.append_assoc, List.append_assoc,
    List.getElem?_append_right (by simpa using low), ← List.append_assoc, List.replicate_append_replicate,
    List.getElem?_append_left (by simp; omega), List.getElem?_replicate, if_pos (by simp; omega)]

theorem serialize_type (record : LogRecord) : record.serialize[0]? = some record.type.byte := by
  simp [LogRecord.serialize, encode]

theorem not_periodic {record : LogRecord} (valid : record.Valid) (blank : record.Blank) {shift : Nat}
    (positive : 0 < shift) (small : shift < 8)
    (periodic : ∀ index, index + shift < 45 → record.serialize[index + shift]? = record.serialize[index]?) : False := by
  have repeated : ∀ count, count * shift < 45 → record.serialize[count * shift]? = record.serialize[0]? := by
    intro count inside
    induction count with
    | zero => rw [Nat.zero_mul]
    | succ count ih =>
      rw [Nat.succ_mul] at inside ⊢
      rw [periodic _ inside, ih (by omega)]
  have last := Nat.div_add_mod 44 shift
  have remainder := Nat.mod_lt 44 positive
  have reached : 44 / shift * shift = 44 - 44 % shift := by rw [Nat.mul_comm]; omega
  have same := repeated (44 / shift) (by omega)
  rw [serialize_blank blank (by omega) (by omega), serialize_type, Option.some.injEq] at same
  have type := valid.type
  simp [isValidRecordType, ← same, LogRecordType.invalid] at type

theorem misread {log : LogFile} {offset shift size : Nat} {record : LogRecord} {rest : List UInt8}
    (ready : log.Ready) (valid : record.Valid) (blank : record.Blank)
    (positive : 0 < shift) (small : shift < 8)
    (placed : log.file.bytes.drop offset = frame record ++ rest)
    (read : (log.readRecord (offset + shift)).1 = .ok (record, size)) : False := by
  have length := congrArg List.length placed
  simp only [List.length_drop, List.length_append, length_frame] at length
  have sized : offset + shift + 4 ≤ log.file.bytes.length := by omega
  rcases Nat.eq_zero_or_pos (field log.file.bytes (offset + shift) 4) with zero | nonzero
  · obtain ⟨position, found⟩ := readRecord_zero ready sized zero
    simp [found] at read
  obtain ⟨position, found⟩ := readRecord_sized ready sized rfl nonzero
  rw [found] at read
  split at read
  case isFalse => cases read
  next enough =>
  obtain ⟨parsed, -⟩ := Prod.mk.inj (Except.ok.inj read)
  have wire := LogRecord.serialize_parse (window log.file.bytes (offset + shift + 4)
    (field log.file.bytes (offset + shift) 4)) (by rw [length_window]; exact enough)
  rw [parsed] at wire
  refine not_periodic valid blank positive small fun index inside => ?_
  -- the byte in front of the record and the byte of its copy are one byte of the file
  have here : log.file.bytes[offset + 4 + (index + shift)]? = record.serialize[index + shift]? := by
    rw [← List.getElem?_drop, ← List.drop_drop, placed, drop_frame, List.getElem?_append_left]
    rw [LogRecord.length_serialize]
    omega
  rw [← here]
  conv_rhs => rw [wire]
  rw [List.getElem?_take_of_lt (by omega), window, List.getElem?_append_left, List.getElem?_take_of_lt (by omega), List.getElem?_drop]
  · congr 1
    omega
  · simp only [List.length_take, List.length_drop]
    omega

/-- A reader that stands before these bytes and will return these records. -/
structure Standing (manager : LogManager) (bytes : List UInt8) (records : List LogRecord) : Prop where
  initialized : manager.initialized = true
  ready : manager.file.Ready
  going : manager.reader.endOfLog = false
  ordered : Ordered manager.reader.lastLsn records
  placed : manager.file.file.bytes.drop manager.reader.offset = bytes
  returns : ∃ count, (manager.readAll count).1 = records

private theorem Standing.head {manager : LogManager} {bytes : List UInt8} {record : LogRecord}
    {records : List LogRecord} (standing : Standing manager bytes (record :: records)) :
    ∃ size, (manager.file.readRecord manager.reader.offset).1 = .ok (record, size) := by
  obtain ⟨count, read⟩ := standing.returns
  cases count with
  | zero => cases read
  | succ count =>
    rw [LogManager.readAll, manager.readNext_initialized standing.initialized] at read
    rcases called : manager.reader.readNext manager.file with ⟨result, after, moved⟩
    rw [called] at read
    cases result with
    | error status => cases read
    | ok found =>
      obtain ⟨rfl, -⟩ := List.cons.inj read
      obtain ⟨-, -, -, -, size, found, -⟩ := LogReader.readNext_ok called
      exact ⟨size, by rw [found]⟩

private theorem Standing.next {manager : LogManager} {rest : List UInt8} {record : LogRecord}
    {records : List LogRecord} (standing : Standing manager (frame record ++ rest) (record :: records)) :
    ∃ after, Standing after (manager.file.file.bytes.drop (manager.reader.offset + padded (49 + record.payload.length))) records ∧
      after.file.file.bytes = manager.file.file.bytes ∧
      after.reader.offset = manager.reader.offset + padded (49 + record.payload.length) := by
  obtain ⟨order, valid, fits, later⟩ := standing.ordered
  obtain ⟨position, found⟩ :=
    LogReader.readNext_whole standing.ready standing.going fits valid order standing.placed
  obtain ⟨count, read⟩ := standing.returns
  cases count with
  | zero => cases read
  | succ count =>
    rw [LogManager.readAll, manager.readNext_initialized standing.initialized, found] at read
    refine ⟨{ manager with
      file := manager.file.movedTo position false
      reader := { manager.reader with
        lastLsn := record.lsn, offset := manager.reader.offset + padded (49 + record.payload.length) } },
      ⟨standing.initialized, standing.ready.movedTo position, standing.going, later, rfl, count, ?_⟩, rfl, rfl⟩
    exact (List.cons.inj read).2

theorem Standing.batch {manager : LogManager} {batch : List LogRecord} {rest : List UInt8}
    {records : List LogRecord} (standing : Standing manager (blockBytes frame batch ++ rest) (batch ++ records))
    (blank : ∀ record ∈ batch, record.Blank) : Aligned batch ∧ ∃ after, Standing after rest records := by
  induction batch generalizing manager with
  | nil => exact ⟨by simp [Aligned], manager, standing⟩
  | cons record later ih =>
    have framed : blockBytes frame (record :: later) ++ rest = frame record ++ (later.flatMap frame ++ (List.replicate
        (padded ((record :: later).flatMap frame).length - ((record :: later).flatMap frame).length) 0 ++ rest)) := by
      simp only [blockBytes, List.flatMap_cons, List.append_assoc]
    have front : Standing manager (frame record ++ _) (record :: (later ++ records)) := framed ▸ standing
    obtain ⟨after, moved, bytes, offset⟩ := front.next
    cases later with
    | nil =>
      refine ⟨by simp [Aligned], after, ?_⟩
      rw [← List.drop_drop, standing.placed, blockBytes_singleton, ← length_paddedFrame, List.drop_left] at moved
      exact moved
    | cons second later =>
      by_cases whole : (49 + record.payload.length) % 8 = 0
      · rw [← List.drop_drop, standing.placed, blockBytes_cons whole, ← length_paddedFrame, List.append_assoc, List.drop_left] at moved
        obtain ⟨aligned, rest⟩ := ih moved (fun other member => blank other (List.mem_cons_of_mem _ member))
        refine ⟨?_, rest⟩
        rw [Aligned, List.dropLast_cons_cons, List.forall_mem_cons]
        exact ⟨whole, aligned⟩
      · -- the reader has stepped into the second record
        obtain ⟨size, read⟩ := moved.head
        obtain ⟨-, valid, -⟩ := moved.ordered
        have padding := padded_eq (49 + record.payload.length)
        have placed : after.file.file.bytes.drop (manager.reader.offset + (49 + record.payload.length)) =
            frame second ++ (later.flatMap frame ++ (List.replicate (padded ((record :: second :: later).flatMap
              frame).length - ((record :: second :: later).flatMap frame).length) 0 ++ rest)) := by
          rw [bytes, ← List.drop_drop, standing.placed, framed, List.drop_left' (length_frame record),
            List.flatMap_cons, List.append_assoc]
        rw [offset, show manager.reader.offset + padded (49 + record.payload.length) =
          manager.reader.offset + (49 + record.payload.length) +
            (padded (49 + record.payload.length) - (49 + record.payload.length)) by omega] at read
        exact (misread moved.ready valid (blank second (by simp)) (by omega) (by omega) placed read).elim

theorem Standing.aligned {manager : LogManager} {batches : List (List LogRecord)}
    (standing : Standing manager (batches.flatMap (blockBytes frame)) batches.flatten)
    (blank : ∀ batch ∈ batches, ∀ record ∈ batch, record.Blank) : ∀ batch ∈ batches, Aligned batch := by
  induction batches generalizing manager with
  | nil => simp
  | cons batch batches ih =>
    obtain ⟨aligned, after, rest⟩ := Standing.batch standing (blank batch List.mem_cons_self)
    have later := ih rest (fun other member => blank other (List.mem_cons_of_mem _ member))
    exact List.forall_mem_cons.mpr ⟨aligned, later⟩

namespace LogRecord

/-- The record under the sequence number it is written with. -/
def numbered (record : LogRecord) (number : Nat) : LogRecord := { record with lsn := ⟨UInt64.ofNat number⟩ }

def numberedFrom : Nat → List LogRecord → List LogRecord
  | _, [] => []
  | number, record :: rest => record.numbered number :: numberedFrom (number + 1) rest

@[simp] theorem length_numberedFrom (number : Nat) (records : List LogRecord) :
    (numberedFrom number records).length = records.length := by
  induction records generalizing number with
  | nil => rfl
  | cons record rest ih => simp [numberedFrom, ih]

end LogRecord

/-- Records with consecutive sequence numbers that may stand in a log. -/
def Numbered : Nat → List LogRecord → Prop
  | _, [] => True
  | number, record :: rest =>
    record.lsn.value.toNat = number ∧ record.Valid ∧ record.Fits ∧ Numbered (number + 1) rest

theorem numbered_append {number : Nat} {first second : List LogRecord} :
    Numbered number (first ++ second) ↔ Numbered number first ∧ Numbered (number + first.length) second := by
  induction first generalizing number with
  | nil => simp [Numbered]
  | cons record rest ih =>
    simp only [List.cons_append, Numbered, ih, List.length_cons, and_assoc]
    rw [show number + 1 + rest.length = number + (rest.length + 1) by omega]

theorem Numbered.ordered {number : Nat} {records : List LogRecord} (numbered : Numbered number records)
    {previous : LogSequenceNumber} (before : previous.value.toNat < number) : Ordered previous records := by
  induction records generalizing number previous with
  | nil => trivial
  | cons record rest ih =>
    obtain ⟨same, valid, fits, later⟩ := numbered
    refine ⟨fun _ => ?_, valid, fits, ih later (by omega)⟩
    rw [UInt64.lt_iff_toNat_lt]
    omega

theorem Numbered.range {number : Nat} {records : List LogRecord} (numbered : Numbered number records) :
    records.map (fun record => record.lsn.value.toNat) = List.range' number records.length := by
  induction records generalizing number with
  | nil => rfl
  | cons record rest ih =>
    obtain ⟨same, -, -, later⟩ := numbered
    rw [List.map_cons, List.length_cons, List.range'_succ, same, ih later]

/-- An accepted batch goes behind the buffered records under the next numbers. -/
theorem appendBatch_ok {writer : LogWriter} {records : List LogRecord} {number : Nat}
    (next : writer.nextLsn = ⟨UInt64.ofNat number⟩) (positive : 0 < number) (small : number ≤ 2 ^ 64)
    (capacity : writer.buffer.capacity = 64 * 1024) (accepted : (writer.appendBatch records).1.ok = true) :
    Numbered number (LogRecord.numberedFrom number records) ∧ number + records.length ≤ 2 ^ 64 ∧
      (writer.appendBatch records).2.nextLsn = ⟨UInt64.ofNat (number + records.length)⟩ ∧
      (writer.appendBatch records).2.buffer = { writer.buffer with
        bytes := writer.buffer.bytes ++ (LogRecord.numberedFrom number records).flatMap frame } := by
  induction records generalizing writer number with
  | nil => exact ⟨trivial, small, next, by simp [LogWriter.appendBatch, LogRecord.numberedFrom]⟩
  | cons record rest ih =>
    rw [LogWriter.appendBatch] at accepted ⊢
    cases first : (writer.appendRecord record).1.ok with
    | false => simp [first] at accepted
    | true =>
      obtain ⟨valid, room, after⟩ := appendRecord_ok first
      simp only [first, if_not_true] at accepted ⊢
      have nonzero : UInt64.ofNat number ≠ 0 := by simpa [LogSequenceNumber.isValid, next] using valid.lsn
      have inside : number < 2 ^ 64 := by
        rcases Nat.lt_or_eq_of_le small with inside | same
        · exact inside
        · exact absurd (by rw [same]; rfl) nonzero
      have value : (UInt64.ofNat number).toNat = number := UInt64.toNat_ofNat_of_lt' inside
      have succeeds : (writer.appendRecord record).2.nextLsn = ⟨UInt64.ofNat (number + 1)⟩ := by
        simp [after, next, LogSequenceNumber.next, UInt64.ofNat_add]
      obtain ⟨numbered, bound, lsn, buffer⟩ :=
        ih succeeds (by omega) (by omega) (by rw [after]; exact capacity) accepted
      rw [next] at valid
      refine ⟨⟨value, valid, ?_, numbered⟩, by simp only [List.length_cons]; omega, ?_, ?_⟩
      · simp only [LogRecord.Fits, LogRecord.numbered]
        omega
      · rw [lsn, List.length_cons, show number + 1 + rest.length = number + (rest.length + 1) by omega]
      · rw [buffer, after]
        simp only [LogRecord.numberedFrom, List.flatMap_cons, List.append_assoc, LogRecord.numbered, next]

inductive LogCall where
  | append (record : LogRecord)
  | appendBatch (records : List LogRecord)
  | flush
  deriving DecidableEq, Repr

/-- A log manager and what was asked of it: the batches flushed so far and the records
appended since. -/
structure History where
  manager : LogManager
  batches : List (List LogRecord) := []
  pending : List LogRecord := []
  deriving DecidableEq, Repr

namespace History

def count (history : History) : Nat := history.batches.flatten.length + history.pending.length

def status (history : History) : LogCall → Status
  | .append record => (history.manager.append record).1
  | .appendBatch records => (history.manager.appendBatch records).1
  | .flush => history.manager.flush.1

def call (history : History) : LogCall → History
  | .append record =>
    { history with
      manager := (history.manager.append record).2
      pending := history.pending ++ LogRecord.numberedFrom (history.count + 1) [record] }
  | .appendBatch records =>
    { history with
      manager := (history.manager.appendBatch records).2
      pending := history.pending ++ LogRecord.numberedFrom (history.count + 1) records }
  | .flush => { manager := history.manager.flush.2, batches := history.batches ++ [history.pending], pending := [] }

/-- Every append is accepted: the record is valid and the buffer has room for it. -/
def Accepted (history : History) (next : LogCall) : Prop := (history.status next).ok = true

instance (history : History) (next : LogCall) : Decidable (history.Accepted next) :=
  inferInstanceAs (Decidable (_ = true))

/-- A manager initialised on a path where there is no file. -/
def fresh (path : String) : History where
  manager := (LogManager.initializeLog {} path true).2

/-- From the start the reader returns the flushed records and then the end of the log. -/
structure ReadsBack (history : History) : Prop where
  records : ∃ after, history.manager.rewindReader.2.readAll (history.batches.flatten.length + 1) =
    (history.batches.flatten, some LogManager.endOfLog, after)
  numbers : history.batches.flatten.map (fun record => record.lsn.value.toNat) =
    List.range' 1 history.batches.flatten.length
  validates : history.manager.validate.1.ok = true

/-- The file holds the flushed batches and the buffer holds the records since, framed like this. -/
structure Stored (framed : LogRecord → List UInt8) (history : History) : Prop where
  initialized : history.manager.initialized = true
  ready : history.manager.file.Ready
  bytes : history.manager.file.file.bytes = walHeader ++ history.batches.flatMap (blockBytes framed)
  offset : history.manager.file.appendOffset = history.manager.file.file.bytes.length
  buffer : history.manager.writer.buffer.bytes = history.pending.flatMap framed
  capacity : history.manager.writer.buffer.capacity = 64 * 1024

structure Sound (history : History) : Prop extends Stored frame history where
  next : history.manager.writer.nextLsn = ⟨UInt64.ofNat (history.count + 1)⟩
  small : history.count < 2 ^ 64
  numbered : Numbered 1 (history.batches.flatten ++ history.pending)

theorem stored_fresh (path : String) (framed : LogRecord → List UInt8) :
    (fresh path).Stored framed ∧ (fresh path).manager.writer = {} := by
  obtain ⟨after, called, initialized, ready, bytes, offset, writer, -⟩ :=
    LogManager.initialize_create (show ({} : LogManager).initialized = false from rfl) rfl path
  have manager : (fresh path).manager = after := by simp [fresh, called]
  have empty : ({} : LogManager).file.file.bytes = [] := rfl
  rw [empty, List.drop_nil, List.append_nil] at bytes
  refine ⟨⟨?_, ?_, ?_, ?_, ?_, ?_⟩, ?_⟩ <;> rw [manager]
  · exact initialized
  · exact ready
  · exact bytes.trans (List.append_nil _).symm
  · rw [bytes, offset, length_walHeader]
  · exact congrArg (fun writer => writer.buffer.bytes) writer
  · exact congrArg (fun writer => writer.buffer.capacity) writer
  · exact writer

theorem sound_fresh (path : String) : (fresh path).Sound := by
  obtain ⟨stored, writer⟩ := stored_fresh path frame
  exact ⟨stored, congrArg LogWriter.nextLsn writer, Nat.two_pow_pos 64, trivial⟩

theorem length_blocks (framed : LogRecord → List UInt8) (batches : List (List LogRecord)) :
    (batches.flatMap (blockBytes framed)).length % 8 = 0 := by
  induction batches with
  | nil => rfl
  | cons batch rest ih =>
    have padding := padded_eq (batch.flatMap framed).length
    have length : (blockBytes framed batch).length = padded (batch.flatMap framed).length := by
      rw [blockBytes, List.length_append, List.length_replicate]
      omega
    rw [List.flatMap_cons, List.length_append, length]
    omega

/-- A flush moves the pending records to the file and leaves the counter alone. -/
theorem Stored.flush {framed : LogRecord → List UInt8} {history : History} (stored : history.Stored framed) :
    history.manager.flush.1.ok = true ∧ (history.call .flush).Stored framed ∧
      (history.call .flush).manager.writer.nextLsn = history.manager.writer.nextLsn := by
  have called : (!history.manager.initialized) = false := by rw [stored.initialized]; rfl
  have offset := stored.offset
  have aligned : history.manager.file.appendOffset % 8 = 0 := by
    have blocks := length_blocks framed history.batches
    rw [offset, stored.bytes, List.length_append, length_walHeader]
    omega
  obtain ⟨after, flushed, ready, moved, bytes⟩ := flush_ready history.manager.writer stored.ready
    (Nat.le_of_eq offset) aligned
  rw [offset, Splice.write_at_end, stored.buffer] at bytes
  have manager : (history.call .flush).manager = { history.manager with
      file := after
      writer := { history.manager.writer with
        buffer := { history.manager.writer.buffer with bytes := [] }
        lastFlushedLsn := history.manager.writer.currentLsn } } := by
    simp only [call, LogManager.flush, called, if_false_true, flushed]
  refine ⟨?_, ⟨?_, ?_, ?_, ?_, ?_, ?_⟩, ?_⟩
  · simp [LogManager.flush, called, flushed]
  · rw [manager]
    exact stored.initialized
  · rw [manager]
    exact ready
  · rw [manager]
    simp only [bytes, stored.bytes, call, List.flatMap_append, List.flatMap_cons, List.flatMap_nil, List.append_nil,
      blockBytes, List.append_assoc]
  · have padding := padded_ge (history.pending.flatMap framed).length
    rw [manager]
    simp only [moved, bytes, offset, stored.buffer, List.length_append, List.length_replicate]
    omega
  · rw [manager]
    rfl
  · rw [manager]
    exact stored.capacity
  · rw [manager]

theorem sound_append {history : History} (sound : history.Sound) {records : List LogRecord} {writer : LogWriter}
    (called : (history.manager.writer.appendBatch records).2 = writer)
    (accepted : (history.manager.writer.appendBatch records).1.ok = true) :
    Sound { history with
      manager := { history.manager with writer := writer }
      pending := history.pending ++ LogRecord.numberedFrom (history.count + 1) records } := by
  subst called
  obtain ⟨numbered, bound, lsn, buffer⟩ :=
    appendBatch_ok sound.next (by omega) sound.small sound.capacity accepted
  have count : History.count { history with
      manager := { history.manager with writer := (history.manager.writer.appendBatch records).2 }
      pending := history.pending ++ LogRecord.numberedFrom (history.count + 1) records } =
      history.count + records.length := by
    simp only [History.count, List.length_append, LogRecord.length_numberedFrom]
    omega
  refine ⟨⟨sound.initialized, sound.ready, sound.bytes, sound.offset, ?_, ?_⟩, ?_, ?_, ?_⟩
  · simp only [buffer, sound.buffer, List.flatMap_append]
  · simp only [buffer, sound.capacity]
  · rw [count]
    simp only [lsn]
    rw [show history.count + 1 + records.length = history.count + records.length + 1 by omega]
  · rw [count]
    omega
  · rw [← List.append_assoc, numbered_append]
    refine ⟨sound.numbered, ?_⟩
    rw [List.length_append, show 1 + (history.batches.flatten.length + history.pending.length) = history.count + 1 by
      simp only [History.count]; omega]
    exact numbered

theorem call_sound {history : History} (sound : history.Sound) {next : LogCall} (accepted : history.Accepted next) :
    (history.call next).Sound := by
  have called : (!history.manager.initialized) = false := by rw [sound.initialized]; rfl
  cases next with
  | append record =>
    simp only [Accepted, status, LogManager.append, called, if_false_true] at accepted
    have single : history.manager.writer.appendBatch [record] =
        (Status.success, (history.manager.writer.appendRecord record).2) := by
      simp [LogWriter.appendBatch, accepted]
    simp only [call, LogManager.append, called, if_false_true]
    exact sound_append sound (by rw [single]) (by rw [single]; rfl)
  | appendBatch records =>
    simp only [Accepted, status, LogManager.appendBatch, called, if_false_true] at accepted
    simp only [call, LogManager.appendBatch, called, if_false_true]
    exact sound_append sound rfl accepted
  | flush =>
    obtain ⟨-, stored, next⟩ := sound.toStored.flush
    have count : (history.call .flush).count = history.count := by simp [call, History.count]
    refine ⟨stored, ?_, ?_, ?_⟩
    · rw [next, count]
      exact sound.next
    · rw [count]
      exact sound.small
    · simpa [call] using sound.numbered

theorem flushed_ordered {history : History} (sound : history.Sound) :
    Ordered .invalid history.batches.flatten :=
  (numbered_append.mp sound.numbered).1.ordered Nat.one_pos

private theorem rewound {history : History} (sound : history.Sound) :
    history.manager.rewindReader.2 = { history.manager with reader := {} } := by
  simp [LogManager.rewindReader, sound.initialized]
  rfl

theorem blocks_aligned {batches : List (List LogRecord)} (aligned : ∀ batch ∈ batches, Aligned batch) :
    batches.flatMap (blockBytes frame) = batches.flatten.flatMap paddedFrame := by
  induction batches with
  | nil => rfl
  | cons batch rest ih =>
    obtain ⟨first, later⟩ := List.forall_mem_cons.mp aligned
    rw [List.flatMap_cons, blockBytes_aligned first, ih later, List.flatten_cons, List.flatMap_append]

theorem reads_back_of_aligned {history : History} (sound : history.Sound)
    (aligned : ∀ batch ∈ history.batches, Aligned batch) : history.ReadsBack := by
  have laid : Laid history.batches.flatten (history.batches.flatMap (blockBytes frame)) := by
    rw [blocks_aligned aligned]
    exact laid_frames _
  refine ⟨?_, (numbered_append.mp sound.numbered).1.range, ?_⟩
  · rw [rewound sound]
    refine LogManager.Facing.readAll ⟨sound.initialized, sound.ready, rfl, flushed_ordered sound, ?_⟩
    simp only [sound.bytes]
    rw [show WalFileHeader.kSize = walHeader.length from rfl, List.drop_left]
    exact laid
  · rw [LogManager.validate_laid sound.initialized sound.ready sound.bytes laid (flushed_ordered sound)]
    rfl

theorem aligned_of_reads_back {history : History} (sound : history.Sound)
    (blank : ∀ batch ∈ history.batches, ∀ record ∈ batch, record.Blank) (reads : history.ReadsBack) :
    ∀ batch ∈ history.batches, Aligned batch := by
  obtain ⟨after, read⟩ := reads.records
  rw [rewound sound] at read
  have placed : history.manager.file.file.bytes.drop WalFileHeader.kSize = history.batches.flatMap (blockBytes frame) := by
    rw [sound.bytes]
    exact List.drop_left' length_walHeader
  have standing : Standing { history.manager with reader := {} } _ history.batches.flatten :=
    ⟨sound.initialized, sound.ready, rfl, flushed_ordered sound, placed, _, by rw [read]⟩
  exact standing.aligned blank

/-- For every accepted sequence of calls on a fresh log: aligned batches are read back,
and when the records were made with blank reserved fields no others are. -/
theorem batches_read_back_iff (path : String) (calls : List LogCall) (accepted : Runs.AtEachStep call Accepted (fresh path) calls) :
    let history := Runs.after call (fresh path) calls
    ((∀ batch ∈ history.batches, Aligned batch) → history.ReadsBack) ∧
      ((∀ batch ∈ history.batches, ∀ record ∈ batch, record.Blank) →
        (history.ReadsBack ↔ ∀ batch ∈ history.batches, Aligned batch)) := by
  have always : Runs.Always call Sound (fresh path) calls :=
    Runs.always_of_invariant (fun _ _ sound accepted => call_sound sound accepted) (sound_fresh path) accepted
  have sound := always.last
  exact ⟨reads_back_of_aligned sound, fun blank =>
    ⟨aligned_of_reads_back sound blank, reads_back_of_aligned sound⟩⟩

def stamped (type : LogRecordType) (payload : List UInt8) : LogRecord :=
  { LogRecord.make type 8 0 1 with payload := payload }

theorem batches_read_back_iff_mixed :
    let calls := [.append (stamped .pageUpdate [1, 2, 3, 4, 5, 6, 7]), .append (stamped .pageDelete []), .flush,
      .appendBatch [stamped .nodeSplit [9]], .flush]
    let history := Runs.after call (fresh "wal") calls
    Runs.AtEachStep call Accepted (fresh "wal") calls ∧ history.batches.map List.length = [2, 1] ∧
      ((∀ batch ∈ history.batches, Aligned batch) → history.ReadsBack) ∧
      ((∀ batch ∈ history.batches, ∀ record ∈ batch, record.Blank) →
        (history.ReadsBack ↔ ∀ batch ∈ history.batches, Aligned batch)) :=
  ⟨by decide +kernel, by decide +kernel, batches_read_back_iff "wal" _ (by decide +kernel)⟩

/-- Two records of 49 bytes in one batch: the second is not read back. -/
theorem second_record_of_batch_is_lost :
    let calls := [.append (stamped .pageUpdate []), .append (stamped .pageDelete []), .flush]
    Runs.AtEachStep call Accepted (fresh "wal") calls ∧
      ((Runs.after call (fresh "wal") calls).manager.rewindReader.2.readAll 3).1.length = 1 ∧
      ((Runs.after call (fresh "wal") calls).manager.rewindReader.2.readAll 3).2.1 =
        some (Status.corruption "LogFile: zero-length record") ∧
      ¬ (Runs.after call (fresh "wal") calls).ReadsBack := by
  refine ⟨by decide +kernel, by decide +kernel, by decide +kernel, fun reads => ?_⟩
  have validates := reads.validates
  revert validates
  decide +kernel

end History
end Quartz.Wal
