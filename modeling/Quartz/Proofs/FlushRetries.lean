import Quartz.Proofs.RejectedAppends

/-! What reaches the file when records are appended one after another and then flushed. Nothing drains a buffer
that is full, and a flush that is tried again after the padding has failed writes the buffer once more. -/

namespace Quartz.Wal
open Storage LogWriter LogFile LogRecord

/-- The bytes are these records, framed and in order, with any number of zeros behind each. -/
def Interspersed (framed : LogRecord → List UInt8) : List LogRecord → List UInt8 → Prop
  | [], bytes => ∃ count, bytes = List.replicate count 0
  | record :: rest, bytes =>
    ∃ count tail, bytes = framed record ++ List.replicate count 0 ++ tail ∧ Interspersed framed rest tail

theorem interspersed_frames (framed : LogRecord → List UInt8) (records : List LogRecord) (count : Nat) :
    Interspersed framed records (records.flatMap framed ++ List.replicate count 0) := by
  induction records with
  | nil => exact ⟨count, rfl⟩
  | cons record rest ih =>
    exact ⟨0, _, by rw [List.flatMap_cons, List.replicate_zero, List.append_nil, List.append_assoc], ih⟩

def weight (bytes : List UInt8) : Nat := bytes.countP (· ≠ 0)

@[simp] theorem weight_append (first second : List UInt8) : weight (first ++ second) = weight first + weight second :=
  List.countP_append

@[simp] theorem weight_zeros (count : Nat) : weight (List.replicate count 0) = 0 := by
  simp [weight, List.countP_replicate]

theorem Interspersed.weight {framed : LogRecord → List UInt8} {records : List LogRecord} {bytes : List UInt8}
    (interspersed : Interspersed framed records bytes) : weight bytes = weight (records.flatMap framed) := by
  induction records generalizing bytes with
  | nil =>
    obtain ⟨count, rfl⟩ := interspersed
    exact weight_zeros count
  | cons record rest ih =>
    obtain ⟨count, tail, rfl, later⟩ := interspersed
    rw [weight_append, weight_append, weight_zeros, ih later, List.flatMap_cons, weight_append]
    omega

theorem weight_frame {record : LogRecord} (fits : record.Fits) : 0 < weight (writtenFrame record) := by
  have bound : 45 + record.payload.length < 256 ^ 4 := fits
  have size : Bytes.field (writtenFrame record) 0 4 ≠ 0 := by
    rw [writtenFrame_eq fits, Bytes.field_encode, Nat.mod_eq_of_lt bound]
    omega
  obtain ⟨place, -, -, nonzero⟩ := Bytes.exists_byte_of_field size
  cases found : (writtenFrame record)[place]? with
  | none =>
    rw [found] at nonzero
    exact absurd rfl nonzero
  | some byte =>
    rw [found] at nonzero
    exact List.countP_pos_iff.mpr ⟨byte, List.mem_of_getElem? found, by simpa using nonzero⟩

/-- Where a record's own bytes are to begin, its frame in the file has none of them. -/
theorem not_interspersed {record : LogRecord} {records : List LogRecord} {bytes : List UInt8} (valid : record.Valid)
    (fits : record.Fits) (placed : writtenFrame record <+: bytes) : ¬ Interspersed frame (record :: records) bytes := by
  rintro ⟨count, tail, rfl, -⟩
  have type : record.type.byte ≠ 0 := by
    intro zero
    have type := valid.type
    simp [isValidRecordType, zero, LogRecordType.invalid] at type
  obtain ⟨rest, same⟩ := placed
  have fifth := congrArg (fun bytes => bytes[4]?) same
  simp only [writtenFrame_eq fits, frame, serialize, Bytes.encode, List.append_assoc, List.cons_append, List.nil_append,
    List.getElem?_cons_succ] at fifth
  rw [List.getElem?_append_left (by simp), List.getElem?_replicate, if_pos (by omega), List.getElem?_cons_zero] at fifth
  simp at fifth
  exact type fifth.symm

namespace LogWriter

def AcceptsAll (writer : LogWriter) : List LogRecord → Prop
  | [] => True
  | record :: rest => writer.Accepts record ∧ (writer.appendRecord record writtenFrame).2.AcceptsAll rest

/-- Appends the records one after another, whatever each append returns. -/
def appendEach (writer : LogWriter) : List LogRecord → List Status × LogWriter
  | [] => ([], writer)
  | record :: rest =>
    let (status, writer) := writer.appendRecord record writtenFrame
    let (statuses, writer) := writer.appendEach rest
    (status :: statuses, writer)

/-- The records among these that are accepted, under their numbers. -/
def taken (writer : LogWriter) : List LogRecord → List LogRecord
  | [] => []
  | record :: rest =>
    let later := (writer.appendRecord record writtenFrame).2.taken rest
    if (writer.appendRecord record writtenFrame).1.ok then { record with lsn := writer.nextLsn } :: later else later

variable {writer : LogWriter} {record : LogRecord} {records : List LogRecord}

theorem appendEach_bytes : (writer.appendEach records).2.buffer =
    { writer.buffer with bytes := writer.buffer.bytes ++ (writer.taken records).flatMap writtenFrame } := by
  induction records generalizing writer with
  | nil => simp [appendEach, taken]
  | cons record rest ih =>
    rw [appendEach, taken]
    simp only [ih]
    rcases writer.appendRecord_cases record writtenFrame with ⟨refused, same⟩ | ⟨-, -, done⟩
    · rw [if_neg (by simp [refused]), same]
    · rw [if_pos (by rw [done]; rfl), done]
      simp only [List.flatMap_cons, List.append_assoc]

/-- What is taken passes the checks, and its size fits into its frame. -/
theorem taken_valid (fits : ∀ record ∈ records, record.Fits) :
    ∀ record ∈ writer.taken records, record.Valid ∧ record.Fits := by
  induction records generalizing writer with
  | nil => simp [taken]
  | cons record rest ih =>
    obtain ⟨fit, later⟩ := List.forall_mem_cons.mp fits
    rw [taken]
    rcases writer.appendRecord_cases record writtenFrame with ⟨refused, -⟩ | ⟨valid, -, done⟩
    · rw [if_neg (by simp [refused])]
      exact ih later
    · rw [if_pos (by rw [done]; rfl)]
      exact List.forall_mem_cons.mpr ⟨⟨valid, fit⟩, ih later⟩

theorem accepts_iff (fits : record.Fits) : (writer.appendRecord record writtenFrame).1.ok = true ↔ writer.Accepts record :=
  appendRecord_sized_iff (length_numberedFrame fits _)

theorem appendEach_ok_iff (fits : ∀ record ∈ records, record.Fits) :
    (∀ status ∈ (writer.appendEach records).1, status.ok = true) ↔ writer.AcceptsAll records := by
  induction records generalizing writer with
  | nil => simp [appendEach, AcceptsAll]
  | cons record rest ih =>
    obtain ⟨fit, later⟩ := List.forall_mem_cons.mp fits
    rw [appendEach, List.forall_mem_cons, accepts_iff fit, ih later, AcceptsAll]

def framedSize (records : List LogRecord) : Nat := (records.map fun record => 4 + record.wireSize).sum

theorem AcceptsAll.appended {count : Nat} (accepts : writer.AcceptsAll records) (counted : writer.Counted count)
    (fits : ∀ record ∈ records, record.Fits) :
    (writer.appendEach records).2.Counted (count + records.length) ∧
      writer.taken records = numberedFrom (count + 1) records := by
  induction records generalizing writer count with
  | nil => exact ⟨counted, rfl⟩
  | cons record rest ih =>
    obtain ⟨first, accepts⟩ := accepts
    obtain ⟨fit, later⟩ := List.forall_mem_cons.mp fits
    obtain ⟨ends, same⟩ := ih accepts (counted.append record) later
    refine ⟨?_, ?_⟩
    · rw [appendEach, List.length_cons, show count + (rest.length + 1) = count + 1 + rest.length by omega]
      exact ends
    · rw [taken, if_pos ((accepts_iff fit).mpr first), same, numberedFrom, counted.next]
      rfl

theorem framedSize_cons (record : LogRecord) (rest : List LogRecord) :
    framedSize (record :: rest) = 49 + record.payload.length + framedSize rest := by
  simp only [framedSize, List.map_cons, List.sum_cons, wireSize]
  omega

theorem length_le_framedSize (records : List LogRecord) : records.length ≤ framedSize records := by
  induction records with
  | nil => exact Nat.zero_le _
  | cons record rest ih =>
    rw [framedSize_cons, List.length_cons]
    omega

theorem Accepts.fills (accepts : writer.Accepts record) (fits : record.Fits) :
    (writer.appendRecord record writtenFrame).2.buffer.bytes.length =
        writer.buffer.bytes.length + (49 + record.payload.length) ∧
      (writer.appendRecord record writtenFrame).2.buffer.capacity = writer.buffer.capacity := by
  obtain ⟨-, after⟩ := appendRecord_sized (length_numberedFrame fits _) ((accepts_iff fits).mpr accepts)
  rw [after]
  exact ⟨by rw [List.length_append, length_numberedFrame fits], rfl⟩

theorem AcceptsAll.room (accepts : writer.AcceptsAll records) (fits : ∀ record ∈ records, record.Fits)
    (inside : writer.buffer.bytes.length ≤ writer.buffer.capacity) :
    writer.buffer.bytes.length + framedSize records ≤ writer.buffer.capacity := by
  induction records generalizing writer with
  | nil => exact inside
  | cons record rest ih =>
    obtain ⟨first, accepts⟩ := accepts
    obtain ⟨fit, later⟩ := List.forall_mem_cons.mp fits
    obtain ⟨length, capacity⟩ := first.fills fit
    have enough := ih accepts later (by rw [length, capacity]; exact first.room)
    rw [framedSize_cons]
    omega

theorem acceptsAll_of_room {count : Nat} (counted : writer.Counted count) (few : count + records.length < 2 ^ 64)
    (sound : ∀ record ∈ records, isValidRecordType record.type = true ∧ record.timestamp ≠ 0)
    (fits : ∀ record ∈ records, record.Fits)
    (room : writer.buffer.bytes.length + framedSize records ≤ writer.buffer.capacity) : writer.AcceptsAll records := by
  induction records generalizing writer count with
  | nil => trivial
  | cons record rest ih =>
    obtain ⟨⟨type, timestamp⟩, later⟩ := List.forall_mem_cons.mp sound
    obtain ⟨fit, others⟩ := List.forall_mem_cons.mp fits
    rw [List.length_cons] at few
    rw [framedSize_cons] at room
    have number : writer.nextLsn.isValid = true := by
      have value : (UInt64.ofNat (count + 1)).toNat = count + 1 := UInt64.toNat_ofNat_of_lt' (show _ < 2 ^ 64 by omega)
      simp only [counted.next, LogSequenceNumber.isValid, bne_iff_ne, ne_eq]
      intro zero
      rw [zero] at value
      cases value
    have first : writer.Accepts record := ⟨⟨type, number, timestamp⟩, by omega⟩
    obtain ⟨length, capacity⟩ := first.fills fit
    exact ⟨first, ih (counted.append record) (by omega) later others (by omega)⟩

/-- Every record is accepted, and behind the flush the file holds all of them, framed like this. -/
structure Keeps (framed : LogRecord → List UInt8) (path : String) (bufferCapacity : Nat) (records : List LogRecord) : Prop where
  accepted : ∀ status ∈ ((LogWriter.make bufferCapacity).appendEach records).1, status.ok = true
  flushed : (((LogWriter.make bufferCapacity).appendEach records).2.flush (.created path)).1.ok = true
  bytes : ∃ rest, (((LogWriter.make bufferCapacity).appendEach records).2.flush (.created path)).2.2.file.bytes =
    walHeader ++ rest ∧ Interspersed framed (numberedFrom 1 records) rest
  number : (((LogWriter.make bufferCapacity).appendEach records).2.flush (.created path)).2.1.lastFlushedLsn.value.toNat =
    records.length

/-- What is in the file when every record was accepted. -/
theorem AcceptsAll.flushed {bufferCapacity : Nat} (accepts : (LogWriter.make bufferCapacity).AcceptsAll records)
    (fits : ∀ record ∈ records, record.Fits) (path : String) :
    ∃ count after, ((LogWriter.make bufferCapacity).appendEach records).2.flush (.created path) = (Status.success, after) ∧
      after.2.file.bytes = walHeader ++ ((numberedFrom 1 records).flatMap writtenFrame ++ List.replicate count 0) ∧
      after.1.lastFlushedLsn = ⟨UInt64.ofNat records.length⟩ := by
  have start : (LogWriter.make bufferCapacity).Counted 0 := ⟨rfl, rfl⟩
  obtain ⟨counted, same⟩ := accepts.appended start fits
  have buffer : ((LogWriter.make bufferCapacity).appendEach records).2.buffer.bytes =
      (numberedFrom 1 records).flatMap writtenFrame := by
    rw [appendEach_bytes, same]
    rfl
  obtain ⟨ready, holds, offset⟩ := created_ends path
  obtain ⟨after, flush, -, -, bytes⟩ := flush_ready ((LogWriter.make bufferCapacity).appendEach records).2 ready
    (by rw [holds, offset]) (by rw [offset]; rfl)
  rw [holds, offset, Splice.write_at_end, buffer] at bytes
  exact ⟨_, _, flush, bytes, by rw [counted.current, Nat.zero_add]⟩

/-- Records that pass the checks, appended one after another and then flushed, all reach the file exactly when the
buffer has room for all of them at once. What reaches it are their sizes: the records' own bytes are in the file
only when there are none. -/
theorem pressure_keeps_records_iff (path : String) (bufferCapacity : Nat) (positive : 1 ≤ bufferCapacity)
    (bounded : bufferCapacity < 2 ^ 64) (records : List LogRecord)
    (sound : ∀ record ∈ records, isValidRecordType record.type = true ∧ record.timestamp ≠ 0)
    (fits : ∀ record ∈ records, record.Fits) :
    (Keeps writtenFrame path bufferCapacity records ↔ framedSize records ≤ bufferCapacity) ∧
      (Keeps frame path bufferCapacity records ↔ records = []) := by
  have capacity : (LogWriter.make bufferCapacity).buffer.capacity = bufferCapacity := if_pos positive
  have start : (LogWriter.make bufferCapacity).Counted 0 := ⟨rfl, rfl⟩
  have enough : framedSize records ≤ bufferCapacity → (LogWriter.make bufferCapacity).AcceptsAll records := by
    intro room
    have few := length_le_framedSize records
    exact acceptsAll_of_room start (by omega) sound fits (by rw [capacity]; exact (Nat.zero_add _).trans_le room)
  have keeps : framedSize records ≤ bufferCapacity → Keeps writtenFrame path bufferCapacity records := by
    intro room
    have few := length_le_framedSize records
    obtain ⟨count, after, flush, bytes, number⟩ := (enough room).flushed fits path
    refine ⟨(appendEach_ok_iff fits).mpr (enough room), by rw [flush]; rfl, ⟨_, by rw [flush]; exact bytes,
      interspersed_frames _ _ _⟩, ?_⟩
    rw [flush, number]
    exact UInt64.toNat_ofNat_of_lt' (show _ < 2 ^ 64 by omega)
  refine ⟨⟨fun kept => ?_, keeps⟩, fun kept => ?_, fun none => ?_⟩
  · have room := ((appendEach_ok_iff fits).mp kept.accepted).room fits (Nat.zero_le _)
    rw [capacity] at room
    exact (Nat.le_add_left _ _).trans room
  · have accepts := (appendEach_ok_iff fits).mp kept.accepted
    obtain ⟨count, after, flush, bytes, -⟩ := accepts.flushed fits path
    obtain ⟨rest, same, interspersed⟩ := kept.bytes
    rw [flush] at same
    obtain rfl := List.append_cancel_left (bytes.symm.trans same)
    cases records with
    | nil => rfl
    | cons record rest =>
      have valid : (record.numbered 1).Valid := accepts.1.valid
      have fit : (record.numbered 1).Fits := fits record List.mem_cons_self
      refine absurd interspersed (not_interspersed valid fit ?_)
      rw [numberedFrom, List.flatMap_cons, List.append_assoc]
      exact List.prefix_append _ _
  · subst none
    obtain ⟨accepted, flushed, ⟨rest, bytes, count, zeros⟩, number⟩ := keeps (Nat.zero_le _)
    exact ⟨accepted, flushed, ⟨rest, bytes, count, zeros⟩, number⟩

theorem pressure_keeps_records_iff_two :
    Keeps writtenFrame "wal" 98 [History.stamped .pageUpdate [], History.stamped .pageDelete []] ∧
      ¬ Keeps frame "wal" 98 [History.stamped .pageUpdate [], History.stamped .pageDelete []] := by
  obtain ⟨kept, own⟩ := pressure_keeps_records_iff "wal" 98 (by decide) (by decide)
    [History.stamped .pageUpdate [], History.stamped .pageDelete []] (by decide +kernel) (by decide +kernel)
  exact ⟨kept.mpr (by decide +kernel), fun kept => List.cons_ne_nil _ _ (own.mp kept)⟩

/-- Two records of 49 bytes do not go through a buffer of 64, one after the other. -/
theorem full_buffer_is_not_drained :
    4 + (History.stamped .pageUpdate []).wireSize ≤ 64 ∧
      ((LogWriter.make 64).appendEach [History.stamped .pageUpdate [], History.stamped .pageUpdate []]).1 =
        [Status.success, Status.outOfMemory "LogBuffer: capacity exceeded"] := by
  decide +kernel

end LogWriter

def transient (fault : Option FlushStep) : Option FlushFault := fault.map fun step => { step := step }

theorem guarded_transient (fault : Option FlushStep) (step : FlushStep) (message : String) (file : DatabaseFile)
    (operation : DatabaseFile → Status × DatabaseFile) :
    guarded (transient fault) step message file operation =
      if fault = some step then (Status.ioError message, file) else operation file := by
  cases fault with
  | none => rfl
  | some fault => simp [transient, guarded, DatabaseFile.struck]

namespace LogFile.EndsWith

variable {log : LogFile} {bytes data : List UInt8}

theorem onto (ends : log.EndsWith bytes) {file : DatabaseFile} (stream : Over file bytes) : EndsWith { log with file := file } bytes :=
  ⟨.of_stream ends.ready.attached stream, stream.holds, ends.offset⟩

theorem stream (ends : log.EndsWith bytes) : Over log.file bytes := ends.holds ▸ ends.ready.stream

/-- The padding brings the end of the file to the boundary, unless it fails. -/
theorem alignAppendOffsetUnder (ends : log.EndsWith bytes) (clean : log.file.eof = false)
    (position : log.file.position = bytes.length) (fault : Option FlushStep) :
    (fault = some .padding ∧ bytes.length % 8 ≠ 0 ∧ (log.alignAppendOffsetUnder (transient fault)).1.ok = false ∧
        (log.alignAppendOffsetUnder (transient fault)).2.EndsWith bytes) ∨
      (fault = some .padding → bytes.length % 8 = 0) ∧ (log.alignAppendOffsetUnder (transient fault)).1.ok = true ∧
        ∃ count, (log.alignAppendOffsetUnder (transient fault)).2.EndsWith (bytes ++ List.replicate count 0) := by
  have remainder : log.appendOffset % kLogRecordAlignment = bytes.length % 8 := by rw [ends.offset, kLogRecordAlignment]
  simp only [LogFile.alignAppendOffsetUnder, guarded_transient, remainder]
  by_cases whole : bytes.length % 8 = 0
  · simp only [if_pos whole]
    exact .inr ⟨fun _ => whole, rfl, 0, by simpa using ends⟩
  · simp only [if_neg whole]
    by_cases struck : fault = some .padding
    · simp only [if_pos struck]
      exact .inl ⟨struck, whole, rfl, ends.onto ends.stream⟩
    · simp only [if_neg struck, kLogRecordAlignment]
      obtain ⟨after, write, stream, -⟩ := ends.stream.writeBytes clean
        (show List.replicate (8 - bytes.length % 8) 0 ≠ [] by simp; omega)
      rw [position, Splice.write_at_end] at stream
      rw [write]
      refine .inr ⟨fun both => absurd both struck, rfl, 8 - bytes.length % 8, .of_stream ends.ready.attached stream, stream.holds, ?_⟩
      simp [ends.offset]

/-- An append that fails when it seeks or writes leaves the file alone; one that fails when it pads has written. -/
theorem appendUnder (ends : log.EndsWith bytes) (some : data ≠ []) (fault : Option FlushStep) :
    ((fault = .some .seek ∨ fault = .some .write) ∧ (log.appendUnder (transient fault) data).1.ok = false ∧
        (log.appendUnder (transient fault) data).2.EndsWith bytes) ∨
      (fault = .some .padding ∧ (bytes.length + data.length) % 8 ≠ 0 ∧ (log.appendUnder (transient fault) data).1.ok = false ∧
        (log.appendUnder (transient fault) data).2.EndsWith (bytes ++ data)) ∨
      (fault ≠ .some .seek ∧ fault ≠ .some .write ∧ (fault = .some .padding → (bytes.length + data.length) % 8 = 0)) ∧
        (log.appendUnder (transient fault) data).1.ok = true ∧
        ∃ count, (log.appendUnder (transient fault) data).2.EndsWith (bytes ++ data ++ List.replicate count 0) := by
  simp only [LogFile.appendUnder, ends.ready.open, guarded_transient, if_not_true]
  by_cases unsought : fault = .some .seek
  · simp only [if_pos unsought]
    exact .inl ⟨.inl unsought, rfl, ends.onto ends.stream⟩
  obtain ⟨sought, seek, stream, position, clean⟩ := ends.stream.seekTo log.appendOffset
  simp only [if_neg unsought, seek, Status.ok_success, if_not_true]
  rw [ends.offset] at position
  by_cases unwritten : fault = .some .write
  · simp only [if_pos unwritten]
    exact .inl ⟨.inr unwritten, rfl, ends.onto stream⟩
  obtain ⟨written, write, stream, moved, clean⟩ := stream.writeBytes clean some
  rw [position, Splice.write_at_end] at stream
  simp only [if_neg unwritten, write, Status.ok_success, if_not_true]
  have behind : EndsWith { log with file := written, appendOffset := log.appendOffset + data.length } (bytes ++ data) :=
    ⟨.of_stream ends.ready.attached stream, stream.holds, by rw [ends.offset, List.length_append]⟩
  rcases behind.alignAppendOffsetUnder clean (by rw [moved, position, List.length_append]) fault with
    ⟨struck, odd, refused, after⟩ | ⟨whole, granted, count, after⟩
  · rw [List.length_append] at odd
    exact .inr (.inl ⟨struck, odd, refused, after⟩)
  · rw [List.length_append] at whole
    exact .inr (.inr ⟨⟨unsought, unwritten, whole⟩, granted, count, after⟩)

theorem flushUnder (ends : log.EndsWith bytes) (fault : Option FlushStep) :
    (log.flushUnder (transient fault)).1.ok = decide (fault ≠ some .sync) ∧
      (log.flushUnder (transient fault)).2.EndsWith bytes := by
  rw [LogFile.flushUnder, if_neg (by simp [ends.ready.attached]), guarded_transient]
  by_cases struck : fault = some .sync
  · simp only [if_pos struck]
    exact ⟨by simp [struck, Status.ioError, Status.ok], ends.onto ends.stream⟩
  · have flush : log.file.flush = (Status.success, log.file) := by
      rw [DatabaseFile.flush, if_neg (by simp [ends.ready.isOpen]), if_neg (by simp [ends.ready.good])]
    simp only [if_neg struck, flush]
    exact ⟨by simp [struck], ends.onto ends.stream⟩

end LogFile.EndsWith

namespace LogWriter

/-- Where a flush under a fault stops: before the buffer is in the file, between the buffer and its padding, or
behind both. -/
inductive Attempted (bytes waiting : List UInt8) (fault : Option FlushStep) (out : Status × LogWriter × LogFile) : Prop where
  | unwritten (struck : fault = some .seek ∨ fault = some .write) (refused : out.1.ok = false)
      (waits : out.2.1.buffer.bytes = waiting) (ends : out.2.2.EndsWith bytes)
  | unpadded (struck : fault = some .padding) (odd : (bytes.length + waiting.length) % 8 ≠ 0) (refused : out.1.ok = false)
      (waits : out.2.1.buffer.bytes = waiting) (ends : out.2.2.EndsWith (bytes ++ waiting))
  | written (count : Nat)
      (spared : waiting ≠ [] → fault ≠ some .seek ∧ fault ≠ some .write ∧
        (fault = some .padding → (bytes.length + waiting.length) % 8 = 0))
      (status : out.1.ok = decide (fault ≠ some .sync)) (clear : out.2.1.buffer.bytes = [])
      (ends : out.2.2.EndsWith (bytes ++ waiting ++ List.replicate count 0)) (tight : waiting = [] → count = 0)

variable {writer : LogWriter} {log : LogFile} {bytes : List UInt8}

theorem flushUnder_attempted (writer : LogWriter) (ends : log.EndsWith bytes) (fault : Option FlushStep) :
    Attempted bytes writer.buffer.bytes fault (writer.flushUnder (transient fault) log) := by
  unfold LogWriter.flushUnder flushBufferToFileUnder
  by_cases none : writer.buffer.bytes = []
  · obtain ⟨status, after⟩ := ends.flushUnder fault
    simp only [none, List.isEmpty_nil, if_true, Status.ok_success, if_not_true]
    refine .written 0 (fun some => absurd rfl some) ?_ ?_ ?_ (fun _ => rfl)
    · split <;> simp_all
    · split <;> exact none
    · rw [List.append_nil, List.replicate_zero, List.append_nil]
      split <;> exact after
  · rw [if_neg (by simpa using none)]
    rcases ends.appendUnder none fault with
      ⟨struck, refused, after⟩ | ⟨struck, odd, refused, after⟩ | ⟨spared, granted, count, after⟩
    · simp only [refused, Bool.not_false, if_true]
      exact .unwritten struck refused rfl after
    · simp only [refused, Bool.not_false, if_true]
      exact .unpadded struck odd refused rfl after
    · obtain ⟨status, after⟩ := after.flushUnder fault
      simp only [granted, if_not_true, Status.ok_success]
      refine .written count (fun _ => spared) ?_ ?_ ?_ (fun empty => absurd empty none)
      · split <;> simp_all
      · split <;> rfl
      · split <;> exact after

/-- Flushes again until a flush is granted: each fault strikes one flush, and behind them there are none. -/
def flushUntilOk (writer : LogWriter) (log : LogFile) : List FlushStep → Status × LogWriter × LogFile
  | [] => writer.flushUnder none log
  | step :: rest =>
    let (status, after, moved) := writer.flushUnder (transient (some step)) log
    if status.ok then (status, after, moved) else after.flushUntilOk moved rest

theorem flushUntilOk_writes (writer : LogWriter) (ends : log.EndsWith bytes) (faults : List FlushStep) :
    (writer.flushUntilOk log faults).1.ok = true ∧ ∃ more,
      (writer.flushUntilOk log faults).2.2.EndsWith (bytes ++ writer.buffer.bytes ++ more) := by
  induction faults generalizing writer log bytes with
  | nil =>
    rcases writer.flushUnder_attempted ends none with ⟨struck, -⟩ | ⟨struck, -⟩ | ⟨count, -, status, -, after, -⟩
    · rcases struck with struck | struck <;> cases struck
    · cases struck
    · exact ⟨status, _, after⟩
  | cons step rest ih =>
    rw [flushUntilOk]
    rcases writer.flushUnder_attempted ends (some step) with
      ⟨-, refused, waits, after⟩ | ⟨-, -, refused, waits, after⟩ | ⟨count, -, -, clear, after, -⟩
    · simp only [refused, if_false_true]
      rw [← waits]
      exact ih _ after
    · simp only [refused, if_false_true]
      obtain ⟨granted, more, ended⟩ := ih _ after
      rw [List.append_assoc] at ended
      exact ⟨granted, _, ended⟩
    · simp only
      split
      next granted => exact ⟨granted, _, after⟩
      next refused =>
        obtain ⟨granted, more, ended⟩ := ih _ after
        rw [List.append_assoc, List.append_assoc] at ended
        exact ⟨granted, _, ended⟩

/-- The padding is not needed, or no flush fails at it that has the buffer to write. -/
def Spared (waiting : List UInt8) (faults : List FlushStep) : Prop :=
  waiting.length % kLogRecordAlignment = 0 ∨
    (faults.dropWhile fun step => step = .seek ∨ step = .write).head? ≠ some .padding

instance (waiting : List UInt8) (faults : List FlushStep) : Decidable (Spared waiting faults) :=
  inferInstanceAs (Decidable (_ ∨ _))

theorem flushUntilOk_empty (ends : log.EndsWith bytes) (empty : writer.buffer.bytes = []) (faults : List FlushStep) :
    (writer.flushUntilOk log faults).2.2.EndsWith bytes := by
  induction faults generalizing writer log with
  | nil =>
    rcases writer.flushUnder_attempted ends none with ⟨-, -, -, after⟩ | ⟨struck, -⟩ | ⟨count, -, -, -, after, tight⟩
    · exact after
    · cases struck
    · rw [tight empty, empty, List.append_nil, List.replicate_zero, List.append_nil] at after
      exact after
  | cons step rest ih =>
    rw [flushUntilOk]
    rcases writer.flushUnder_attempted ends (some step) with
      ⟨-, refused, waits, after⟩ | ⟨-, -, refused, waits, after⟩ | ⟨count, -, -, clear, after, tight⟩
    · simp only [refused, if_false_true]
      exact ih after (waits.trans empty)
    · simp only [refused, if_false_true]
      rw [empty, List.append_nil] at after
      exact ih after (waits.trans empty)
    · rw [tight empty, empty, List.append_nil, List.replicate_zero, List.append_nil] at after
      simp only
      split
      · exact after
      · exact ih after clear

theorem Spared.writes_once (ends : log.EndsWith bytes) (aligned : bytes.length % 8 = 0) {faults : List FlushStep}
    (spared : Spared writer.buffer.bytes faults) :
    ∃ count, (writer.flushUntilOk log faults).2.2.EndsWith (bytes ++ writer.buffer.bytes ++ List.replicate count 0) := by
  induction faults generalizing writer log with
  | nil =>
    rcases writer.flushUnder_attempted ends none with ⟨struck, -⟩ | ⟨struck, -⟩ | ⟨count, -, -, -, after, -⟩
    · rcases struck with struck | struck <;> cases struck
    · cases struck
    · exact ⟨count, after⟩
  | cons step rest ih =>
    rw [flushUntilOk]
    rcases writer.flushUnder_attempted ends (some step) with
      ⟨struck, refused, waits, after⟩ | ⟨struck, odd, -⟩ | ⟨count, -, -, clear, after, -⟩
    · simp only [refused, if_false_true]
      rw [← waits] at spared ⊢
      refine ih after (spared.imp_right fun free => ?_)
      rwa [List.dropWhile_cons_of_pos (by simpa using struck)] at free
    · obtain rfl := Option.some.inj struck
      refine absurd spared (not_or.mpr ⟨?_, ?_⟩)
      · rw [kLogRecordAlignment]
        omega
      · simp
    · simp only
      split
      · exact ⟨count, after⟩
      · exact ⟨count, flushUntilOk_empty after clear rest⟩

theorem writes_twice (ends : log.EndsWith bytes) (aligned : bytes.length % 8 = 0) {faults : List FlushStep}
    (struck : ¬ Spared writer.buffer.bytes faults) :
    ∃ more, (writer.flushUntilOk log faults).2.2.EndsWith
      (bytes ++ (writer.buffer.bytes ++ (writer.buffer.bytes ++ more))) := by
  induction faults generalizing writer log with
  | nil => exact absurd (.inr (by simp)) struck
  | cons step rest ih =>
    obtain ⟨odd, head⟩ := not_or.mp struck
    rw [kLogRecordAlignment] at odd
    have some : writer.buffer.bytes ≠ [] := fun empty => odd (by rw [empty]; rfl)
    rw [flushUntilOk]
    rcases writer.flushUnder_attempted ends (.some step) with
      ⟨unwritten, refused, waits, after⟩ | ⟨-, -, refused, waits, after⟩ | ⟨count, spared, -⟩
    · simp only [refused, if_false_true]
      rw [← waits] at struck ⊢
      refine ih after fun spared => struck (spared.imp_right fun free => ?_)
      rwa [List.dropWhile_cons_of_pos (by simpa using unwritten)]
    · simp only [refused, if_false_true]
      obtain ⟨-, more, ended⟩ := flushUntilOk_writes _ after rest
      rw [waits, List.append_assoc, List.append_assoc] at ended
      exact ⟨more, ended⟩
    · obtain ⟨unsought, unwritten, padded⟩ := spared some
      rw [List.dropWhile_cons_of_neg (by simpa using And.intro unsought unwritten)] at head
      exact absurd (padded (not_not.mp head)) (by omega)

/-- The file behind its header is the accepted records, each once and in order, framed like this. -/
def Holds (framed : LogRecord → List UInt8) (file : LogFile) (records : List LogRecord) : Prop :=
  ∃ rest, file.file.bytes = walHeader ++ rest ∧ Interspersed framed records rest

theorem Holds.weight {framed : LogRecord → List UInt8} {file : LogFile} {records : List LogRecord}
    (holds : Holds framed file records) : weight (file.file.bytes.drop 16) = weight (records.flatMap framed) := by
  obtain ⟨rest, bytes, interspersed⟩ := holds
  rw [bytes, List.drop_left' length_walHeader]
  exact interspersed.weight

end LogWriter

/-- For every sequence of appends on a created log and every pattern of failures: the flush that is tried until it is
granted leaves the frame of every accepted record once and in order, exactly when none fails at padding the buffer.
The records' own bytes are in the file only when none was accepted. -/
theorem LogWriter.flush_retries_iff (path : String) (bufferCapacity : Nat) (records : List LogRecord)
    (fits : ∀ record ∈ records, record.Fits) (faults : List FlushStep) :
    let writer := ((LogWriter.make bufferCapacity).appendEach records).2
    let taken := (LogWriter.make bufferCapacity).taken records
    let flushed := writer.flushUntilOk (.created path) faults
    flushed.1.ok = true ∧ (Holds writtenFrame flushed.2.2 taken ↔ Spared writer.buffer.bytes faults) ∧
      (Holds frame flushed.2.2 taken ↔ taken = []) := by
  intro writer taken flushed
  have ends := created_ends path
  have sound : ∀ record ∈ taken, record.Valid ∧ record.Fits := taken_valid fits
  have buffer : writer.buffer.bytes = taken.flatMap writtenFrame := by
    rw [appendEach_bytes]
    rfl
  obtain ⟨granted, more, once⟩ := writer.flushUntilOk_writes ends faults
  refine ⟨granted, ⟨?_, fun spared => ?_⟩, ?_, fun none => ?_⟩
  · intro holds
    by_contra struck
    obtain ⟨more, twice⟩ := writes_twice ends rfl struck
    have light := holds.weight
    rw [twice.holds, List.drop_left' length_walHeader, weight_append, weight_append, ← buffer] at light
    cases some : taken with
    | nil =>
      rw [some] at buffer
      exact struck (.inl (by rw [buffer]; rfl))
    | cons record rest =>
      have heavy := weight_frame (sound record (some ▸ List.mem_cons_self)).2
      have longer : weight writer.buffer.bytes = weight (writtenFrame record) + weight (rest.flatMap writtenFrame) := by
        rw [buffer, some, List.flatMap_cons, weight_append]
      omega
  · obtain ⟨count, once⟩ := spared.writes_once ends rfl
    refine ⟨writer.buffer.bytes ++ List.replicate count 0, by rw [once.holds, List.append_assoc], ?_⟩
    rw [buffer]
    exact interspersed_frames _ _ _
  · rintro ⟨rest, bytes, interspersed⟩
    rw [List.append_assoc] at once
    obtain rfl := List.append_cancel_left (once.holds.symm.trans bytes)
    cases some : taken with
    | nil => rfl
    | cons record others =>
      obtain ⟨valid, fit⟩ := sound record (some ▸ List.mem_cons_self)
      rw [some] at interspersed
      refine absurd interspersed (not_interspersed valid fit ?_)
      rw [buffer, some, List.flatMap_cons, List.append_assoc]
      exact List.prefix_append _ _
  · have empty : writer.buffer.bytes = [] := by rw [buffer, none]; rfl
    refine ⟨[], by rw [(flushUntilOk_empty ends empty faults).holds, List.append_nil], ?_⟩
    rw [none]
    exact ⟨0, rfl⟩

theorem LogWriter.flush_retries_iff_write_fails :
    let record := History.stamped .pageUpdate []
    let flushed := ((LogWriter.make 64).appendEach [record]).2.flushUntilOk (.created "wal") [.write, .sync]
    flushed.1.ok = true ∧ Holds writtenFrame flushed.2.2 ((LogWriter.make 64).taken [record]) := by
  intro record
  obtain ⟨granted, once, -⟩ := flush_retries_iff "wal" 64 [record] (by decide +kernel) [.write, .sync]
  exact ⟨granted, once.mpr (by decide +kernel)⟩

/-- The first flush fails at the padding, so the second writes the record again. -/
theorem LogWriter.retried_record_is_written_twice :
    let record := History.stamped .pageUpdate []
    let writer := ((LogWriter.make 64).appendEach [record]).2
    let flushed := writer.flushUntilOk (.created "wal") [.padding]
    flushed.1.ok = true ∧
      flushed.2.2.file.bytes = walHeader ++ writtenFrame { record with lsn := ⟨1⟩ } ++
        writtenFrame { record with lsn := ⟨1⟩ } ++ List.replicate 6 0 ∧
      ¬ Holds writtenFrame flushed.2.2 ((LogWriter.make 64).taken [record]) := by
  intro record writer flushed
  exact ⟨by decide +kernel, by decide +kernel, fun holds => absurd holds.weight (by decide +kernel)⟩

end Quartz.Wal
