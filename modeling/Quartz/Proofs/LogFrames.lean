import Quartz.Wal.LogManager

/-! Framed records: what the decoder makes of any bytes, and what the log file returns at
an offset, whole, cut short or misplaced. -/

namespace Quartz.Wal
open Storage Serialization Bytes

namespace LogRecord

def parse (body : List UInt8) : LogRecord where
  type := ⟨UInt8.ofNat (field body 0 1)⟩
  lsn := ⟨UInt64.ofNat (field body 1 8)⟩
  timestamp := UInt64.ofNat (field body 9 8)
  pageId := UInt32.ofNat (field body 17 4)
  transactionId := UInt64.ofNat (field body 21 8)
  checksum := UInt32.ofNat (field body 33 4)
  reserved0 := UInt32.ofNat (field body 37 4)
  reserved1 := UInt32.ofNat (field body 41 4)
  payload := (body.drop 45).take (field body 29 4)

theorem deserialize_run {view : List UInt8} {offset : Nat} (inside : offset ≤ view.length) (bounded : view.length < 2 ^ 63) :
    deserialize.run ⟨view, offset⟩ =
      if offset + 45 + field view (offset + 29) 4 ≤ view.length then
        .ok (parse (view.drop offset), ⟨view, offset + 45 + field view (offset + 29) 4⟩)
      else .error BinaryReader.endOfInput := by
  have small := field_lt view (offset + 29) 4
  have limit : sizeLimit = 2 ^ 64 := rfl
  unfold deserialize
  -- the nine fixed fields, each of which may run out of input
  iterate 9
    rw [BinaryReader.read_bind (by omega) (by omega)]
    split
    case' isFalse => rw [if_neg (by omega)]
  rw [StateT.run_bind, BinaryReader.readBytes_run (by omega) (by simp only [Nat.add_assoc, Nat.reduceAdd]; omega)]
  simp only [Nat.add_assoc, Nat.reduceAdd]
  split
  · simp only [parse, field_drop, List.drop_drop, Nat.add_zero]
    rfl
  · rfl

@[simp] theorem length_serialize (record : LogRecord) : record.serialize.length = 45 + record.payload.length := by
  simp [serialize]
  omega

/-- A record whose length fields hold its length. -/
def Fits (record : LogRecord) : Prop := 45 + record.payload.length < 2 ^ 32

theorem field_type (record : LogRecord) (tail : List UInt8) :
    field (record.serialize ++ tail) 0 1 = record.type.byte.toNat := by
  simp [serialize, field_encode]

theorem field_lsn (record : LogRecord) (tail : List UInt8) :
    field (record.serialize ++ tail) 1 8 = record.lsn.value.toNat := by
  simp (disch := simp) [serialize, field_append_right, field_encode]

theorem field_timestamp (record : LogRecord) (tail : List UInt8) :
    field (record.serialize ++ tail) 9 8 = record.timestamp.toNat := by
  simp (disch := simp) [serialize, field_append_right, field_encode]

theorem field_payloadLen {record : LogRecord} (fits : record.Fits) (tail : List UInt8) :
    field (record.serialize ++ tail) 29 4 = record.payload.length := by
  simp (disch := simp) [serialize, field_append_right, field_encode]
  simp only [Fits] at fits
  omega

theorem parse_serialize {record : LogRecord} (fits : record.Fits) (tail : List UInt8) :
    parse (record.serialize ++ tail) = record := by
  have body : ((record.serialize ++ tail).drop 45).take record.payload.length = record.payload := by
    simp (disch := simp) [serialize, List.drop_append, List.drop_of_length_le]
  rw [parse, field_type, field_lsn, field_timestamp, field_payloadLen fits, body]
  simp (disch := simp) [serialize, field_append_right, field_encode]

theorem serialize_parse (body : List UInt8) (enough : 45 + field body 29 4 ≤ body.length) :
    (parse body).serialize = body.take (45 + field body 29 4) := by
  have small : ∀ start width, field body start width % 256 ^ width = field body start width := fun start width =>
    Nat.mod_eq_of_lt (field_lt body start width)
  have length : ((body.drop 45).take (field body 29 4)).length = field body 29 4 := by
    simp only [List.length_take, List.length_drop]
    omega
  have word64 : ∀ start, (UInt64.ofNat (field body start 8)).toNat = field body start 8 := fun start => by
    simpa using small start 8
  have word32 : ∀ start, (UInt32.ofNat (field body start 4)).toNat = field body start 4 := fun start => by
    simpa using small start 4
  have word8 : (UInt8.ofNat (field body 0 1)).toNat = field body 0 1 := by simpa using small 0 1
  simp only [serialize, parse, length, word64, word32, word8]
  rw [encode_field (by omega), encode_field (by omega), encode_field (by omega), encode_field (by omega),
    encode_field (by omega), encode_field (by omega), encode_field (by omega), encode_field (by omega),
    encode_field (by omega)]
  rw [List.drop_zero, ← List.take_add, ← List.take_add, ← List.take_add, ← List.take_add, ← List.take_add,
    ← List.take_add, ← List.take_add, ← List.take_add, ← List.take_add]

/-- Decoding behind the size. -/
theorem deserialize_framed {body : List UInt8} (bounded : body.length < 2 ^ 32) (size : Nat) :
    (BinaryReader.skip 4 *> deserialize).run { view := encode 4 size ++ body } =
      if 45 + field body 29 4 ≤ body.length then
        .ok (parse body, ⟨encode 4 size ++ body, 4 + 45 + field body 29 4⟩)
      else .error BinaryReader.endOfInput := by
  have length : (encode 4 size ++ body).length = 4 + body.length := by simp
  have behind : (encode 4 size ++ body).drop 4 = body := List.drop_left' (encode_length 4 size)
  have payloadLen : field (encode 4 size ++ body) (4 + 29) 4 = field body 29 4 := by
    rw [field_append_right (by simp), encode_length]
  have skipped : (BinaryReader.skip 4).run { view := encode 4 size ++ body } =
      .ok ((), ⟨encode 4 size ++ body, 4⟩) := by
    rw [BinaryReader.skip_run (by decide), if_pos (by omega)]
  rw [seqRight_eq_bind, StateT.run_bind, skipped]
  change deserialize.run _ = _
  rw [deserialize_run (by omega) (by omega), behind, payloadLen, length]
  simp only [Nat.add_assoc, Nat.add_le_add_iff_left]

end LogRecord

namespace LogFile

variable {log : LogFile} {offset : Nat}

/-- The same log with the stream elsewhere; a short read sets both flags. -/
def movedTo (log : LogFile) (position : Nat) (short : Bool) : LogFile :=
  { log with file := { log.file with position := position, eof := short, fail := short } }

structure Ready (log : LogFile) : Prop where
  attached : log.attached = true
  isOpen : log.file.isOpen = true
  good : log.file.fail = false
  size : log.file.size = log.file.bytes.length

@[simp] theorem movedTo_movedTo (log : LogFile) (first second : Nat) (wasShort short : Bool) :
    (log.movedTo first wasShort).movedTo second short = log.movedTo second short := rfl

@[simp] theorem bytes_movedTo (log : LogFile) (position : Nat) (short : Bool) :
    (log.movedTo position short).file.bytes = log.file.bytes := rfl

theorem Ready.movedTo (ready : log.Ready) (position : Nat) : (log.movedTo position false).Ready :=
  ⟨ready.attached, ready.isOpen, rfl, ready.size⟩

theorem Ready.fileSize (ready : log.Ready) : log.fileSize = log.file.bytes.length := by
  simp only [LogFile.fileSize, ready.attached, if_true, DatabaseFile.fileSize, ready.size]

/-- Bytes read over zeros. -/
def window (bytes : List UInt8) (start count : Nat) : List UInt8 :=
  (bytes.drop start).take count ++ List.replicate (count - (bytes.length - start)) 0

@[simp] theorem length_window (bytes : List UInt8) (start count : Nat) : (window bytes start count).length = count := by
  simp only [window, List.length_append, List.length_take, List.length_drop, List.length_replicate]
  omega

theorem window_inside {bytes : List UInt8} {start count : Nat} (inside : start + count ≤ bytes.length) :
    window bytes start count = (bytes.drop start).take count := by
  rw [window, show count - (bytes.length - start) = 0 by omega, List.replicate_zero, List.append_nil]

theorem readBytes_ready (ready : log.Ready) (offset count : Nat) :
    ∃ position, log.readBytes offset (List.replicate count 0) =
      (Status.success, window log.file.bytes offset count,
        log.movedTo position (decide (log.file.bytes.length - offset < count))) := by
  obtain ⟨⟨contents, path, _, position, eof, _, size⟩, _, appendOffset⟩ := log
  obtain ⟨rfl, rfl, rfl, -⟩ := ready
  have available : ((contents.getD []).drop offset |>.take count).length = min count ((contents.getD []).length - offset) := by
    simp
  have short : decide (min count ((contents.getD []).length - offset) < count) =
      decide ((contents.getD []).length - offset < count) := by
    simp only [decide_eq_decide]
    omega
  refine ⟨offset + min count ((contents.getD []).length - offset), ?_⟩
  simp only [readBytes, isOpen, DatabaseFile.seekTo, DatabaseFile.readBytes, DatabaseFile.bytes, movedTo, window, Bool.and_self,
    if_not_true, if_false_true, Status.ok_success, Bool.or_self, List.length_replicate, List.drop_replicate, available, short]
  rw [show count - min count ((contents.getD []).length - offset) = count - ((contents.getD []).length - offset) by omega]
  congr!

structure Broken (log : LogFile) : Prop where
  attached : log.attached = true
  isOpen : log.file.isOpen = true
  bad : log.file.fail = true

theorem Ready.broken (ready : log.Ready) (position : Nat) : (log.movedTo position true).Broken :=
  ⟨ready.attached, ready.isOpen, rfl⟩

theorem Ready.open (ready : log.Ready) : log.isOpen = true := by
  simp [LogFile.isOpen, ready.attached, ready.isOpen]

theorem readBytes_broken (broken : log.Broken) (destination : List UInt8) :
    log.readBytes offset destination = (Status.ioError "Failed to seek in file", destination,
      { log with file := { log.file with eof := false } }) := by
  simp [readBytes, isOpen, broken.attached, broken.isOpen, DatabaseFile.seekTo, broken.bad]

/-- Once the stream has failed, no record is read any more. -/
theorem readRecord_broken (broken : log.Broken) :
    log.readRecord offset = (.error (Status.ioError "Failed to seek in file"),
      { log with file := { log.file with eof := false } }) := by
  simp [readRecord, readBytes_broken broken, isOpen, broken.attached, broken.isOpen]

/-- A size that is cut off breaks the stream. -/
theorem readRecord_unsized (ready : log.Ready) (short : log.file.bytes.length < offset + 4) :
    ∃ status position eof, log.readRecord offset = (.error status,
      { log with file := { log.file with position := position, eof := eof, fail := true } }) := by
  obtain ⟨position, first⟩ := readBytes_ready ready offset 4
  rw [decide_eq_true (by omega)] at first
  by_cases zero : decode (window log.file.bytes offset 4) = 0
  · refine ⟨Status.corruption "LogFile: zero-length record", position, true, ?_⟩
    simp only [readRecord, ready.open, first, zero, if_not_true, Status.ok_success, if_true]
    rfl
  · refine ⟨Status.ioError "Failed to seek in file", position, false, ?_⟩
    simp only [readRecord, ready.open, first, zero, readBytes_broken (ready.broken position), if_not_true, if_false,
      Status.ok_success, Status.ok_ioError, Bool.not_false, if_true]
    rfl

theorem readRecord_zero (ready : log.Ready) (sized : offset + 4 ≤ log.file.bytes.length) (zero : field log.file.bytes offset 4 = 0) :
    ∃ position, log.readRecord offset =
      (.error (Status.corruption "LogFile: zero-length record"), log.movedTo position false) := by
  obtain ⟨position, first⟩ := readBytes_ready ready offset 4
  rw [decide_eq_false (by omega), window_inside sized] at first
  refine ⟨position, ?_⟩
  simp only [field] at zero
  simp only [readRecord, ready.open, first, zero, if_not_true, Status.ok_success, if_true]

/-- With its size in the file, a record is decoded from its body, read over zeros. -/
theorem readRecord_sized (ready : log.Ready) (sized : offset + 4 ≤ log.file.bytes.length) {size : Nat}
    (same : field log.file.bytes offset 4 = size) (positive : 0 < size) :
    ∃ position, log.readRecord offset =
      (if 45 + field (window log.file.bytes (offset + 4) size) 29 4 ≤ size then
          .ok (LogRecord.parse (window log.file.bytes (offset + 4) size), padded (4 + size))
        else .error BinaryReader.endOfInput,
        log.movedTo position (decide (log.file.bytes.length - (offset + 4) < size))) := by
  have small : size < 256 ^ 4 := same ▸ field_lt _ _ _
  obtain ⟨middle, first⟩ := readBytes_ready ready offset 4
  rw [decide_eq_false (by omega), window_inside sized] at first
  obtain ⟨position, second⟩ := readBytes_ready (ready.movedTo middle) (offset + 4) size
  rw [bytes_movedTo, movedTo_movedTo] at second
  refine ⟨position, ?_⟩
  have nonzero : ¬ size = 0 := by omega
  simp only [field] at same
  simp only [readRecord, ready.open, first, same, nonzero, second, if_not_true, if_false, Status.ok_success]
  rw [LogRecord.deserialize_framed (by rw [length_window]; exact small), length_window]
  by_cases enough : 45 + field (window log.file.bytes (offset + 4) size) 29 4 ≤ size
  · simp only [enough, if_true]
  · simp only [enough, if_false]

end LogFile

open LogWriter LogFile

@[simp] theorem length_frame (record : LogRecord) : (frame record).length = 49 + record.payload.length := by
  simp only [frame, List.length_append, encode_length, LogRecord.length_serialize]
  omega

theorem frame_size {record : LogRecord} (fits : record.Fits) (tail : List UInt8) :
    field (frame record ++ tail) 0 4 = 45 + record.payload.length := by
  rw [frame, List.append_assoc, field_encode, LogRecord.length_serialize]
  exact Nat.mod_eq_of_lt fits

theorem drop_frame (record : LogRecord) (tail : List UInt8) :
    (frame record ++ tail).drop 4 = record.serialize ++ tail := by
  rw [frame, List.append_assoc]
  exact List.drop_left' (encode_length 4 _)

/-- A body is decoded when it has room for the payload it announces. -/
theorem readRecord_body {log : LogFile} {offset length : Nat} (ready : log.Ready) (sized : offset + 4 ≤ log.file.bytes.length)
    (size : field log.file.bytes offset 4 = 45 + length) {body : List UInt8}
    (framed : window log.file.bytes (offset + 4) (45 + length) = body) (enough : field body 29 4 ≤ length) :
    ∃ position, log.readRecord offset = (.ok (LogRecord.parse body, padded (49 + length)),
      log.movedTo position (decide (log.file.bytes.length - (offset + 4) < 45 + length))) := by
  obtain ⟨position, found⟩ := readRecord_sized ready sized size (by omega)
  rw [framed, if_pos (by omega), show 4 + (45 + length) = 49 + length by omega] at found
  exact ⟨position, found⟩

/-- A whole record is read back, whatever follows it. -/
theorem readRecord_whole {log : LogFile} {offset : Nat} {record : LogRecord} {rest : List UInt8} (ready : log.Ready)
    (fits : record.Fits) (placed : log.file.bytes.drop offset = frame record ++ rest) :
    ∃ position, log.readRecord offset = (.ok (record, padded (49 + record.payload.length)), log.movedTo position false) := by
  have length := congrArg List.length placed
  simp only [List.length_drop, List.length_append, length_frame] at length
  have size : field log.file.bytes offset 4 = 45 + record.payload.length := by
    rw [← Nat.add_zero offset, ← field_drop, placed, frame_size fits]
  have body : window log.file.bytes (offset + 4) (45 + record.payload.length) = record.serialize := by
    rw [window_inside (by omega), ← List.drop_drop, placed, drop_frame,
      List.take_append_of_le_length (by simp), List.take_of_length_le (by simp)]
  have payloadLen := LogRecord.field_payloadLen fits []
  have parsed := LogRecord.parse_serialize fits []
  rw [List.append_nil] at payloadLen parsed
  obtain ⟨position, found⟩ := readRecord_body ready (by omega) size body (Nat.le_of_eq payloadLen)
  rw [parsed, decide_eq_false (by omega)] at found
  exact ⟨position, found⟩

/-- What a cut leaves of a record's body, over zeros. -/
def cutBody (record : LogRecord) (kept : Nat) : List UInt8 :=
  record.serialize.take kept ++ List.replicate (45 + record.payload.length - kept) 0

theorem field_cutBody {record : LogRecord} {kept start width : Nat} (header : start + width ≤ 45)
    (torn : kept ≤ 45 + record.payload.length) :
    field (cutBody record kept) start width = field record.serialize start width % 256 ^ (kept - start) := by
  have length := record.length_serialize
  exact field_cut (by omega) (by omega)

/-- A record cut off behind its size is decoded all the same, and the stream breaks. -/
theorem readRecord_cut {log : LogFile} {offset : Nat} {record : LogRecord} {kept : Nat} (ready : log.Ready)
    (fits : record.Fits) (sized : 4 ≤ kept) (torn : kept < 49 + record.payload.length)
    (placed : log.file.bytes.drop offset = (frame record).take kept) :
    ∃ position, log.readRecord offset = (.ok (LogRecord.parse (cutBody record (kept - 4)),
      padded (49 + record.payload.length)), log.movedTo position true) := by
  have length := congrArg List.length placed
  simp only [List.length_drop, List.length_take, length_frame] at length
  have size : field log.file.bytes offset 4 = 45 + record.payload.length := by
    have whole := frame_size fits []
    rw [List.append_nil] at whole
    rw [← Nat.add_zero offset, ← field_drop, placed, ← whole, field, field, List.drop_zero, List.drop_zero,
      List.take_take, Nat.min_eq_left sized]
  have body : window log.file.bytes (offset + 4) (45 + record.payload.length) = cutBody record (kept - 4) := by
    have behind := drop_frame record []
    rw [List.append_nil, List.append_nil] at behind
    rw [window, ← List.drop_drop, placed, List.drop_take, behind, cutBody, List.take_take, Nat.min_eq_right (by omega),
      show log.file.bytes.length - (offset + 4) = kept - 4 by omega]
  have payloadLen := LogRecord.field_payloadLen fits []
  rw [List.append_nil] at payloadLen
  have enough : field (cutBody record (kept - 4)) 29 4 ≤ record.payload.length := by
    rw [field_cutBody (by omega) (by omega), payloadLen]
    exact Nat.mod_le _ _
  obtain ⟨position, found⟩ := readRecord_body ready (by omega) size body enough
  rw [decide_eq_true (by omega)] at found
  exact ⟨position, found⟩

end Quartz.Wal
