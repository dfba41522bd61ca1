import Quartz.Proofs.LogReading
import Quartz.Proofs.Streams

/-! What opening, appending and flushing leave in the log file. -/

namespace Quartz.Wal
open Storage Serialization Bytes LogWriter LogFile

def walHeader : List UInt8 :=
  WalFileHeader.serialize { magic := kJournalMagic, version := kWalFormatVersion, pageSize := kPageSize }

@[simp] theorem length_walHeader : walHeader.length = 16 := rfl

namespace LogFile

variable {log : LogFile}

theorem Ready.stream (ready : log.Ready) : Over log.file log.file.bytes := ⟨ready.isOpen, ready.good, rfl, ready.size⟩

theorem Ready.of_stream {bytes : List UInt8} (attached : log.attached = true) (stream : Over log.file bytes) : log.Ready :=
  ⟨attached, stream.isOpen, stream.good, by rw [stream.holds, stream.size]⟩

/-- Appending writes the data and its padding at the append offset. -/
theorem append_ready (ready : log.Ready) (aligned : log.appendOffset % 8 = 0) {data : List UInt8} (some : data ≠ []) :
    ∃ after, log.append data = (Status.success, after) ∧ after.Ready ∧
      after.appendOffset = log.appendOffset + padded data.length ∧
      after.file.bytes = Splice.write 0 log.file.bytes log.appendOffset
        (data ++ List.replicate (padded data.length - data.length) 0) := by
  have attached := ready.attached
  obtain ⟨sought, seek, stream, position, clean⟩ := ready.stream.seekTo log.appendOffset
  obtain ⟨written, write, stream, position', clean⟩ := stream.writeBytes clean some
  rw [position] at stream position'
  have padding := padded_eq data.length
  by_cases whole : data.length % 8 = 0
  · refine ⟨{ log with file := written, appendOffset := log.appendOffset + data.length }, ?_, .of_stream attached stream, ?_, ?_⟩
    · have remainder : (log.appendOffset + data.length) % 8 = 0 := by omega
      simp [append, ready.open, seek, write, alignAppendOffset, kLogRecordAlignment, remainder]
    · simp only
      omega
    · rw [stream.holds, show padded data.length - data.length = 0 by omega, List.replicate_zero, List.append_nil]
  · have remainder : (log.appendOffset + data.length) % 8 = data.length % 8 := by omega
    obtain ⟨aligned, pad, stream, -, -⟩ := stream.writeBytes clean
      (show List.replicate (8 - data.length % 8) 0 ≠ [] by simp; omega)
    rw [position', Splice.write_write] at stream
    refine ⟨{ log with file := aligned, appendOffset := log.appendOffset + padded data.length }, ?_, .of_stream attached stream, rfl, ?_⟩
    · simp only [append, ready.open, seek, write, alignAppendOffset, kLogRecordAlignment, remainder, whole, pad, if_not_true, if_false,
        Status.ok_success]
      rw [show log.appendOffset + data.length + (8 - data.length % 8) = log.appendOffset + padded data.length by omega]
    · rw [stream.holds, show padded data.length - data.length = 8 - data.length % 8 by omega]

theorem readHeader_ready (ready : log.Ready) {rest : List UInt8} (placed : log.file.bytes = walHeader ++ rest) :
    ∃ position, log.readHeader = (Status.success, WalFileHeader.ofBytes walHeader, log.movedTo position false) := by
  have enough : ¬ log.file.fileSize < WalFileHeader.kSize := by
    rw [DatabaseFile.fileSize, ready.size, placed]
    simp [WalFileHeader.kSize]
  obtain ⟨position, read⟩ := readBytes_ready ready 0 16
  rw [window_inside (by rw [placed]; simp), List.drop_zero, placed,
    show decide ((walHeader ++ rest).length - 0 < 16) = false by simp, List.take_left' length_walHeader] at read
  have blank : WalFileHeader.serialize {} = List.replicate 16 0 := rfl
  simp only [readBytes, ready.open, if_not_true] at read
  obtain ⟨sought, seek, -⟩ := ready.stream.seekTo 0
  simp only [seek, Status.ok_success, if_not_true, Prod.mk.injEq] at read
  obtain ⟨status, bytes, moved⟩ := read
  refine ⟨position, ?_⟩
  simp only [readHeader, ready.open, enough, seek, blank, Status.ok_success, if_not_true, if_false, status, bytes, moved]

theorem validate_ready (ready : log.Ready) {rest : List UInt8} (placed : log.file.bytes = walHeader ++ rest) :
    ∃ position, log.validate = (Status.success, log.movedTo position false) := by
  obtain ⟨position, header⟩ := readHeader_ready ready placed
  refine ⟨position, ?_⟩
  simp only [validate, ready.open, header, Status.ok_success, if_not_true]
  rfl

theorem open_closed {rest : List UInt8} (closed : log.file.isOpen = false) (placed : log.file.contents = some (walHeader ++ rest))
    (path : String) :
    ∃ after, log.openLog path true = (Status.success, after) ∧ after.Ready ∧ after.file.bytes = walHeader ++ rest := by
  have opens : log.file.openFile path true = (Status.success, { log.file with
      path := path, isOpen := true, position := 0, eof := false, fail := false, size := (walHeader ++ rest).length }) := by
    simp only [DatabaseFile.openFile, closed, if_false_true, placed]
  obtain ⟨opened, same⟩ : ∃ opened : LogFile, opened = { log with
      file := { log.file with
        path := path, isOpen := true, position := 0, eof := false, fail := false, size := (walHeader ++ rest).length }
      attached := true } := ⟨_, rfl⟩
  have bytes : opened.file.bytes = walHeader ++ rest := by
    rw [same, DatabaseFile.bytes]
    simp only [placed, Option.getD_some]
  have ready : opened.Ready := by
    refine ⟨by rw [same], by rw [same], by rw [same], ?_⟩
    rw [bytes, same]
  obtain ⟨position, header⟩ := readHeader_ready ready bytes
  refine ⟨{ opened.movedTo position false with appendOffset := (opened.movedTo position false).file.fileSize }, ?_, ?_, bytes⟩
  · simp only [openLog, opens, ← same, header, Status.ok_success, if_not_true]
  · have moved := ready.movedTo position
    exact ⟨moved.attached, moved.isOpen, moved.good, moved.size⟩

theorem create_closed (closed : log.file.isOpen = false) (path : String) :
    ∃ after, log.create path = (Status.success, after) ∧ after.Ready ∧
      after.file.bytes = walHeader ++ log.file.bytes.drop 16 ∧ after.appendOffset = 16 := by
  have opened : ∃ file, log.file.openFile path true = (Status.success, file) ∧ Over file log.file.bytes := by
    cases found : log.file.contents with
    | none | some bytes =>
      refine ⟨_, by simp [DatabaseFile.openFile, closed, found]; rfl, ⟨rfl, rfl, ?_, ?_⟩⟩ <;>
        simp [DatabaseFile.bytes, found]
  obtain ⟨file, opens, stream⟩ := opened
  obtain ⟨sought, seek, stream, position, clean⟩ := stream.seekTo 0
  obtain ⟨written, write, stream, -, -⟩ := stream.writeBytes clean (show walHeader ≠ [] by decide)
  refine ⟨{ log with file := written, attached := true, appendOffset := 16 }, ?_, .of_stream rfl stream, ?_, rfl⟩
  · simp only [create, opens, Status.ok_success, if_not_true, writeHeader, seek]
    rw [walHeader] at write
    rw [write]
    rfl
  · rw [stream.holds, position, Splice.write_inside (Nat.zero_le _)]
    simp

end LogFile

namespace LogManager

variable {manager : LogManager}

theorem initialize_create (new : manager.initialized = false) (closed : manager.file.file.isOpen = false) (path : String) :
    ∃ after, manager.initializeLog path true = (Status.success, after) ∧ after.initialized = true ∧
      after.file.Ready ∧ after.file.file.bytes = walHeader ++ manager.file.file.bytes.drop 16 ∧
      after.file.appendOffset = 16 ∧ after.writer = manager.writer ∧ after.reader = {} := by
  obtain ⟨created, create, ready, bytes, offset⟩ := create_closed closed path
  obtain ⟨position, validate⟩ := validate_ready ready bytes
  refine ⟨⟨true, created.movedTo position false, manager.writer, {}⟩, ?_, rfl, ready.movedTo position, bytes, offset,
    rfl, rfl⟩
  simp [initializeLog, new, create, validate]
  rfl

theorem validate_laid (initialized : manager.initialized = true) (ready : manager.file.Ready) {records : List LogRecord}
    {rest : List UInt8} (bytes : manager.file.file.bytes = walHeader ++ rest) (laid : Laid records rest)
    (ordered : Ordered .invalid records) : manager.validate.1 = Status.success := by
  obtain ⟨position, validated⟩ := validate_ready ready bytes
  have placed : Laid records ((manager.file.movedTo position false).file.bytes.drop WalFileHeader.kSize) := by
    rw [bytes_movedTo, bytes, show WalFileHeader.kSize = walHeader.length from rfl, List.drop_left]
    exact laid
  have walked := validateFrom_laid placed (ready.movedTo position) ordered
  simp [LogManager.validate, initialized, validated, walked]

end LogManager

namespace LogWriter

variable {writer : LogWriter} {record : LogRecord} {framed : LogRecord → List UInt8}

/-- The record passes the checks under the number it is to get, and the buffer has room for it. -/
structure Accepts (writer : LogWriter) (record : LogRecord) : Prop where
  valid : ({ record with lsn := writer.nextLsn } : LogRecord).Valid
  room : writer.buffer.bytes.length + (49 + record.payload.length) ≤ writer.buffer.capacity

theorem appendRecord_nextLsn (writer : LogWriter) (record : LogRecord) :
    (writer.appendRecord record framed).2.nextLsn = writer.nextLsn.next := by
  unfold appendRecord
  simp only
  split <;> rfl

theorem appendRecord_currentLsn (writer : LogWriter) (record : LogRecord) :
    (writer.appendRecord record framed).2.currentLsn = writer.nextLsn := by
  unfold appendRecord
  simp only
  split <;> rfl

/-- An append is refused and leaves the buffer, or the record takes the next sequence number, passes the
checks and goes behind the buffered ones. -/
theorem appendRecord_cases (writer : LogWriter) (record : LogRecord) (framed : LogRecord → List UInt8)  :
    (writer.appendRecord record framed).1.ok = false ∧ (writer.appendRecord record framed).2.buffer = writer.buffer ∨
      ({ record with lsn := writer.nextLsn } : LogRecord).Valid ∧
        writer.buffer.bytes.length + (framed { record with lsn := writer.nextLsn }).length ≤ writer.buffer.capacity ∧
        writer.appendRecord record framed = (Status.success, { writer with
          currentLsn := writer.nextLsn, nextLsn := writer.nextLsn.next
          buffer := { writer.buffer with
            bytes := writer.buffer.bytes ++ framed { record with lsn := writer.nextLsn } } }) := by
  unfold appendRecord
  cases checked : (LogValidator.validateRecordHeader { record with lsn := writer.nextLsn }).ok with
  | false => exact .inl (by simp [checked])
  | true =>
    have valid := LogRecord.validateRecordHeader_iff.mp checked
    simp only [checked, if_not_true, writeRecordToBuffer, LogBuffer.append]
    by_cases full : writer.buffer.bytes.length + (framed { record with lsn := writer.nextLsn }).length >
        writer.buffer.capacity
    · rw [if_pos full]
      exact .inl ⟨rfl, rfl⟩
    · rw [if_neg full]
      exact .inr ⟨valid, Nat.not_lt.mp full, rfl⟩

theorem appendRecord_full (valid : ({ record with lsn := writer.nextLsn } : LogRecord).Valid)
    (full : writer.buffer.capacity < writer.buffer.bytes.length + (49 + record.payload.length)) :
    (writer.appendRecord record).1 = Status.outOfMemory "LogBuffer: capacity exceeded" := by
  have longer : writer.buffer.bytes.length + (frame { record with lsn := writer.nextLsn }).length >
      writer.buffer.capacity := by
    rw [length_frame]
    exact full
  simp only [appendRecord, LogRecord.validateRecordHeader_iff.mpr valid, if_not_true, writeRecordToBuffer, LogBuffer.append, longer,
    if_true]

section
variable (sized : (framed { record with lsn := writer.nextLsn }).length = 49 + record.payload.length)
include sized

/-- What an append does with a record that is framed in its length. -/
theorem appendRecord_sized (accepted : (writer.appendRecord record framed).1.ok = true) :
    writer.Accepts record ∧
      (writer.appendRecord record framed).2 = { writer with
        currentLsn := writer.nextLsn, nextLsn := writer.nextLsn.next
        buffer := { writer.buffer with
          bytes := writer.buffer.bytes ++ framed { record with lsn := writer.nextLsn } } } := by
  rcases writer.appendRecord_cases record framed with ⟨refused, -⟩ | ⟨valid, room, done⟩
  · rw [refused] at accepted
    cases accepted
  · rw [sized] at room
    exact ⟨⟨valid, room⟩, by rw [done]⟩

theorem appendRecord_sized_iff : (writer.appendRecord record framed).1.ok = true ↔ writer.Accepts record := by
  refine ⟨fun accepted => (appendRecord_sized sized accepted).1, fun accepts => ?_⟩
  have room := accepts.room
  have full : ¬ writer.buffer.bytes.length + (framed { record with lsn := writer.nextLsn }).length >
      writer.buffer.capacity := by
    rw [sized]
    exact Nat.not_lt.mpr room
  simp [appendRecord, LogRecord.validateRecordHeader_iff.mpr accepts.valid, writeRecordToBuffer, LogBuffer.append, full]

end

theorem appendRecord_ok (accepted : (writer.appendRecord record).1.ok = true) :
    ({ record with lsn := writer.nextLsn } : LogRecord).Valid ∧
      writer.buffer.bytes.length + (49 + record.payload.length) ≤ writer.buffer.capacity ∧
      (writer.appendRecord record).2 = { writer with
        currentLsn := writer.nextLsn, nextLsn := writer.nextLsn.next
        buffer := { writer.buffer with bytes := writer.buffer.bytes ++ frame { record with lsn := writer.nextLsn } } } := by
  obtain ⟨accepts, after⟩ := appendRecord_sized (length_frame _) accepted
  exact ⟨accepts.valid, accepts.room, after⟩

theorem appendRecord_accepts (valid : ({ record with lsn := writer.nextLsn } : LogRecord).Valid)
    (room : writer.buffer.bytes.length + (49 + record.payload.length) ≤ writer.buffer.capacity) :
    (writer.appendRecord record).1 = Status.success := by
  rcases writer.appendRecord_cases record frame with ⟨refused, -⟩ | ⟨-, -, done⟩
  · rw [(appendRecord_sized_iff (length_frame _)).mpr ⟨valid, room⟩] at refused
    cases refused
  · rw [done]

/-- Flushing moves the buffer to the file, padded as one block. -/
theorem flush_ready (writer : LogWriter) {log : LogFile} (ready : log.Ready) (inside : log.appendOffset ≤ log.file.bytes.length)
    (aligned : log.appendOffset % 8 = 0) :
    ∃ after, writer.flush log =
        (Status.success, { writer with
          buffer := { writer.buffer with bytes := [] }, lastFlushedLsn := writer.currentLsn }, after) ∧
      after.Ready ∧ after.appendOffset = log.appendOffset + padded writer.buffer.bytes.length ∧
      after.file.bytes = Splice.write 0 log.file.bytes log.appendOffset (writer.buffer.bytes ++
        List.replicate (padded writer.buffer.bytes.length - writer.buffer.bytes.length) 0) := by
  have flushes : ∀ {log : LogFile}, log.Ready → log.flush = (Status.success, log) := by
    intro log ready
    rw [LogFile.flush, if_neg (by simp [ready.attached]), DatabaseFile.flush, if_neg (by simp [ready.isOpen]),
      if_neg (by simp [ready.good])]
  by_cases empty : writer.buffer.bytes = []
  · have same : ({ writer.buffer with bytes := [] } : LogBuffer) = writer.buffer := by rw [← empty]
    refine ⟨log, ?_, ready, by simp [empty, padded], ?_⟩
    · rw [same]
      simp [flush, flushBufferToFile, empty, flushes ready]
    · simp [empty, padded, Splice.write_inside inside]
  · obtain ⟨after, append, afterReady, offset, bytes⟩ := append_ready ready aligned empty
    refine ⟨after, ?_, afterReady, offset, bytes⟩
    simp [flush, flushBufferToFile, empty, append, flushes afterReady]

end LogWriter
end Quartz.Wal
