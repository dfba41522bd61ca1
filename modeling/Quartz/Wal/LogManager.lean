import Quartz.Lib.Fallible
import Quartz.Serialization.BinaryWriter
import Quartz.Wal.LogFile

/-! The log manager: a writer that buffers framed records, a reader that walks them, and
the file both share. -/

namespace Quartz.Wal
open Storage Serialization

structure LogBuffer where
  bytes : List UInt8 := []
  capacity : Nat := 64 * 1024
  deriving DecidableEq, Repr

/-- A capacity of zero stands for the default. -/
def LogBuffer.make (capacity : Nat) : LogBuffer :=
  { capacity := if capacity > 0 then capacity else 64 * 1024 }

def LogBuffer.append (buffer : LogBuffer) (data : List UInt8) : Status × LogBuffer :=
  if buffer.bytes.length + data.length > buffer.capacity then
    (Status.outOfMemory "LogBuffer: capacity exceeded", buffer)
  else (Status.success, { buffer with bytes := buffer.bytes ++ data })

structure LogWriter where
  buffer : LogBuffer := {}
  nextLsn : LogSequenceNumber := .initial
  currentLsn : LogSequenceNumber := .invalid
  lastFlushedLsn : LogSequenceNumber := .invalid
  deriving DecidableEq, Repr

namespace LogWriter

def make (bufferCapacity : Nat) : LogWriter := { buffer := LogBuffer.make bufferCapacity }

/-- A record behind its size, as a writer that appends frames it. -/
def frame (record : LogRecord) : List UInt8 :=
  Bytes.encode 4 record.serialize.length ++ record.serialize

/-- The frame as the writer leaves it: room for the size, the record, and then the size of what was
written in that room. -/
def writtenFrame (record : LogRecord) : List UInt8 :=
  let built := do
    let sized ← (BinaryWriter.startingOn .fresh).writeBlocks [Bytes.encode 4 0]
    let bodyStart := sized.2.tell
    let recorded ← sized.2.writeBlocks record.blocks
    let placed ← recorded.2.overwriteAt 0 (Bytes.encode 4 (recorded.2.tell - bodyStart))
    return placed.2.buffer.contents
  built.getD []

/-- Results that take the writer to append leave out how a record is framed. -/
def writeRecordToBuffer (writer : LogWriter) (record : LogRecord) (framed : LogRecord → List UInt8 := frame) :
    Status × LogWriter :=
  let (status, buffer) := writer.buffer.append (framed record)
  (status, { writer with buffer := buffer })

/-- The sequence number is taken before the record is checked. -/
def appendRecord (writer : LogWriter) (record : LogRecord) (framed : LogRecord → List UInt8 := frame) :
    Status × LogWriter :=
  let record := { record with lsn := writer.nextLsn }
  let writer := { writer with currentLsn := writer.nextLsn, nextLsn := writer.nextLsn.next }
  let status := LogValidator.validateRecordHeader record
  if !status.ok then (status, writer) else writer.writeRecordToBuffer record framed

def appendBatch (writer : LogWriter) (records : List LogRecord) (framed : LogRecord → List UInt8 := frame) :
    Status × LogWriter :=
  match records with
  | [] => (Status.success, writer)
  | record :: rest =>
    let (status, writer) := writer.appendRecord record framed
    if !status.ok then (status, writer) else writer.appendBatch rest framed

def flushBufferToFile (writer : LogWriter) (file : LogFile) : Status × LogWriter × LogFile :=
  if writer.buffer.bytes.isEmpty then (Status.success, writer, file)
  else
    let (status, file) := file.append writer.buffer.bytes
    if !status.ok then (status, writer, file)
    else (Status.success, { writer with buffer := { writer.buffer with bytes := [] } }, file)

def flush (writer : LogWriter) (file : LogFile) : Status × LogWriter × LogFile :=
  let (status, writer, file) := writer.flushBufferToFile file
  if !status.ok then (status, writer, file)
  else
    let (status, file) := file.flush
    if !status.ok then (status, writer, file)
    else (Status.success, { writer with lastFlushedLsn := writer.currentLsn }, file)

/-- The scan of `restoreFromFile`: the last sequence number before the end or the first
unreadable record. Every record read moves the offset, so the file's size is enough fuel. -/
def lastLsn : Nat → LogFile → Nat → LogSequenceNumber → LogSequenceNumber × LogFile
  | 0, file, _, found => (found, file)
  | fuel + 1, file, offset, found =>
    if offset < file.fileSize then
      match file.readRecord offset with
      | (.error _, file) => (found, file)
      | (.ok (record, bytesRead), file) => lastLsn fuel file (offset + bytesRead) record.lsn
    else (found, file)

def restoreFromFile (writer : LogWriter) (file : LogFile) : Status × LogWriter × LogFile :=
  let (maxLsn, file) := lastLsn file.fileSize file WalFileHeader.kSize .invalid
  if maxLsn.isValid then
    (Status.success, { writer with currentLsn := maxLsn, nextLsn := maxLsn.next, lastFlushedLsn := maxLsn }, file)
  else (Status.success, writer, file)

end LogWriter

structure LogReader where
  offset : Nat := WalFileHeader.kSize
  lastLsn : LogSequenceNumber := {}
  endOfLog : Bool := false
  deriving DecidableEq, Repr

namespace LogReader

def rewind (_ : LogReader) : LogReader := { offset := WalFileHeader.kSize, lastLsn := .invalid, endOfLog := false }

def readNext (reader : LogReader) (file : LogFile) : Except Status LogRecord × LogReader × LogFile :=
  if reader.endOfLog then (.error (Status.invalidArgument "LogReader: end of log"), reader, file)
  else if reader.offset ≥ file.fileSize then
    (.error (Status.invalidArgument "LogReader: end of log"), { reader with endOfLog := true }, file)
  else
    match file.readRecord reader.offset with
    | (.error status, file) => (.error status, { reader with endOfLog := true }, file)
    | (.ok (record, bytesRead), file) =>
      let status := LogValidator.validateRecord record
      if !status.ok then (.error status, reader, file)
      else
        let status := LogValidator.validateLsnOrdering reader.lastLsn record.lsn
        if !status.ok then (.error status, reader, file)
        else (.ok record, { reader with lastLsn := record.lsn, offset := reader.offset + bytesRead }, file)

/-- The loop of `seekLsn`; every record read moves the offset. -/
def seekFrom (lsn : LogSequenceNumber) : Nat → LogReader → LogFile → Status × LogReader × LogFile
  | 0, reader, file => (Status.invalidArgument "LogReader: LSN not found", reader, file)
  | fuel + 1, reader, file =>
    if reader.endOfLog then (Status.invalidArgument "LogReader: LSN not found", reader, file)
    else
      match reader.readNext file with
      | (.error status, after, file) =>
        if after.endOfLog then (Status.invalidArgument "LogReader: LSN not found", after, file)
        else (status, after, file)
      | (.ok record, after, file) =>
        if record.lsn = lsn then
          let previous := if lsn.value > 1 then ⟨lsn.value - 1⟩ else LogSequenceNumber.invalid
          (Status.success, ⟨reader.offset, previous, false⟩, file)
        else if record.lsn.value > lsn.value then (Status.invalidArgument "LogReader: LSN not found", after, file)
        else seekFrom lsn fuel after file

def seekLsn (reader : LogReader) (file : LogFile) (lsn : LogSequenceNumber) : Status × LogReader × LogFile :=
  seekFrom lsn (file.fileSize + 1) reader.rewind file

end LogReader

structure LogManager where
  initialized : Bool := false
  file : LogFile := {}
  writer : LogWriter := {}
  reader : LogReader := {}
  deriving DecidableEq, Repr

namespace LogManager
open LogWriter

def initializeLog (manager : LogManager) (path : String) (create : Bool) : Status × LogManager :=
  if manager.initialized then (Status.invalidArgument "LogManager: already initialized", manager)
  else
    let (status, file) := if create then manager.file.create path else manager.file.openLog path true
    if !status.ok then (status, { manager with file := file })
    else
      let (status, file) := file.validate
      if !status.ok then (status, { manager with file := file })
      else
        let (status, writer, file) :=
          if !create && file.fileSize > WalFileHeader.kSize then manager.writer.restoreFromFile file
          else (Status.success, manager.writer, file)
        if !status.ok then (status, { manager with file := file, writer := writer })
        else (Status.success, ⟨true, file, writer, manager.reader.rewind⟩)

def append (manager : LogManager) (record : LogRecord) (framed : LogRecord → List UInt8 := frame) :
    Status × LogManager :=
  if !manager.initialized then (Status.invalidArgument "LogManager: not initialized", manager)
  else
    let (status, writer) := manager.writer.appendRecord record framed
    (status, { manager with writer := writer })

def appendBatch (manager : LogManager) (records : List LogRecord) (framed : LogRecord → List UInt8 := frame) :
    Status × LogManager :=
  if !manager.initialized then (Status.invalidArgument "LogManager: not initialized", manager)
  else
    let (status, writer) := manager.writer.appendBatch records framed
    (status, { manager with writer := writer })

def flush (manager : LogManager) : Status × LogManager :=
  if !manager.initialized then (Status.invalidArgument "LogManager: not initialized", manager)
  else
    let (status, writer, file) := manager.writer.flush manager.file
    (status, { manager with writer := writer, file := file })

def shutdown (manager : LogManager) : Status × LogManager :=
  if !manager.initialized then (Status.success, manager)
  else
    let (status, manager) := manager.flush
    if !status.ok then (status, manager)
    else
      let (status, file) := manager.file.close
      (status, { manager with file := file, initialized := false })

def readNext (manager : LogManager) : Except Status LogRecord × LogManager :=
  if !manager.initialized then (.error (Status.invalidArgument "LogManager: not initialized"), manager)
  else
    let (result, reader, file) := manager.reader.readNext manager.file
    (result, { manager with reader := reader, file := file })

def rewindReader (manager : LogManager) : Status × LogManager :=
  if !manager.initialized then (Status.invalidArgument "LogManager: not initialized", manager)
  else (Status.success, { manager with reader := manager.reader.rewind })

/-- The walk of `validate`; every record read moves the offset. -/
def validateFrom : Nat → LogFile → Nat → LogSequenceNumber → Status × LogFile
  | 0, file, _, _ => (Status.success, file)
  | fuel + 1, file, offset, previous =>
    if offset < file.fileSize then
      match file.readRecord offset with
      | (.error status, file) => (status, file)
      | (.ok (record, bytesRead), file) =>
        let status := LogValidator.validateRecord record
        if !status.ok then (status, file)
        else
          let status := LogValidator.validateLsnOrdering previous record.lsn
          if !status.ok then (status, file)
          else validateFrom fuel file (offset + bytesRead) record.lsn
    else (Status.success, file)

def validate (manager : LogManager) : Status × LogManager :=
  if !manager.initialized then (Status.invalidArgument "LogManager: not initialized", manager)
  else
    let (status, file) := manager.file.validate
    if !status.ok then (status, { manager with file := file })
    else
      let (status, file) := validateFrom file.fileSize file WalFileHeader.kSize .invalid
      (status, { manager with file := file })

def restoreWriterState (manager : LogManager) : Status × LogManager :=
  if !manager.initialized then (Status.invalidArgument "LogManager: not initialized", manager)
  else
    let (status, writer, file) := manager.writer.restoreFromFile manager.file
    (status, { manager with writer := writer, file := file })

/-- The loop that reads records up to the first that cannot be read, or on which the body
fails. Every record read moves the offset, so one more than the file's size is enough fuel. -/
def forRecords {σ ε : Type} (body : LogRecord → Fallible σ ε Unit) :
    Nat → LogManager → σ → (Except ε Unit × σ) × LogManager
  | 0, manager, state => ((.ok (), state), manager)
  | fuel + 1, manager, state =>
    match manager.readNext with
    | (.error _, manager) => ((.ok (), state), manager)
    | (.ok record, manager) =>
      match (body record).run state with
      | (.error failure, state) => ((.error failure, state), manager)
      | (.ok _, state) => forRecords body fuel manager state

end LogManager
end Quartz.Wal
