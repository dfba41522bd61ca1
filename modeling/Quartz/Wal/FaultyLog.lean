import Quartz.Wal.LogManager

/-! The log over a file whose operations may fail. An operation that fails reports it and does not
touch the file; the stream may keep the failure in its flag, and then fails from there on. -/

namespace Quartz

namespace Storage.DatabaseFile

/-- What is left of a stream by an operation that fails. -/
def struck (file : DatabaseFile) (sticks : Bool) : DatabaseFile := { file with fail := file.fail || sticks }

/-- The stream cannot be opened. -/
def openFailing (file : DatabaseFile) (path : String) (create : Bool) : Status × DatabaseFile :=
  if file.isOpen then (Status.ioError ("File already open: " ++ file.path), file)
  else
    let message := if create && file.contents.isNone then "Failed to create file: " else "Failed to open file: "
    (Status.ioError (message ++ path), { file with path := path, fail := true })

/-- The branch of `close` for a stream that is open after it was closed. The standard library closes a stream also when
that fails, so it takes no such branch; it stays because the source has it, and what is proved with it holds for either. -/
def closeFailing (file : DatabaseFile) : Status × DatabaseFile :=
  if !file.isOpen then (Status.success, file)
  else (Status.ioError "Failed to close file", { file with path := "", size := 0 })

end Storage.DatabaseFile

namespace Wal
open Storage

/-- The file operations of a flush. -/
inductive FlushStep where
  | seek
  | write
  | padding
  | sync
  deriving DecidableEq, Repr

/-- The operation that fails, and whether the stream keeps the failure. -/
structure FlushFault where
  step : FlushStep
  sticks : Bool := false
  deriving DecidableEq, Repr

/-- An operation of a flush under a fault. -/
def guarded (fault : Option FlushFault) (step : FlushStep) (message : String) (file : DatabaseFile)
    (operation : DatabaseFile → Status × DatabaseFile) : Status × DatabaseFile :=
  match fault with
  | none => operation file
  | some fault => if fault.step = step then (Status.ioError message, file.struck fault.sticks) else operation file

namespace LogFile

def alignAppendOffsetUnder (log : LogFile) (fault : Option FlushFault) : Status × LogFile :=
  let remainder := log.appendOffset % kLogRecordAlignment
  if remainder = 0 then (Status.success, log)
  else
    let padding := kLogRecordAlignment - remainder
    let (status, file) := guarded fault .padding "Failed to write to file" log.file (·.writeBytes (List.replicate padding 0))
    if !status.ok then (status, { log with file := file })
    else (Status.success, { log with file := file, appendOffset := log.appendOffset + padding })

def appendUnder (log : LogFile) (fault : Option FlushFault) (data : List UInt8) : Status × LogFile :=
  if !log.isOpen then (Status.ioError "LogFile: file not open", log)
  else
    let (status, file) := guarded fault .seek "Failed to seek in file" log.file (·.seekTo log.appendOffset)
    if !status.ok then (status, { log with file := file })
    else
      let (status, file) := guarded fault .write "Failed to write to file" file (·.writeBytes data)
      if !status.ok then (status, { log with file := file })
      else alignAppendOffsetUnder { log with file := file, appendOffset := log.appendOffset + data.length } fault

def flushUnder (log : LogFile) (fault : Option FlushFault) : Status × LogFile :=
  if !log.attached then (Status.ioError "LogFile: file not open", log)
  else
    let (status, file) := guarded fault .sync "Failed to flush file" log.file (·.flush)
    (status, { log with file := file })

/-- The file is let go of, closed or not. -/
def closeUnder (log : LogFile) (fails : Bool) : Status × LogFile :=
  if !log.attached then (Status.success, log)
  else
    let (status, file) := if fails then log.file.closeFailing else log.file.close
    (status, { file := file, attached := false, appendOffset := WalFileHeader.kSize })

end LogFile

namespace LogWriter

def flushBufferToFileUnder (writer : LogWriter) (fault : Option FlushFault) (file : LogFile) :
    Status × LogWriter × LogFile :=
  if writer.buffer.bytes.isEmpty then (Status.success, writer, file)
  else
    let (status, file) := file.appendUnder fault writer.buffer.bytes
    if !status.ok then (status, writer, file)
    else (Status.success, { writer with buffer := { writer.buffer with bytes := [] } }, file)

def flushUnder (writer : LogWriter) (fault : Option FlushFault) (file : LogFile) : Status × LogWriter × LogFile :=
  let (status, writer, file) := writer.flushBufferToFileUnder fault file
  if !status.ok then (status, writer, file)
  else
    let (status, file) := file.flushUnder fault
    if !status.ok then (status, writer, file)
    else (Status.success, { writer with lastFlushedLsn := writer.currentLsn }, file)

end LogWriter

/-- Where the initialization of a log may fail: its file cannot be opened, or the header in it
cannot be written or read. -/
inductive InitializeFault where
  | openFile
  | header
  deriving DecidableEq, Repr

namespace LogManager

def initializeUnder (manager : LogManager) (fault : Option InitializeFault) (path : String) (create : Bool) :
    Status × LogManager :=
  match fault with
  | none => manager.initializeLog path create
  | some fault =>
    if manager.initialized then (Status.invalidArgument "LogManager: already initialized", manager)
    else
      let (status, file) :=
        match fault with
        | .openFile => manager.file.file.openFailing path true
        | .header => manager.file.file.openFile path true
      let log := { manager.file with file := file, attached := true }
      if !status.ok then (status, { manager with file := log })
      else
        (Status.ioError "Failed to write to file",
          { manager with file := { log with file := file.struck true, appendOffset := WalFileHeader.kSize } })

def flushUnder (manager : LogManager) (fault : Option FlushFault) : Status × LogManager :=
  if !manager.initialized then (Status.invalidArgument "LogManager: not initialized", manager)
  else
    let (status, writer, file) := manager.writer.flushUnder fault manager.file
    (status, { manager with writer := writer, file := file })

def shutdownUnder (manager : LogManager) (fault : Option FlushFault) (closeFails : Bool) : Status × LogManager :=
  if !manager.initialized then (Status.success, manager)
  else
    let (status, manager) := manager.flushUnder fault
    if !status.ok then (status, manager)
    else
      let (status, file) := manager.file.closeUnder closeFails
      (status, { manager with file := file, initialized := false })

/-! Without a fault each of them is the operation of the log itself. -/

@[simp] theorem flushUnder_none (manager : LogManager) : manager.flushUnder none = manager.flush := rfl

@[simp] theorem shutdownUnder_none (manager : LogManager) : manager.shutdownUnder none false = manager.shutdown := rfl

@[simp] theorem initializeUnder_none (manager : LogManager) (path : String) (create : Bool) :
    manager.initializeUnder none path create = manager.initializeLog path create := rfl

end LogManager
end Wal
end Quartz
