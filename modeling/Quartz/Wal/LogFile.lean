import Quartz.Storage.DatabaseFile
import Quartz.Wal.LogRecord

/-! The write-ahead log file: a header, then framed records on eight-byte boundaries. -/

namespace Quartz.Wal
open Storage Serialization

def kJournalMagic : UInt32 := 0x4A524E35
def kPageSize : UInt32 := 4096

structure WalFileHeader where
  magic : UInt32 := 0
  version : UInt32 := 0
  pageSize : UInt32 := 0
  reserved : UInt32 := 0
  deriving DecidableEq, Repr

namespace WalFileHeader

def kSize : Nat := 16

def serialize (header : WalFileHeader) : List UInt8 :=
  Bytes.encode 4 header.magic.toNat ++ Bytes.encode 4 header.version.toNat ++
    Bytes.encode 4 header.pageSize.toNat ++ Bytes.encode 4 header.reserved.toNat

def ofBytes (bytes : List UInt8) : WalFileHeader where
  magic := UInt32.ofNat (Bytes.decode (bytes.take 4))
  version := UInt32.ofNat (Bytes.decode ((bytes.drop 4).take 4))
  pageSize := UInt32.ofNat (Bytes.decode ((bytes.drop 8).take 4))
  reserved := UInt32.ofNat (Bytes.decode ((bytes.drop 12).take 4))

end WalFileHeader

/-- `attached` is false once the file pointer is null. -/
structure LogFile where
  file : DatabaseFile := {}
  attached : Bool := true
  appendOffset : Nat := WalFileHeader.kSize
  deriving DecidableEq, Repr

namespace LogFile

def isOpen (log : LogFile) : Bool := log.attached && log.file.isOpen

def fileSize (log : LogFile) : Nat := if log.attached then log.file.fileSize else 0

def writeHeader (log : LogFile) : Status × LogFile :=
  let header : WalFileHeader := { magic := kJournalMagic, version := kWalFormatVersion, pageSize := kPageSize }
  let (status, file) := log.file.seekTo 0
  if !status.ok then (status, { log with file := file })
  else
    let (status, file) := file.writeBytes header.serialize
    (status, { log with file := file })

def readHeader (log : LogFile) : Status × WalFileHeader × LogFile :=
  if !log.isOpen then (Status.ioError "LogFile: file not open", {}, log)
  else if log.file.fileSize < WalFileHeader.kSize then
    (Status.corruption "LogFile: file too small for header", {}, log)
  else
    let (status, file) := log.file.seekTo 0
    if !status.ok then (status, {}, { log with file := file })
    else
      let (status, bytes, file) := file.readBytes (WalFileHeader.serialize {})
      (status, WalFileHeader.ofBytes bytes, { log with file := file })

def create (log : LogFile) (path : String) : Status × LogFile :=
  let (status, file) := log.file.openFile path true
  let log := { log with file := file, attached := true }
  if !status.ok then (status, log)
  else writeHeader { log with appendOffset := WalFileHeader.kSize }

def openLog (log : LogFile) (path : String) (createIfMissing : Bool) : Status × LogFile :=
  let (status, file) := log.file.openFile path createIfMissing
  let log := { log with file := file, attached := true }
  if !status.ok then (status, log)
  else
    let (status, _, log) := log.readHeader
    if !status.ok then
      if !createIfMissing then (status, log)
      else writeHeader { log with appendOffset := WalFileHeader.kSize }
    else (Status.success, { log with appendOffset := log.file.fileSize })

def close (log : LogFile) : Status × LogFile :=
  if !log.attached then (Status.success, log)
  else
    let (status, file) := log.file.close
    (status, { file := file, attached := false, appendOffset := WalFileHeader.kSize })

def alignAppendOffset (log : LogFile) : Status × LogFile :=
  let remainder := log.appendOffset % kLogRecordAlignment
  if remainder = 0 then (Status.success, log)
  else
    let padding := kLogRecordAlignment - remainder
    let (status, file) := log.file.writeBytes (List.replicate padding 0)
    if !status.ok then (status, { log with file := file })
    else (Status.success, { log with file := file, appendOffset := log.appendOffset + padding })

def append (log : LogFile) (data : List UInt8) : Status × LogFile :=
  if !log.isOpen then (Status.ioError "LogFile: file not open", log)
  else
    let (status, file) := log.file.seekTo log.appendOffset
    if !status.ok then (status, { log with file := file })
    else
      let (status, file) := file.writeBytes data
      if !status.ok then (status, { log with file := file })
      else alignAppendOffset { log with file := file, appendOffset := log.appendOffset + data.length }

def readBytes (log : LogFile) (offset : Nat) (destination : List UInt8) : Status × List UInt8 × LogFile :=
  if !log.isOpen then (Status.ioError "LogFile: file not open", destination, log)
  else
    let (status, file) := log.file.seekTo offset
    if !status.ok then (status, destination, { log with file := file })
    else
      let (status, bytes, file) := file.readBytes destination
      (status, bytes, { log with file := file })

/-- A length rounded up to the alignment of records. -/
def padded (length : Nat) : Nat :=
  let remainder := length % kLogRecordAlignment
  if remainder ≠ 0 then length + (kLogRecordAlignment - remainder) else length

/-- The record at an offset and how far the next one is. The size is read over zero and
the rest over a buffer of zeros. -/
def readRecord (log : LogFile) (offset : Nat) : Except Status (LogRecord × Nat) × LogFile :=
  if !log.isOpen then (.error (Status.ioError "LogFile: file not open"), log)
  else
    let (status, sizeBytes, log) := log.readBytes offset (List.replicate 4 0)
    if !status.ok then (.error status, log)
    else
      let recordSize := Bytes.decode sizeBytes
      if recordSize = 0 then (.error (Status.corruption "LogFile: zero-length record"), log)
      else
        let (status, body, log) := log.readBytes (offset + 4) (List.replicate recordSize 0)
        if !status.ok then (.error status, log)
        else
          match (BinaryReader.skip 4 *> LogRecord.deserialize).run { view := Bytes.encode 4 recordSize ++ body } with
          | .error status => (.error status, log)
          | .ok (record, _) => (.ok (record, padded (4 + recordSize)), log)

def flush (log : LogFile) : Status × LogFile :=
  if !log.attached then (Status.ioError "LogFile: file not open", log)
  else
    let (status, file) := log.file.flush
    (status, { log with file := file })

def truncate (log : LogFile) (newSize : Nat) : Status × LogFile :=
  if !log.attached then (Status.ioError "LogFile: file not open", log)
  else if newSize < WalFileHeader.kSize then (Status.invalidArgument "LogFile: truncate below header size", log)
  else
    let (status, file) := log.file.resize newSize
    if !status.ok then (status, { log with file := file })
    else (Status.success, { log with file := file, appendOffset := newSize })

def validate (log : LogFile) : Status × LogFile :=
  if !log.isOpen then (Status.ioError "LogFile: file not open", log)
  else
    let (status, header, log) := log.readHeader
    if !status.ok then (status, log)
    else if header.magic ≠ kJournalMagic then (Status.corruption "LogFile: invalid WAL magic", log)
    else if header.version ≠ kWalFormatVersion then (Status.corruption "LogFile: unsupported WAL version", log)
    else (Status.success, log)

end LogFile
end Quartz.Wal
