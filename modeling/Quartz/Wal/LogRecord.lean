import Quartz.Serialization.BinaryReader
import Quartz.Storage.PageAllocator

/-! Log records, their wire format and the checks a record passes. -/

namespace Quartz.Wal
open Storage Serialization

def kWalFormatVersion : UInt32 := 1
def kLogRecordAlignment : Nat := 8

/-- The discriminator is whatever byte the record carries. -/
structure LogRecordType where
  byte : UInt8
  deriving DecidableEq, Repr

namespace LogRecordType

def invalid : LogRecordType := ⟨0⟩
def pageUpdate : LogRecordType := ⟨2⟩
def pageDelete : LogRecordType := ⟨3⟩
def nodeSplit : LogRecordType := ⟨4⟩
def nodeMerge : LogRecordType := ⟨5⟩
def allocation : LogRecordType := ⟨6⟩
def deallocation : LogRecordType := ⟨7⟩
def checkpointMarker : LogRecordType := ⟨9⟩

end LogRecordType

def isValidRecordType (type : LogRecordType) : Bool :=
  type.byte > LogRecordType.invalid.byte && type.byte ≤ LogRecordType.checkpointMarker.byte

structure LogSequenceNumber where
  value : UInt64 := 0
  deriving DecidableEq, Repr

namespace LogSequenceNumber

def invalid : LogSequenceNumber := ⟨0⟩
def initial : LogSequenceNumber := ⟨1⟩
def isValid (lsn : LogSequenceNumber) : Bool := lsn.value != 0
def next (lsn : LogSequenceNumber) : LogSequenceNumber := ⟨lsn.value + 1⟩

end LogSequenceNumber

structure LogRecord where
  type : LogRecordType := .invalid
  lsn : LogSequenceNumber := {}
  timestamp : UInt64 := 0
  pageId : PageId := kInvalidPageId
  transactionId : UInt64 := 0
  checksum : UInt32 := 0
  reserved0 : UInt32 := 0
  reserved1 : UInt32 := 0
  payload : List UInt8 := []
  deriving DecidableEq, Repr

namespace LogRecord

/-- The clock is the caller's. -/
def make (type : LogRecordType) (pageId : PageId) (transactionId timestamp : UInt64) : LogRecord :=
  { type := type, pageId := pageId, transactionId := transactionId, timestamp := timestamp }

def wireSize (record : LogRecord) : Nat := 45 + record.payload.length

/-- The blocks the record hands to its writer; the test for a payload is on its length as it is written. -/
def blocks (record : LogRecord) : List (List UInt8) :=
  [Bytes.encode 1 record.type.byte.toNat, Bytes.encode 8 record.lsn.value.toNat,
    Bytes.encode 8 record.timestamp.toNat, Bytes.encode 4 record.pageId.toNat,
    Bytes.encode 8 record.transactionId.toNat, Bytes.encode 4 record.payload.length,
    Bytes.encode 4 record.checksum.toNat, Bytes.encode 4 record.reserved0.toNat,
    Bytes.encode 4 record.reserved1.toNat] ++
    if record.payload.length % 2 ^ 32 > 0 then [record.payload] else []

/-- The bytes of these blocks, for a payload of less than four gigabytes. -/
def serialize (record : LogRecord) : List UInt8 :=
  Bytes.encode 1 record.type.byte.toNat ++ Bytes.encode 8 record.lsn.value.toNat ++
    Bytes.encode 8 record.timestamp.toNat ++ Bytes.encode 4 record.pageId.toNat ++
    Bytes.encode 8 record.transactionId.toNat ++ Bytes.encode 4 record.payload.length ++
    Bytes.encode 4 record.checksum.toNat ++ Bytes.encode 4 record.reserved0.toNat ++
    Bytes.encode 4 record.reserved1.toNat ++ record.payload

def deserialize : Decoder LogRecord := do
  let typeByte ← BinaryReader.read 1
  let lsn ← BinaryReader.read 8
  let timestamp ← BinaryReader.read 8
  let pageId ← BinaryReader.read 4
  let transactionId ← BinaryReader.read 8
  let payloadLen ← BinaryReader.read 4
  let checksum ← BinaryReader.read 4
  let reserved0 ← BinaryReader.read 4
  let reserved1 ← BinaryReader.read 4
  let payload ← BinaryReader.readBytes payloadLen
  return { type := ⟨UInt8.ofNat typeByte⟩, lsn := ⟨UInt64.ofNat lsn⟩, timestamp := UInt64.ofNat timestamp
           pageId := UInt32.ofNat pageId, transactionId := UInt64.ofNat transactionId
           checksum := UInt32.ofNat checksum, reserved0 := UInt32.ofNat reserved0
           reserved1 := UInt32.ofNat reserved1, payload := payload }

end LogRecord

namespace LogValidator

def validateRecordHeader (record : LogRecord) : Status :=
  if !isValidRecordType record.type then Status.corruption "LogValidator: invalid record type"
  else if !record.lsn.isValid then Status.corruption "LogValidator: invalid LSN"
  else if record.timestamp == 0 then Status.corruption "LogValidator: missing timestamp"
  else Status.success

def validateReservedFields (_ : LogRecord) : Status := Status.success

def validateRecord (record : LogRecord) : Status :=
  let status := validateRecordHeader record
  if !status.ok then status else validateReservedFields record

def validateLsnOrdering (previous current : LogSequenceNumber) : Status :=
  if !current.isValid then Status.corruption "LogValidator: invalid LSN in sequence"
  else if previous.isValid && current.value ≤ previous.value then
    Status.corruption "LogValidator: LSN not strictly increasing"
  else Status.success

end LogValidator
end Quartz.Wal
