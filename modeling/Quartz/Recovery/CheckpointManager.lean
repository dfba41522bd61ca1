import Quartz.Btree.Snapshot
import Quartz.Wal.FaultyLog

/-! Checkpoints: snapshots of a tree that are kept in the log. -/

namespace Quartz.Recovery
open Storage Serialization Btree Wal

def kCheckpointFormatVersion : UInt32 := 1
def kCheckpointMagic : UInt32 := 0x4348504B

structure CheckpointPayload where
  magic : UInt32 := kCheckpointMagic
  version : UInt32 := kCheckpointFormatVersion
  lsn : LogSequenceNumber := {}
  treeSize : UInt64 := 0
  treeHeight : UInt32 := 0
  btreeSnapshot : List UInt8 := []
  deriving DecidableEq, Repr

namespace CheckpointPayload

/-- The bytes the payload hands to its writer. -/
def serialize (payload : CheckpointPayload) : List UInt8 :=
  Bytes.encode 4 payload.magic.toNat ++ Bytes.encode 4 payload.version.toNat ++
    Bytes.encode 8 payload.lsn.value.toNat ++ Bytes.encode 8 payload.treeSize.toNat ++
    Bytes.encode 4 payload.treeHeight.toNat ++ Bytes.encode 4 payload.btreeSnapshot.length ++
    if payload.btreeSnapshot.length % 2 ^ 32 > 0 then payload.btreeSnapshot else []

def validate (payload : CheckpointPayload) : Status :=
  if payload.magic != kCheckpointMagic then Status.corruption "CheckpointPayload: invalid magic"
  else if payload.version != kCheckpointFormatVersion then
    Status.corruption "CheckpointPayload: unsupported version"
  else if !payload.lsn.isValid then Status.corruption "CheckpointPayload: invalid LSN"
  else Status.success

def deserialize : Decoder CheckpointPayload := do
  let magic ← BinaryReader.read 4
  let version ← BinaryReader.read 4
  let lsn ← BinaryReader.read 8
  let treeSize ← BinaryReader.read 8
  let treeHeight ← BinaryReader.read 4
  let snapLen ← BinaryReader.read 4
  let btreeSnapshot ← BinaryReader.readBytes snapLen
  let payload : CheckpointPayload :=
    { magic := UInt32.ofNat magic, version := UInt32.ofNat version, lsn := ⟨UInt64.ofNat lsn⟩
      treeSize := UInt64.ofNat treeSize, treeHeight := UInt32.ofNat treeHeight, btreeSnapshot := btreeSnapshot }
  if payload.validate.ok then return payload else throw payload.validate

end CheckpointPayload

/-- What the search for the last checkpoint has put into its outputs. -/
structure CheckpointSearch where
  payload : CheckpointPayload := {}
  lsn : LogSequenceNumber := .invalid
  found : Bool := false
  deriving DecidableEq, Repr

namespace CheckpointManager

variable {ω : Type}

/-- The payload of a checkpoint, under the number the log is expected to give it. -/
def payloadOf (tree : BTree ω) (order : tree.Enumeration) (wal : LogManager) : CheckpointPayload where
  lsn := if wal.writer.currentLsn.isValid then wal.writer.currentLsn.next else .initial
  treeSize := tree.size
  treeHeight := tree.height
  btreeSnapshot := tree.serialize order

/-- The record of a checkpoint. The clock is the caller's. -/
def markerOf (tree : BTree ω) (order : tree.Enumeration) (timestamp : UInt64) (wal : LogManager) : LogRecord :=
  { LogRecord.make .checkpointMarker kInvalidPageId 0 timestamp with payload := (payloadOf tree order wal).serialize }

/-- The order in which the tree's maps are walked is the caller's too. -/
def createCheckpoint (tree : BTree ω) (order : tree.Enumeration) (timestamp : UInt64) (wal : LogManager) :
    Except Status LogSequenceNumber × LogManager :=
  let (status, wal) := wal.append (markerOf tree order timestamp wal)
  if !status.ok then (.error status, wal)
  else
    let (status, wal) := wal.flush
    if !status.ok then (.error status, wal) else (.ok wal.writer.currentLsn, wal)

/-- The same over a file whose operations may fail. -/
def createCheckpointUnder (fault : Option FlushFault) (tree : BTree ω) (order : tree.Enumeration) (timestamp : UInt64)
    (wal : LogManager) : Except Status LogSequenceNumber × LogManager :=
  let (status, wal) := wal.append (markerOf tree order timestamp wal)
  if !status.ok then (.error status, wal)
  else
    let (status, wal) := wal.flushUnder fault
    if !status.ok then (.error status, wal) else (.ok wal.writer.currentLsn, wal)

@[simp] theorem createCheckpointUnder_none (tree : BTree ω) (order : tree.Enumeration) (timestamp : UInt64) (wal : LogManager) :
    createCheckpointUnder none tree order timestamp wal = createCheckpoint tree order timestamp wal := rfl

/-- One record of the search: a checkpoint that is read replaces the one found before it. -/
def examine (record : LogRecord) : Fallible CheckpointSearch Status Unit :=
  if record.type ≠ .checkpointMarker then pure ()
  else
    match CheckpointPayload.deserialize.run { view := record.payload } with
    | .ok (payload, _) => Fallible.update fun _ => ⟨payload, record.lsn, true⟩
    | .error status => Fallible.fail status

/-- A checkpoint that cannot be read ends the search, with the outputs of the ones before it. -/
def findLastCheckpoint (wal : LogManager) : Status × CheckpointSearch × LogManager :=
  let (status, wal) := wal.rewindReader
  if !status.ok then (status, {}, wal)
  else
    match wal.forRecords examine (wal.file.fileSize + 1) {} with
    | ((.error status, search), wal) => (status, search, wal)
    | ((.ok _, search), wal) =>
      if !search.found then (Status.invalidArgument "CheckpointManager: no checkpoint found", search, wal)
      else (Status.success, search, wal)

def restoreTree (payload : CheckpointPayload) (tree : BTree ω) : Status × BTree ω :=
  if !payload.validate.ok then (payload.validate, tree)
  else
    match BTree.deserialize.run (tree.clear, { view := payload.btreeSnapshot }) with
    | (.error status, restored, _) => (status, restored)
    | (.ok _, restored, _) => (Status.success, restored)

/-- The walk to the record with the number; every record read moves the offset. -/
def truncateFrom (lsn : LogSequenceNumber) : Nat → LogFile → Nat → Status × LogFile
  | 0, file, _ => (Status.invalidArgument "CheckpointManager: checkpoint LSN not found for truncation", file)
  | fuel + 1, file, offset =>
    if offset < file.fileSize then
      match file.readRecord offset with
      | (.error _, file) =>
        (Status.invalidArgument "CheckpointManager: checkpoint LSN not found for truncation", file)
      | (.ok (record, bytesRead), file) =>
        if record.lsn = lsn then file.truncate (offset + bytesRead) else truncateFrom lsn fuel file (offset + bytesRead)
    else (Status.invalidArgument "CheckpointManager: checkpoint LSN not found for truncation", file)

def truncateAfterCheckpoint (wal : LogManager) (lsn : LogSequenceNumber) : Status × LogManager :=
  let (status, file) := truncateFrom lsn wal.file.fileSize wal.file WalFileHeader.kSize
  (status, { wal with file := file })

end CheckpointManager
end Quartz.Recovery
