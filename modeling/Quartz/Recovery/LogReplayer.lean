import Quartz.Btree.Operations
import Quartz.Wal.LogManager

/-! The replayer: log records applied to a tree one after the other. The log is not the one the
tree's own sink writes to. -/

namespace Quartz.Recovery
open Serialization Format Btree Wal

structure RecoveryResult where
  recoveredFromCheckpoint : Bool := false
  checkpointLsn : LogSequenceNumber := {}
  lastReplayedLsn : LogSequenceNumber := {}
  recordsReplayed : UInt64 := 0
  recordsSkipped : UInt64 := 0
  deriving DecidableEq, Repr

variable {ω : Type} [BTreeWalSink ω]

namespace LogReplayer

/-- Reads the front of a payload. -/
def decode {α : Type} (decoder : Decoder α) (payload : List UInt8) : TreeM ω α :=
  match decoder.run { view := payload } with
  | .ok (value, _) => pure value
  | .error status => Fallible.fail (.status status)

/-- A key that is there with another reference is erased first. -/
def applyUpdate (key : Key) (ref : PageReference) : TreeM ω Unit := do
  let tree ← Fallible.read
  if ← TreeM.ofExcept (tree.contains key) then
    let existing ← TreeM.ofExcept (tree.find key)
    if existing.same ref then pure ()
    else
      BTree.erase key
      BTree.insert key ref
  else BTree.insert key ref

def applyDelete (key : Key) : TreeM ω Unit := do
  let tree ← Fallible.read
  if ← TreeM.ofExcept (tree.contains key) then BTree.erase key else pure ()

def applyRecord (record : LogRecord) : TreeM ω Unit :=
  if record.type = .pageUpdate then do
    let entry ← decode (do return (← Key.deserialize 0, ← PageReference.deserialize)) record.payload
    applyUpdate entry.1 entry.2
  else if record.type = .pageDelete then do
    let key ← decode (Key.deserialize 0) record.payload
    applyDelete key
  else if isValidRecordType record.type then pure ()
  else Fallible.fail (.status (Status.corruption "LogReplayer: invalid record type"))

/-- Records applied in turn, up to the first that fails. -/
def applyAll : List LogRecord → TreeM ω Unit
  | [] => pure ()
  | record :: rest => do
    applyRecord record
    applyAll rest

def replayRecord (afterLsn : LogSequenceNumber) (record : LogRecord) : Fallible (BTree ω × RecoveryResult) Failure Unit :=
  fun (tree, result) =>
    let status := LogValidator.validateRecord record
    if !status.ok then (.error (.status status), tree, result)
    else if record.lsn.value ≤ afterLsn.value then
      (.ok (), tree, { result with recordsSkipped := result.recordsSkipped + 1 })
    else if record.type = .checkpointMarker then
      (.ok (), tree, { result with recordsSkipped := result.recordsSkipped + 1 })
    else
      match (applyRecord record).run tree with
      | (.error failure, tree) => (.error failure, tree, result)
      | (.ok _, tree) =>
        (.ok (), tree, { result with lastReplayedLsn := record.lsn, recordsReplayed := result.recordsReplayed + 1 })

/-- Whatever the caller had in the result is cleared first. -/
def replay (wal : LogManager) (tree : BTree ω) (afterLsn : LogSequenceNumber) :
    (Except Failure Unit × BTree ω × RecoveryResult) × LogManager :=
  let (status, wal) := wal.rewindReader
  if !status.ok then ((.error (.status status), tree, {}), wal)
  else wal.forRecords (replayRecord afterLsn) (wal.file.fileSize + 1) (tree, {})

end LogReplayer
end Quartz.Recovery
