import Quartz.Btree.TreeValidator
import Quartz.Recovery.CheckpointManager
import Quartz.Recovery.LogReplayer

/-! Recovery: the last checkpoint, the records behind it, and the checks at the end. -/

namespace Quartz.Recovery
open Storage Btree Wal

variable {ω : Type}

namespace RecoveryValidator

def validate (wal : LogManager) (tree : BTree ω) : Except Failure Unit × LogManager :=
  let (status, wal) := wal.validate
  if !status.ok then (.error (.status status), wal) else (TreeValidator.validate tree, wal)

/-- A second tree is built from the log, with a space manager of its own and no sink. Of the two trees only the sizes
are compared. -/
def verifyLogicalConsistency (wal : LogManager) (tree : BTree ω) : Except Failure Unit × LogManager :=
  let scratchTree : BTree Empty := BTree.create (Space.SpaceManager.withPolicy .firstFit) tree.config
  let (status, search, wal) := CheckpointManager.findLastCheckpoint wal
  let (status, scratchTree) :=
    if status.ok then CheckpointManager.restoreTree search.payload scratchTree else (Status.success, scratchTree)
  if !status.ok then (.error (.status status), wal)
  else
    match LogReplayer.replay wal scratchTree search.lsn with
    | ((.error failure, _), wal) => (.error failure, wal)
    | ((.ok _, scratchTree, _), wal) =>
      if scratchTree.size ≠ tree.size then
        (.error (.status (Status.corruption "RecoveryValidator: tree size mismatch after replay")), wal)
      else
        match TreeValidator.validate scratchTree with
        | .error failure => (.error failure, wal)
        | .ok _ =>
          let (status, wal) := wal.rewindReader
          if !status.ok then (.error (.status status), wal) else (.ok (), wal)

end RecoveryValidator

namespace RecoveryManager

variable [BTreeWalSink ω]

/-- The tree that replay starts from. Any failure of the search counts as no checkpoint. -/
def baseTree (status : Status) (payload : CheckpointPayload) (tree : BTree ω) : Status × BTree ω :=
  if status.ok then CheckpointManager.restoreTree payload tree else (Status.success, tree.clear)

/-- The number up to which records are skipped is what the search has left, found or not. -/
def recover (wal : LogManager) (tree : BTree ω) : (Except Failure Unit × BTree ω × RecoveryResult) × LogManager :=
  let (status, search, wal) := CheckpointManager.findLastCheckpoint wal
  let (status, tree) := baseTree status search.payload tree
  if !status.ok then ((.error (.status status), tree, {}), wal)
  else
    match LogReplayer.replay wal tree search.lsn with
    | ((.error failure, tree, result), wal) => ((.error failure, tree, result), wal)
    | ((.ok _, tree, result), wal) =>
      let (status, wal) := wal.restoreWriterState
      if !status.ok then ((.error (.status status), tree, result), wal)
      else
        let (status, wal) := wal.rewindReader
        if !status.ok then ((.error (.status status), tree, result), wal)
        else
          let (ended, wal) := RecoveryValidator.validate wal tree
          ((ended, tree, result), wal)

/-- The log behind the checkpoint is cut off when that is asked for. -/
def checkpoint (fault : Option FlushFault) (tree : BTree ω) (order : tree.Enumeration) (timestamp : UInt64)
    (wal : LogManager) (truncateWal : Bool) : Status × LogManager :=
  match CheckpointManager.createCheckpointUnder fault tree order timestamp wal with
  | (.error status, wal) => (status, wal)
  | (.ok lsn, wal) =>
    if truncateWal then
      let (status, wal) := CheckpointManager.truncateAfterCheckpoint wal lsn
      if !status.ok then (status, wal)
      else
        let (status, wal) := wal.restoreWriterState
        if !status.ok then (status, wal) else wal.rewindReader
    else (Status.success, wal)

end RecoveryManager
end Quartz.Recovery
