import Mathlib.Data.Finset.Card
import Quartz.Diagnostics.ConsistencyChecker
import Quartz.Proofs.TreeDescent
import Quartz.Proofs.UnreadableCheckpoints

/-! The consistency check against the log. It builds a second tree from the log and compares the sizes, so a tree with
as many other keys passes. -/

namespace Quartz.Recovery.RecoveryValidator
open Storage Format Btree Wal CheckpointManager LogReplayer RecoveryManager

variable {ω : Type}

end Quartz.Recovery.RecoveryValidator
