import Quartz.Btree.BTree

/-! Plans for splits and merges, computed from single nodes without a tree. The occupancies are
kept as exact percentages. -/

namespace Quartz.Btree

structure SplitPlan where
  feasible : Bool := false
  splitPosition : Nat := 0
  promotedKey : Key := .uint32 0
  leftOccupancy : Rat := 0
  rightOccupancy : Rat := 0
  deriving DecidableEq, Repr

structure MergePlan where
  feasible : Bool := false
  combinedOccupancy : Rat := 0
  resultingKeyCount : Nat := 0
  deriving DecidableEq, Repr

namespace SplitMergePlanner

def makeSplitPlan (keyCount capacity : Nat) (promoted : Key) (splitPos : Nat) : SplitPlan :=
  if keyCount = 0 ∨ capacity = 0 then {}
  else
    { splitPosition := splitPos
      promotedKey := promoted
      leftOccupancy := (splitPos / capacity : Rat) * 100
      rightOccupancy := ((keyCount - splitPos : Nat) / capacity : Rat) * 100
      feasible := 0 < splitPos && splitPos < keyCount }

/-- Half of the count in the page, but never position zero; the key there is read from the node. -/
def planSplit (node : BTreeNode) (keys : List Key) : Except Failure SplitPlan :=
  if node.keyCount = 0 ∨ node.capacity = 0 then .ok {}
  else
    let splitPos := node.keyCount / 2
    let pos := if splitPos > 0 then splitPos else 1
    match keys[pos]? with
    | none => .error .outOfRange
    | some promoted => .ok (makeSplitPlan node.keyCount node.capacity promoted pos)

def planLeafSplit (node : LeafNode) : Except Failure SplitPlan := planSplit node.toBTreeNode node.keys
def planInternalSplit (node : InternalNode) : Except Failure SplitPlan := planSplit node.toBTreeNode node.keys

/-- The counts in the two pages, and the capacity of the left one. -/
def planMerge (left right : BTreeNode) : MergePlan :=
  let combined := (left.keyCount + right.keyCount) % 2 ^ 32
  { resultingKeyCount := combined
    combinedOccupancy := if left.capacity > 0 then (combined / left.capacity : Rat) * 100 else 0
    feasible := combined ≤ left.capacity }

def planLeafMerge (left right : LeafNode) : MergePlan := planMerge left.toBTreeNode right.toBTreeNode
def planInternalMerge (left right : InternalNode) : MergePlan := planMerge left.toBTreeNode right.toBTreeNode

end SplitMergePlanner
end Quartz.Btree
