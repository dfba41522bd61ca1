import Quartz.Btree.SplitMergePlanner
import Quartz.Proofs.NodeReloads

/-! Plans of splits and merges against what is done. The plan of a split reads the key at its
position, which a node of one key does not have; the plan of a merge of internal nodes forgets the
separator that comes down between their keys. -/

namespace Quartz.Btree
open Storage Format TreeM BTree SplitMergePlanner Rebalance

inductive PlanRequest where
  | leafSplit (node : LeafNode)
  | internalSplit (node : InternalNode)
  | leafMerge (left right : LeafNode)
  | internalMerge (left : InternalNode) (separator : Key) (right : InternalNode)

/-- A plan comes back, and it is feasible exactly when both halves have keys. -/
def SplitAgrees (plan : Except Failure SplitPlan) (keyCount : Nat) : Prop :=
  ∃ result, plan = .ok result ∧
    (result.feasible = true ↔ 0 < result.splitPosition ∧ result.splitPosition < keyCount)

/-- The plan is feasible exactly when the merged keys fit, and counts them. -/
def MergeAgrees (plan : MergePlan) (capacity : Nat) (keys : List Key) : Prop :=
  (plan.feasible = true ↔ keys.length ≤ capacity) ∧ plan.resultingKeyCount = keys.length

namespace PlanRequest

def Agrees : PlanRequest → Prop
  | .leafSplit node => SplitAgrees (planLeafSplit node) node.keyCount
  | .internalSplit node => SplitAgrees (planInternalSplit node) node.keyCount
  | .leafMerge left right => ∀ entries, mergedLeafEntries left right = some entries →
      MergeAgrees (planLeafMerge left right) left.capacity entries.1
  | .internalMerge left separator right =>
      MergeAgrees (planInternalMerge left right) left.capacity (mergedInternalEntries left separator right).1

/-- The split position lies inside the keys that the node holds. -/
def SplitInside (node : BTreeNode) (keys : List Key) : Prop :=
  node.keyCount = 0 ∨ node.capacity = 0 ∨ max 1 (node.keyCount / 2) < keys.length

/-- What the counts in the pages have to be for the plan to agree. -/
def Counts : PlanRequest → Prop
  | .leafSplit node => SplitInside node.toBTreeNode node.keys
  | .internalSplit node => SplitInside node.toBTreeNode node.keys
  | .leafMerge left right => (right.keyCount > right.keys.length ∨ right.keyCount > right.refs.length) ∨
      (left.keyCount + right.keyCount) % 2 ^ 32 = left.keys.length + right.keyCount
  | .internalMerge left _ right => (left.keyCount + right.keyCount) % 2 ^ 32 = left.keys.length + right.keys.length + 1

/-- The nodes are nodes of one configuration, with counts that are those of their keys. -/
def Shaped (config : BTreeNodeConfig) : PlanRequest → Prop
  | .leafSplit node => node.Shaped config
  | .internalSplit node => node.Shaped config
  | .leafMerge left right => left.Shaped config ∧ right.Shaped config
  | .internalMerge left _ right => left.Shaped config ∧ right.Shaped config

/-- Not the split of a node with one key, nor a merge of internal nodes. -/
def Safe : PlanRequest → Prop
  | .leafSplit node => node.keys.length ≠ 1
  | .internalSplit node => node.keys.length ≠ 1
  | .leafMerge _ _ => True
  | .internalMerge _ _ _ => False

theorem splitAgrees_iff (node : BTreeNode) (keys : List Key) :
    SplitAgrees (planSplit node keys) node.keyCount ↔ SplitInside node keys := by
  by_cases idle : node.keyCount = 0 ∨ node.capacity = 0
  · rw [planSplit, if_pos idle]
    exact iff_of_true ⟨{}, rfl, by simp⟩ (or_assoc.mp (.inl idle))
  · have position : (if node.keyCount / 2 > 0 then node.keyCount / 2 else 1) = max 1 (node.keyCount / 2) := by
      split <;> omega
    have busy : SplitInside node keys ↔ max 1 (node.keyCount / 2) < keys.length := by
      rw [SplitInside, ← or_assoc]
      exact or_iff_right idle
    rw [planSplit, if_neg idle, busy]
    dsimp only
    rw [position]
    cases found : keys[max 1 (node.keyCount / 2)]? with
    | none =>
      refine iff_of_false ?_ (Nat.not_lt.mpr (List.getElem?_eq_none_iff.mp found))
      rintro ⟨result, done, -⟩
      cases done
    | some promoted =>
      refine iff_of_true ⟨_, rfl, ?_⟩ (List.getElem?_eq_some_iff.mp found).choose
      rw [makeSplitPlan, if_neg idle]
      simp

theorem mergeAgrees_iff (left right : BTreeNode) (keys : List Key) :
    MergeAgrees (planMerge left right) left.capacity keys ↔ (left.keyCount + right.keyCount) % 2 ^ 32 = keys.length := by
  constructor
  · exact fun agrees => agrees.2
  · intro same
    refine ⟨?_, same⟩
    rw [planMerge, same, decide_eq_true_eq]

theorem splitInside_iff {node : BTreeNode} {keys : List Key} (count : node.keyCount = keys.length)
    (room : keys.length ≤ node.capacity) : SplitInside node keys ↔ keys.length ≠ 1 := by
  rw [SplitInside, count]
  omega

theorem sum_small {config : BTreeNodeConfig} {kind : NodeType} {first second : Nat}
    (room : first ≤ computeCapacity config kind) (more : second ≤ computeCapacity config kind) :
    (first + second) % 2 ^ 32 = first + second := by
  have bound : computeCapacity config kind ≤ kEntryAreaSize := by
    cases kind with
    | leaf => exact Nat.div_le_self _ _
    | internal => exact (Nat.div_le_self _ _).trans (Nat.sub_le _ _)
  have small : kEntryAreaSize < 2 ^ 31 := by decide
  exact Nat.mod_eq_of_lt (by omega)

/-- A plan agrees with what is done exactly when the counts in the pages say so; on the nodes of a
configuration, exactly when it is about a merge of leaves or a split of a node that does not have one key. -/
theorem plans_agree_iff (request : PlanRequest) :
    (request.Agrees ↔ request.Counts) ∧ ∀ config, request.Shaped config → (request.Agrees ↔ request.Safe) := by
  have counts : request.Agrees ↔ request.Counts := by
    cases request with
    | leafSplit node | internalSplit node => exact splitAgrees_iff node.toBTreeNode node.keys
    | leafMerge left right =>
      by_cases short : right.keyCount > right.keys.length ∨ right.keyCount > right.refs.length
      · simp [Agrees, Counts, mergedLeafEntries, short]
      · have length : (left.keys ++ right.keys.take right.keyCount).length = left.keys.length + right.keyCount := by
          rw [List.length_append, List.length_take, Nat.min_eq_left (by omega)]
        have one := mergeAgrees_iff left.toBTreeNode right.toBTreeNode (left.keys ++ right.keys.take right.keyCount)
        rw [length] at one
        simp only [Agrees, Counts, mergedLeafEntries, if_neg short, Option.some.injEq, forall_eq', planLeafMerge, one]
        exact (or_iff_right short).symm
    | internalMerge left separator right =>
      have one := mergeAgrees_iff left.toBTreeNode right.toBTreeNode (mergedInternalEntries left separator right).1
      rw [mergedInternalEntries, List.length_append, List.length_cons, ← Nat.add_assoc] at one
      exact one
  refine ⟨counts, fun config shaped => counts.trans ?_⟩
  cases request with
  | leafSplit node | internalSplit node => exact splitInside_iff shaped.count (by rw [shaped.capacity]; exact shaped.room)
  | leafMerge left right =>
    refine iff_of_true (.inr ?_) trivial
    rw [shaped.1.count, shaped.2.count, sum_small shaped.1.room shaped.2.room]
  | internalMerge left separator right =>
    refine iff_of_false ?_ not_false
    rw [Counts, shaped.1.count, shaped.2.count, sum_small shaped.1.room shaped.2.room]
    omega

theorem plans_agree_two :
    let left := LeafCall.step (.create 5 {}) (.insert (.uint32 7) (.make 8 1 0))
    let right := LeafCall.step (.create 6 {}) (.insert (.uint32 9) (.make 8 1 0))
    (mergedLeafEntries left right).map Prod.fst = some [.uint32 7, .uint32 9] ∧ (leafMerge left right).Agrees :=
  ⟨by decide +kernel, ((plans_agree_iff (leafMerge _ _)).2 {} ⟨((LeafNode.shaped_create 5 {}).step (by decide +kernel)).1,
      ((LeafNode.shaped_create 6 {}).step (by decide +kernel)).1⟩).mpr trivial⟩

/-- The plan of a split of one key ends in an exception, and a plan of a merge misses the separator. -/
theorem one_key_has_no_plan :
    ¬ (leafSplit (LeafCall.step (.create 5 {}) (.insert (.uint32 7) (.make 8 1 0)))).Agrees ∧
      ¬ (internalMerge (.create 5 {}) (.uint32 7) (.create 6 {})).Agrees := by
  have split : planLeafSplit (LeafCall.step (.create 5 {}) (.insert (.uint32 7) (.make 8 1 0))) = .error .outOfRange := by
    decide +kernel
  have merge : (planInternalMerge (.create 5 {}) (.create 6 {})).resultingKeyCount ≠
      (mergedInternalEntries (.create 5 {}) (.uint32 7) (.create 6 {})).1.length := by decide +kernel
  refine ⟨?_, fun agrees => merge agrees.2⟩
  rintro ⟨result, done, -⟩
  rw [split] at done
  cases done

end PlanRequest
end Quartz.Btree
