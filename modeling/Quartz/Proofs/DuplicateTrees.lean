import Quartz.Proofs.LoneLeaf
import Quartz.Proofs.TreeBalance

/-! Insertions of keys that may repeat. As long as they fit into one leaf nothing is lost; a
leaf that splits gives the entry in its middle away, and the leaves never make up for it. -/

namespace Quartz.Btree
open Storage Format TreeM Fallible BTree SortedPairs

namespace BTree

variable {ω : Type}

def leafKeys (tree : BTree ω) : Nat := (tree.leaves.entries.map fun node => node.2.keys.length).sum

variable {tree after : BTree ω} {id : PageId} {leaf : LeafNode}

theorem length_inLeaves_le (tree : BTree ω) : tree.inLeaves.length ≤ tree.leafKeys := by
  rw [inLeaves, List.length_flatMap, leafKeys]
  refine List.sum_le_sum fun node _ => ?_
  rw [List.length_zip]
  exact Nat.min_le_left _ _

theorem leafKeys_replaced (found : tree.leaves.lookup id = some leaf) (next : LeafNode) :
    leafKeys { tree with leaves := tree.leaves.insert id next } + leaf.keys.length = tree.leafKeys + next.keys.length := by
  have live : id ∈ tree.leaves.entries.keys := List.dlookup_isSome.mp (Option.isSome_of_eq_some found)
  obtain ⟨old, front, back, outside, whole, rest⟩ := List.exists_of_kerase live
  have same : old = leaf := by
    have present : (⟨id, leaf⟩ : Sigma fun _ : PageId => LeafNode) ∈ tree.leaves.entries := AList.mem_lookup_iff.mp found
    exact tree.leaves.nodupKeys.eq_of_mk_mem (by rw [whole]; simp) present
  subst same
  simp only [leafKeys, AList.entries_insert, rest]
  rw [whole]
  simp only [List.map_append, List.map_cons, List.sum_append, List.sum_cons]
  omega

theorem leafKeys_congr (same : after.leaves = tree.leaves) : after.leafKeys = tree.leafKeys := by
  rw [leafKeys, same]
  rfl

theorem leafKeys_added (new : id ∉ tree.leaves) (next : LeafNode) :
    leafKeys { tree with leaves := tree.leaves.insert id next } = tree.leafKeys + next.keys.length := by
  simp only [leafKeys, AList.entries_insert_of_notMem new, List.map_cons, List.sum_cons]
  omega

end BTree

namespace LeafNode

theorem assignEntries_keys {leaf : LeafNode} {keys : List Key} {refs : List PageReference}
    (done : (leaf.assignEntries keys refs).1.ok = true) : (leaf.assignEntries keys refs).2.keys = keys := by
  rcases leaf.assignEntries_cases keys refs with ⟨-, sets⟩ | ⟨-, text, refused⟩
  · rw [sets, (leaf.setEntries_parts keys refs).1]
  · rw [refused] at done
    cases done

theorem length_insert_le (leaf : LeafNode) (key : Key) (ref : PageReference) :
    (leaf.insert key ref).2.keys.length ≤ leaf.keys.length + 1 := by
  rcases leaf.insert_cases key ref with ⟨-, sets⟩ | ⟨-, text, refused⟩
  · rw [sets, (leaf.setEntries_parts _ _).1, List.length_insertIdx]
    split <;> omega
  · rw [refused]
    exact Nat.le_succ _

end LeafNode

section Updates

variable {ω : Type} {tree after : BTree ω} {id : PageId} {leaves : AList fun _ : PageId => LeafNode}

theorem onLeaf_leafKeys {change : LeafNode → Status × LeafNode} (done : (onLeaf id change).run tree = (.ok (), after)) :
    ∃ leaf, tree.leaves.lookup id = some leaf ∧ (change leaf).1.ok = true ∧
      after.leafKeys + leaf.keys.length = tree.leafKeys + (change leaf).2.keys.length := by
  obtain ⟨leaf, found, fine, rfl⟩ := onLeaf_ok done
  exact ⟨leaf, found, fine, leafKeys_replaced found _⟩

theorem takePage_leaves (failed : Status) : Keeps (fun tree : BTree ω => tree.leaves = leaves) (takePage failed) := by
  refine keeps_of_run fun tree same => ?_
  rw [takePage_run]
  split
  · exact same
  · exact same

variable [BTreeWalSink ω]

theorem notify_leaves (event : TreeEvent) : Keeps (fun tree : BTree ω => tree.leaves = leaves) (notify event) := by
  refine keeps_of_run fun tree same => ?_
  obtain ⟨sink, -, ended⟩ := notify_run event tree
  rw [ended]
  exact same

theorem allocateInternal_leaves (level : UInt32) :
    Keeps (fun tree : BTree ω => tree.leaves = leaves) (allocateInternal level) := by
  refine keeps_bind (takePage_leaves _) fun id => keeps_bind keeps_read fun _ => ?_
  split
  · exact keeps_fail _
  · exact keeps_bind (keeps_update fun _ same => same) fun _ => keeps_bind (notify_leaves _) fun _ => keeps_pure _

theorem splitInternal_leaves (nodeId : PageId) (index : Nat) (key : Key) (child : PageReference) :
    Keeps (fun tree : BTree ω => tree.leaves = leaves) (Rebalance.splitInternal nodeId index key child) := by
  refine keeps_bind (internal_keeps _) fun node => keeps_bind (ofOption_keeps _) fun promoted => ?_
  refine keeps_bind (onInternal_leaves _ _) fun _ => keeps_bind (allocateInternal_leaves _) fun sibling => ?_
  exact keeps_bind (onInternal_leaves _ _) fun _ => keeps_bind (notify_leaves _) fun _ => keeps_pure _

theorem insertIntoParent_leaves (path : List SearchPathEntry) (promoted : Key) (leftId rightId : PageId) :
    Keeps (fun tree : BTree ω => tree.leaves = leaves) (Rebalance.insertIntoParent path promoted leftId rightId) := by
  induction path generalizing promoted leftId rightId with
  | nil =>
    refine keeps_bind keeps_read fun tree => keeps_bind (allocateInternal_leaves _) fun root => ?_
    exact keeps_bind (onInternal_leaves _ _) fun _ => keeps_update fun _ same => same
  | cons frame rest ih =>
    refine keeps_bind (internal_keeps _) fun parent => ?_
    split
    · exact onInternal_leaves _ _
    · exact keeps_bind (splitInternal_leaves _ _ _ _) fun split => ih _ _ _

theorem allocateLeaf_leafKeys {level : UInt32} (done : (allocateLeaf level).run tree = (.ok id, after)) :
    after.leafKeys = tree.leafKeys ∧ ∃ leaf, after.leaves.lookup id = some leaf ∧ leaf.keys = [] := by
  obtain ⟨page, taken, begun, rest⟩ := bind_ok done
  have same := leaves_kept (fun _ => takePage_leaves _) begun
  rw [run_bind_ok run_read] at rest
  split at rest
  · cases rest
  next new =>
  rw [run_bind_ok (run_update _)] at rest
  obtain ⟨_, noted, told, ended⟩ := bind_ok rest
  have leaves := leaves_kept (fun _ => notify_leaves _) told
  cases ended
  refine ⟨?_, _, by rw [leaves]; exact AList.lookup_insert _, rfl⟩
  rw [leafKeys_congr leaves, leafKeys_added new, leafKeys_congr same]
  rfl

theorem splitAndInsertLeaf_leafKeys {path : List SearchPathEntry} {key : Key} {value : PageReference}
    (done : (Rebalance.splitAndInsertLeaf id path key value).run tree = (.ok (), after)) :
    after.leafKeys ≤ tree.leafKeys := by
  rw [Rebalance.splitAndInsertLeaf] at done
  obtain ⟨node, _, found, begun⟩ := bind_ok done
  obtain ⟨standing, rfl⟩ := leaf_ok found
  obtain ⟨promoted, _, picked, cut⟩ := bind_ok begun
  obtain ⟨present, rfl⟩ := ofOption_ok picked
  obtain ⟨_, halved, left, cut⟩ := bind_ok cut
  obtain ⟨siblingId, grown, allocated, cut⟩ := bind_ok cut
  obtain ⟨_, filled, right, cut⟩ := bind_ok cut
  obtain ⟨_, noted, told, climbed⟩ := bind_ok cut
  obtain ⟨leaf, leafFound, leftOk, leftCount⟩ := onLeaf_leafKeys left
  obtain ⟨grownCount, sibling, siblingFound, none⟩ := allocateLeaf_leafKeys allocated
  obtain ⟨other, otherFound, rightOk, rightCount⟩ := onLeaf_leafKeys right
  cases standing.symm.trans leafFound
  cases siblingFound.symm.trans otherFound
  have last := leafKeys_congr (leaves_kept (fun _ => insertIntoParent_leaves _ _ _ _) climbed)
  have before := leafKeys_congr (leaves_kept (fun _ => notify_leaves _) told)
  have bound := List.getElem?_eq_some_iff.mp present |>.1
  have added : (node.keys.insertIdx (KeyComparator.lowerBound node.keys key) key).length ≤ node.keys.length + 1 := by
    rw [List.length_insertIdx]
    split <;> omega
  rw [LeafNode.assignEntries_keys leftOk, List.length_take] at leftCount
  rw [LeafNode.assignEntries_keys rightOk, List.length_drop, none, List.length_nil] at rightCount
  omega

theorem inserted_leaves (key : Key) (value : PageReference) :
    Keeps (fun tree : BTree ω => tree.leaves = leaves) (inserted key value) :=
  keeps_bind (keeps_update fun _ same => same) fun _ => notify_leaves _

variable {key : Key} {value : PageReference}

omit [BTreeWalSink ω] in
theorem onLeaf_insert_leafKeys (done : (onLeaf id fun leaf => leaf.insert key value).run tree = (.ok (), after)) :
    after.leafKeys ≤ tree.leafKeys + 1 := by
  obtain ⟨leaf, -, -, count⟩ := onLeaf_leafKeys done
  have bound := leaf.length_insert_le key value
  omega

theorem place_leafKeys {path : List SearchPathEntry} (done : (BTree.place id path key value).run tree = (.ok (), after)) :
    after.leafKeys ≤ tree.leafKeys + 1 := by
  rw [BTree.place] at done
  obtain ⟨leaf, _, found, rest⟩ := bind_ok done
  obtain ⟨-, rfl⟩ := leaf_ok found
  split at rest
  · exact onLeaf_insert_leafKeys rest
  · exact (splitAndInsertLeaf_leafKeys rest).trans (Nat.le_succ _)

theorem place_full {path : List SearchPathEntry} {leaf : LeafNode} (standing : tree.leaves.lookup id = some leaf)
    (full : ¬ leaf.keyCount < leaf.capacity) (done : (BTree.place id path key value).run tree = (.ok (), after)) :
    after.leafKeys ≤ tree.leafKeys := by
  rw [BTree.place, run_bind_ok (leaf_found standing), if_neg full] at done
  exact splitAndInsertLeaf_leafKeys done

theorem insert_leafKeys (done : (BTree.insert key value).run tree = (.ok (), after)) :
    after.leafKeys ≤ tree.leafKeys + 1 := by
  rw [BTree.insert] at done
  split at done
  · cases done
  rw [run_bind_ok run_read] at done
  split at done
  · rw [insertFirst] at done
    obtain ⟨leafId, allocated, taken, rest⟩ := bind_ok done
    obtain ⟨_, filled, stored, rest⟩ := bind_ok rest
    rw [run_bind_ok (run_update _)] at rest
    have last := leafKeys_congr (leaves_kept (fun _ => inserted_leaves _ _) rest)
    have grown := onLeaf_insert_leafKeys stored
    have same := (allocateLeaf_leafKeys taken).1
    exact last.trans_le (same ▸ grown)
  · obtain ⟨spot, _, down, rest⟩ := bind_ok done
    obtain ⟨-, rfl⟩ := ofExcept_ok down
    obtain ⟨_, placed, settled, counted⟩ := bind_ok rest
    have last := leafKeys_congr (leaves_kept (fun _ => inserted_leaves _ _) counted)
    exact last.trans_le (place_leafKeys settled)

end Updates

namespace BTree

variable {ω : Type} {tree after : BTree ω} {config : BTreeNodeConfig} {entries : List (Key × PageReference)} {key : Key}
  {value : PageReference}

theorem Alone.leafKeys (alone : tree.Alone config entries) : tree.leafKeys = entries.length := by
  rcases alone.standing with ⟨rfl, -, none⟩ | ⟨-, -, leaf, one, row⟩
  · simp [BTree.leafKeys, none]
  · simp [BTree.leafKeys, one, row.keys]

theorem Alone.validate (alone : tree.Alone config entries) (repeats : config.allowDuplicates = true) :
    TreeValidator.validate tree = .ok () := by
  rcases alone.standing with ⟨rfl, bare, -⟩ | ⟨filled, live, leaf, one, row⟩
  · simp [TreeValidator.validate, empty, bare]
  have sorted : leaf.keys.Pairwise (· ≤ ·) := by
    rw [row.keys]
    exact List.pairwise_map.mpr alone.sorted
  have positive : 0 < computeCapacity config .leaf := (List.length_pos_iff.mpr filled).trans_le row.room
  have page := page_validate row.page positive (by rw [row.count]; exact row.room)
  have allowed : leaf.allowsDuplicates = true := row.page.duplicates.trans repeats
  have valid : leaf.validate = Status.success := by
    have ordered := LeafNode.unsorted_repeats sorted
    rw [row.keys] at ordered
    simp [LeafNode.validate, page, Status.ok, row.page.type, row.keys, row.refs, row.count, allowed, ordered]
  have here := lookup_root one
  have passes : TreeValidator.Passes tree 0 tree.rootId none none := by
    refine ⟨leaf, here, ?_⟩
    rw [TreeValidator.validateLeafRange, valid]
    exact TreeValidator.leafRange_iff.mpr ⟨by simp, by simp, sorted, by simp⟩
  exact passes.validated (HeapTree.tree_leaf (view_leaf.mpr ⟨leaf, here, rfl⟩))

variable [BTreeWalSink ω]

theorem Alone.insert_splits (alone : tree.Alone config entries) (repeats : config.allowDuplicates = true)
    (full : computeCapacity config .leaf ≤ entries.length) (done : (insert key value).run tree = (.ok (), after)) :
    after.leafKeys ≤ tree.leafKeys := by
  have valid := isValid_of_insert done
  by_cases first : entries = []
  · subst first
    have refused : ((insert key value).run tree).1 ≠ .ok () :=
      ((alone.insert_first valid).resolve_left fun taken => absurd taken.1.2.1 (Nat.not_lt.mpr full)).2
    exact absurd (by rw [done]) refused
  · obtain ⟨index, down⟩ := alone.descendForInsert (.inl repeats) first
    obtain ⟨-, live, leaf, one, row⟩ := alone.standing.resolve_left fun none => first none.1
    have here := lookup_root one
    have noRoom : ¬ leaf.keyCount < leaf.capacity := by
      rw [row.count, row.page.capacity]
      exact Nat.not_lt.mpr full
    rw [insert, if_neg (by simp [valid]), run_bind_ok run_read, if_neg (by simpa [empty] using live),
      run_bind_ok (ofExcept_run down _)] at done
    obtain ⟨_, placed, settled, counted⟩ := bind_ok done
    exact (leafKeys_congr (leaves_kept (fun _ => inserted_leaves _ _) counted)).trans_le (place_full here noRoom settled)

theorem Alone.insert_fits (alone : tree.Alone config entries) (repeats : config.allowDuplicates = true)
    (matching : ∀ entry ∈ push key value entries, entry.1.Matches config) (valid : value.isValid = true)
    (room : entries.length < computeCapacity config .leaf) (pages : ¬ Exhausts (insert key value) tree) :
    ((insert key value).run tree).1 = .ok () := by
  have fits : span (push key value entries) ≤ kEntryAreaSize := span_fits matching (by rw [length_push]; exact room)
  by_cases first : entries = []
  · subst first
    have page : tree.space.allocatePage.1 ≠ kInvalidPageId := fun none => pages (alone.insert_exhausted valid none)
    obtain ⟨-, final, ended, -⟩ := (alone.insert_first valid).resolve_right fun refused => refused.1 ⟨page, room, fits⟩
    rw [ended]
  · obtain ⟨-, final, ended, -⟩ :=
      (alone.insert_more (.inl repeats) first valid room).resolve_right fun full => absurd full.1 (Nat.not_lt.mpr fits)
    rw [ended]

end BTree

namespace TreeCall

variable {ω : Type} [BTreeWalSink ω] {config : BTreeNodeConfig} {entries : List (Key × PageReference)}

theorem insertions_concat (entries : List (Key × PageReference)) (entry : Key × PageReference) :
    insertions (entries ++ [entry]) = insertions entries ++ [.insert entry.1 entry.2] := by
  simp [insertions]

/-- Successful insertions are all held as long as one leaf has room for them; from then on the
leaves have too few keys. -/
theorem insertions_held (space : Space.SpaceManager) (repeats : config.allowDuplicates = true)
    (succeed : Runs.AtEachStep step Succeeds (BTree.create space config : BTree ω) (insertions entries)) :
    (entries.length ≤ computeCapacity config .leaf → ∃ held,
        (Runs.after step (BTree.create space config : BTree ω) (insertions entries)).Alone config held ∧ held.Perm entries) ∧
      (computeCapacity config .leaf < entries.length →
        (Runs.after step (BTree.create space config : BTree ω) (insertions entries)).leafKeys < entries.length) := by
  induction entries using List.reverseRecOn with
  | nil => exact ⟨fun _ => ⟨[], alone_create space config, .nil⟩, fun none => absurd none (Nat.not_lt_zero _)⟩
  | append_singleton entries entry ih =>
    rw [insertions_concat, Runs.atEachStep_concat] at succeed
    rw [insertions_concat, Runs.after_append, List.length_append, List.length_singleton]
    obtain ⟨held, lost⟩ := ih succeed.1
    generalize Runs.after step (BTree.create space config : BTree ω) (insertions entries) = tree at succeed held lost ⊢
    have done : (BTree.insert entry.1 entry.2).run tree = (.ok (), step tree (.insert entry.1 entry.2)) :=
      Prod.ext succeed.2 rfl
    constructor
    · intro room
      obtain ⟨pairs, alone, same⟩ := held (by omega)
      refine ⟨_, alone.insert_done (.inl repeats) (fun _ => by rw [same.length_eq]; omega) done, ?_⟩
      exact (push_perm _ _ _).trans ((same.cons _).trans (List.perm_append_singleton _ _).symm)
    · intro many
      by_cases room : entries.length ≤ computeCapacity config .leaf
      · obtain ⟨pairs, alone, same⟩ := held room
        have fewer := alone.insert_splits repeats (by rw [same.length_eq]; omega) done
        rw [alone.leafKeys, same.length_eq] at fewer
        exact Nat.lt_succ_of_le fewer
      · have before := lost (Nat.not_le.mp room)
        have after := insert_leafKeys done
        exact Nat.lt_succ_of_le (after.trans before)

/-- Insertions that one leaf has room for all succeed. -/
theorem insertions_succeed (space : Space.SpaceManager) (repeats : config.allowDuplicates = true)
    (matching : ∀ entry ∈ entries, entry.1.Matches config) (valid : ∀ entry ∈ entries, entry.2.isValid = true)
    (room : entries.length ≤ computeCapacity config .leaf)
    (pages : Runs.AtEachStep step (fun tree call => ¬ Exhausts call.perform tree) (BTree.create space config : BTree ω)
      (insertions entries)) :
    Runs.AtEachStep step Succeeds (BTree.create space config : BTree ω) (insertions entries) := by
  induction entries using List.reverseRecOn with
  | nil => exact Runs.atEachStep_nil
  | append_singleton entries entry ih =>
    rw [insertions_concat, Runs.atEachStep_concat] at pages ⊢
    rw [List.length_append, List.length_singleton] at room
    have before := ih (fun other member => matching other (List.mem_append_left _ member))
      (fun other member => valid other (List.mem_append_left _ member)) (by omega) pages.1
    refine ⟨before, ?_⟩
    obtain ⟨held, alone, same⟩ := (insertions_held space repeats before).1 (by omega)
    refine alone.insert_fits repeats (fun other member => matching other ?_)
      (valid entry (List.mem_append_right _ (List.mem_singleton_self _))) (by rw [same.length_eq]; omega) pages.2
    exact ((push_perm _ _ _).trans ((same.cons _).trans (List.perm_append_singleton _ _).symm)).subset member

/-- Every insertion succeeds, the tree is valid afterwards and its leaves have exactly the
entries inserted, exactly when the references are valid and one leaf has room for all of them. -/
theorem repeated_entries_are_kept_iff (space : Space.SpaceManager) (config : BTreeNodeConfig)
    (repeats : config.allowDuplicates = true) (entries : List (Key × PageReference))
    (matching : ∀ entry ∈ entries, entry.1.Matches config)
    (pages : Runs.AtEachStep step (fun tree call => ¬ Exhausts call.perform tree) (BTree.create space config : BTree ω)
      (insertions entries)) :
    (Runs.AtEachStep step Succeeds (BTree.create space config : BTree ω) (insertions entries) ∧
        TreeValidator.validate (Runs.after step (BTree.create space config : BTree ω) (insertions entries)) = .ok () ∧
        (Runs.after step (BTree.create space config : BTree ω) (insertions entries)).inLeaves.Perm entries) ↔
      (∀ entry ∈ entries, entry.2.isValid = true) ∧ entries.length ≤ computeCapacity config .leaf := by
  constructor
  · rintro ⟨succeed, -, same⟩
    constructor
    · intro entry member
      obtain ⟨front, back, rfl⟩ := List.append_of_mem member
      have inside : insertions front ++ [.insert entry.1 entry.2] <+: insertions (front ++ entry :: back) :=
        ⟨insertions back, by simp [insertions]⟩
      have success := succeed _ _ inside
      exact isValid_of_insert (Prod.ext success rfl)
    · by_contra many
      have lost := (insertions_held space repeats succeed).2 (Nat.not_le.mp many)
      have bound := length_inLeaves_le (Runs.after step (BTree.create space config : BTree ω) (insertions entries))
      rw [same.length_eq] at bound
      omega
  · rintro ⟨valid, room⟩
    have succeed := insertions_succeed space repeats matching valid room pages
    obtain ⟨held, alone, same⟩ := (insertions_held space repeats succeed).1 room
    exact ⟨succeed, alone.validate repeats, alone.inLeaves ▸ same⟩

/-- A configuration with keys of the greatest size, of which a leaf takes few. -/
def wideConfig : BTreeNodeConfig := { keyType := .binary, binaryKeySize := 256, allowDuplicates := true }

theorem repeated_entries_are_kept_twice :
    Runs.AtEachStep step Succeeds (BTree.create (Space.SpaceManager.withPolicy .firstFit) wideConfig : BTree Empty)
          (insertions (List.replicate 2 (wideKey 0, PageReference.make 100 1 4))) ∧
        TreeValidator.validate (Runs.after step (BTree.create (Space.SpaceManager.withPolicy .firstFit) wideConfig : BTree Empty)
          (insertions (List.replicate 2 (wideKey 0, PageReference.make 100 1 4)))) = .ok () ∧
        (Runs.after step (BTree.create (Space.SpaceManager.withPolicy .firstFit) wideConfig : BTree Empty)
          (insertions (List.replicate 2 (wideKey 0, PageReference.make 100 1 4)))).inLeaves.Perm
            (List.replicate 2 (wideKey 0, PageReference.make 100 1 4)) := by
  refine (repeated_entries_are_kept_iff _ wideConfig rfl _ (fun entry member => ?_) (by decide +kernel)).mpr (by decide +kernel)
  rw [List.eq_of_mem_replicate member]
  exact wideKey_matches 0

/-- The same entry once more than a leaf has room for: one of them is lost. -/
theorem repeated_entry_is_lost :
    Runs.AtEachStep step (fun tree call => ¬ Exhausts call.perform tree)
        (BTree.create (Space.SpaceManager.withPolicy .firstFit) wideConfig : BTree Empty)
        (insertions (List.replicate 15 (wideKey 0, PageReference.make 100 1 4))) ∧
      Runs.AtEachStep step Succeeds (BTree.create (Space.SpaceManager.withPolicy .firstFit) wideConfig : BTree Empty)
        (insertions (List.replicate 15 (wideKey 0, PageReference.make 100 1 4))) ∧
      ¬ (Runs.after step (BTree.create (Space.SpaceManager.withPolicy .firstFit) wideConfig : BTree Empty)
        (insertions (List.replicate 15 (wideKey 0, PageReference.make 100 1 4)))).inLeaves.Perm
          (List.replicate 15 (wideKey 0, PageReference.make 100 1 4)) := by
  refine ⟨by decide +kernel, by decide +kernel, fun same => ?_⟩
  have shorter : (Runs.after step (BTree.create (Space.SpaceManager.withPolicy .firstFit) wideConfig : BTree Empty)
      (insertions (List.replicate 15 (wideKey 0, PageReference.make 100 1 4)))).inLeaves.length = 14 := by
    decide +kernel
  rw [same.length_eq, List.length_replicate] at shorter
  cases shorter

end TreeCall
end Quartz.Btree
