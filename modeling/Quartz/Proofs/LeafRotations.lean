import Quartz.Proofs.LeafMaps
import Quartz.Proofs.TreeValidity

/-! Rotations between two leaves. The key that the donor gives goes to the parent, and the
separator comes down with the donor's reference: a pair survives only where the two keys are
the same. -/

namespace Quartz.Btree
open Storage Format TreeM Fallible BTree

namespace LeafNode

theorem eraseAt_parts {leaf : LeafNode} {index : Nat} (done : (leaf.eraseAt index).1.ok = true) :
    (leaf.eraseAt index).2.keys = leaf.keys.eraseIdx index ∧ (leaf.eraseAt index).2.refs = leaf.refs.eraseIdx index ∧
      (leaf.eraseAt index).2.allowsDuplicates = leaf.allowsDuplicates := by
  rcases leaf.eraseAt_cases index with ⟨-, sets⟩ | ⟨-, text, refused⟩
  · rw [sets]
    exact leaf.setEntries_parts _ _
  · rw [refused] at done
    cases done

theorem assignEntries_parts {leaf : LeafNode} {keys : List Key} {refs : List PageReference}
    (done : (leaf.assignEntries keys refs).1.ok = true) :
    keys.length = refs.length ∧ (leaf.assignEntries keys refs).2.keys = keys ∧
      (leaf.assignEntries keys refs).2.refs = refs ∧
      (leaf.assignEntries keys refs).2.allowsDuplicates = leaf.allowsDuplicates := by
  rcases leaf.assignEntries_cases keys refs with ⟨⟨same, -⟩, sets⟩ | ⟨-, text, refused⟩
  · rw [sets]
    exact ⟨same.symm, leaf.setEntries_parts _ _⟩
  · rw [refused] at done
    cases done

end LeafNode

theorem InternalNode.setKeyAt_keys {node : InternalNode} {index : Nat} {key : Key}
    (done : (node.setKeyAt index key).1.ok = true) : (node.setKeyAt index key).2.keys = node.keys.set index key := by
  rw [setKeyAt] at done ⊢
  split at done
  · cases done
  next inside =>
    rw [if_neg inside, syncEntries]
    simp only
    split
    · rfl
    · rfl

theorem zip_eraseIdx {α β : Type} (first : List α) (second : List β) (index : Nat) :
    (first.eraseIdx index).zip (second.eraseIdx index) = (first.zip second).eraseIdx index := by
  induction first generalizing second index with
  | nil => simp
  | cons item rest ih =>
    cases second with
    | nil => simp
    | cons other others =>
      cases index with
      | zero => simp
      | succ index => simp [ih]

theorem exchange_perm {α : Type} {first second received : List α} {index : Nat} {old new : α}
    (here : first[index]? = some old) (taken : received.Perm (new :: second)) :
    (first.eraseIdx index ++ received).Perm (first ++ second) ↔ new = old := by
  obtain ⟨inside, same⟩ := List.getElem?_eq_some_iff.mp here
  have gave : first.Perm (old :: first.eraseIdx index) := by
    have perm := List.getElem_cons_eraseIdx_perm inside
    rw [same] at perm
    exact perm.symm
  have after : (first.eraseIdx index ++ received).Perm (new :: (first.eraseIdx index ++ second)) :=
    (taken.append_left _).trans List.perm_middle
  have before : (first ++ second).Perm (old :: (first.eraseIdx index ++ second)) := gave.append_right _
  rw [after.congr_left, before.congr_right]
  exact (@List.perm_append_right_iff _ [new] [old] _).trans List.singleton_perm_singleton

namespace Rebalance

inductive Rotation where
  | fromLeft
  | fromRight
  deriving DecidableEq, Repr

namespace Rotation

variable {ω : Type}

def borrow : Rotation → PageId → Nat → PageId → PageId → TreeM ω Unit
  | .fromLeft, parentId, childIndex, donorId, nodeId => borrowFromLeftLeaf parentId childIndex donorId nodeId
  | .fromRight, parentId, childIndex, donorId, nodeId => borrowFromRightLeaf parentId childIndex nodeId donorId

/-- The place of the donor among the children of the parent. -/
def donorIndex (childIndex : Nat) : Rotation → Nat
  | .fromLeft => childIndex - 1
  | .fromRight => childIndex + 1

/-- The place of the separator between the two leaves. -/
def separatorIndex (childIndex : Nat) : Rotation → Nat
  | .fromLeft => childIndex - 1
  | .fromRight => childIndex

/-- The place in the donor of the entry that it gives. -/
def movedIndex (donor : LeafNode) : Rotation → Nat
  | .fromLeft => donor.keyCount - 1
  | .fromRight => 0

def receive {α : Type} (item : α) (items : List α) : Rotation → List α
  | .fromLeft => item :: items
  | .fromRight => items ++ [item]

def joined (donorKeys nodeKeys : List Key) : Rotation → List Key
  | .fromLeft => donorKeys ++ nodeKeys
  | .fromRight => nodeKeys ++ donorKeys

theorem borrow_eq (side : Rotation) (parentId : PageId) (childIndex : Nat) (donorId nodeId : PageId) :
    (side.borrow parentId childIndex donorId nodeId : TreeM ω Unit) = (do
      let separator ← ofOption (← internal parentId).keys[side.separatorIndex childIndex]?
      let donor ← leaf donorId
      let key ← ofOption donor.keys[side.movedIndex donor]?
      let ref ← ofOption donor.refs[side.movedIndex donor]?
      onLeaf donorId fun donor => donor.eraseAt (side.movedIndex donor)
      setParentKey parentId (side.separatorIndex childIndex) key
      onLeaf nodeId fun node => node.assignEntries (side.receive separator node.keys) (side.receive ref node.refs)) := by
  cases side <;> rfl

/-- The donor is the neighbour of the node below their parent and has more than half of the
entries that fit; the node has fewer. -/
structure Adjacent (side : Rotation) (tree : BTree ω) (parentId : PageId) (childIndex : Nat) (donorId nodeId : PageId)
    (parent : InternalNode) (donor node : LeafNode) : Prop where
  parentHere : tree.internals.lookup parentId = some parent
  donorHere : tree.leaves.lookup donorId = some donor
  nodeHere : tree.leaves.lookup nodeId = some node
  inside : side = .fromLeft → 0 < childIndex
  beside : parent.children[side.donorIndex childIndex]?.map (·.pageId) = some donorId
  place : parent.children[childIndex]?.map (·.pageId) = some nodeId
  different : donorId ≠ nodeId
  rich : minKeyCount donor.capacity false < donor.keyCount
  poor : node.keyCount < minKeyCount node.capacity false

/-- The two leaves hold the same pairs as before, in order, and nothing else has changed but the
separator between them. -/
structure Keeps (side : Rotation) (tree after : BTree ω) (parentId : PageId) (childIndex : Nat) (donorId nodeId : PageId)
    (donor node : LeafNode) : Prop where
  leaves : ∃ donor' node', after.leaves.lookup donorId = some donor' ∧ after.leaves.lookup nodeId = some node' ∧
    (donor'.entries ++ node'.entries).Perm (donor.entries ++ node.entries) ∧
    LeafNode.unsorted donor'.allowsDuplicates donor'.keys = false ∧
    LeafNode.unsorted node'.allowsDuplicates node'.keys = false
  others : ∀ id, id ≠ donorId → id ≠ nodeId → after.leaves.lookup id = tree.leaves.lookup id
  separators : ∀ id index, (id = parentId → index ≠ side.separatorIndex childIndex) →
    (after.internals.lookup id).bind (·.keys[index]?) = (tree.internals.lookup id).bind (·.keys[index]?)

/-- The separator is the key that the donor gives, and both leaves are in order when it has moved. -/
def Fitting (side : Rotation) (childIndex : Nat) (parent : InternalNode) (donor node : LeafNode) : Prop :=
  ∃ key, parent.keys[side.separatorIndex childIndex]? = some key ∧ donor.keys[side.movedIndex donor]? = some key ∧
    LeafNode.unsorted donor.allowsDuplicates (donor.keys.eraseIdx (side.movedIndex donor)) = false ∧
    LeafNode.unsorted node.allowsDuplicates (side.receive key node.keys) = false

variable {side : Rotation} {tree after : BTree ω} {parentId donorId nodeId : PageId} {childIndex : Nat}
  {parent : InternalNode} {donor node : LeafNode}

/-- What a rotation that succeeds has read and written. -/
theorem borrow_ok (parentHere : tree.internals.lookup parentId = some parent)
    (donorHere : tree.leaves.lookup donorId = some donor) (nodeHere : tree.leaves.lookup nodeId = some node)
    (different : donorId ≠ nodeId)
    (done : (side.borrow parentId childIndex donorId nodeId).run tree = (.ok (), after)) :
    ∃ separator key ref, parent.keys[side.separatorIndex childIndex]? = some separator ∧
      donor.keys[side.movedIndex donor]? = some key ∧ donor.refs[side.movedIndex donor]? = some ref ∧
      (donor.eraseAt (side.movedIndex donor)).1.ok = true ∧
      (parent.setKeyAt (side.separatorIndex childIndex) key).1.ok = true ∧
      (node.assignEntries (side.receive separator node.keys) (side.receive ref node.refs)).1.ok = true ∧
      after = { tree with
        leaves := (tree.leaves.insert donorId (donor.eraseAt (side.movedIndex donor)).2).insert nodeId
          (node.assignEntries (side.receive separator node.keys) (side.receive ref node.refs)).2
        internals := tree.internals.insert parentId (parent.setKeyAt (side.separatorIndex childIndex) key).2 } := by
  rw [borrow_eq] at done
  obtain ⟨_, _, parentRead, afterParent⟩ := bind_ok done
  obtain ⟨here, rfl⟩ := internal_ok parentRead
  cases parentHere.symm.trans here
  obtain ⟨separator, _, separatorRead, afterSeparator⟩ := bind_ok afterParent
  obtain ⟨separatorHere, rfl⟩ := ofOption_ok separatorRead
  obtain ⟨_, _, donorRead, afterDonor⟩ := bind_ok afterSeparator
  obtain ⟨here, rfl⟩ := leaf_ok donorRead
  cases donorHere.symm.trans here
  obtain ⟨key, _, keyRead, afterKey⟩ := bind_ok afterDonor
  obtain ⟨keyHere, rfl⟩ := ofOption_ok keyRead
  obtain ⟨ref, _, refRead, afterRef⟩ := bind_ok afterKey
  obtain ⟨refHere, rfl⟩ := ofOption_ok refRead
  obtain ⟨_, _, erased, afterErasure⟩ := bind_ok afterRef
  obtain ⟨_, here, given, rfl⟩ := onLeaf_ok erased
  cases donorHere.symm.trans here
  obtain ⟨_, _, changed, afterChange⟩ := bind_ok afterErasure
  obtain ⟨_, here, raised, rfl⟩ := onInternal_ok changed
  cases parentHere.symm.trans here
  obtain ⟨_, here, taken, rfl⟩ := onLeaf_ok afterChange
  rw [AList.lookup_insert_ne different.symm] at here
  cases nodeHere.symm.trans here
  exact ⟨separator, key, ref, separatorHere, keyHere, refHere, given, raised, taken, rfl⟩

theorem receive_perm {α : Type} (side : Rotation) (item : α) (items : List α) :
    (side.receive item items).Perm (item :: items) := by
  cases side with
  | fromLeft => exact List.Perm.refl _
  | fromRight => exact List.perm_append_singleton item items

theorem zip_receive (side : Rotation) {key : Key} {ref : PageReference} {keys : List Key} {refs : List PageReference}
    (same : (side.receive key keys).length = (side.receive ref refs).length) :
    (side.receive key keys).zip (side.receive ref refs) = side.receive (key, ref) (keys.zip refs) := by
  cases side with
  | fromLeft => rfl
  | fromRight =>
    have lengths : keys.length = refs.length := by simpa [receive] using same
    rw [receive, receive, receive, List.zip_append lengths]
    rfl

theorem keeps_iff (adjacent : side.Adjacent tree parentId childIndex donorId nodeId parent donor node)
    (done : (side.borrow parentId childIndex donorId nodeId).run tree = (.ok (), after)) :
    side.Keeps tree after parentId childIndex donorId nodeId donor node ↔ side.Fitting childIndex parent donor node := by
  obtain ⟨separator, key, ref, separatorHere, keyHere, refHere, given, raised, taken, rfl⟩ :=
    borrow_ok adjacent.parentHere adjacent.donorHere adjacent.nodeHere adjacent.different done
  obtain ⟨donorKeys, donorRefs, donorFlag⟩ := LeafNode.eraseAt_parts given
  obtain ⟨lengths, nodeKeys, nodeRefs, nodeFlag⟩ := LeafNode.assignEntries_parts taken
  have moved : donor.entries[side.movedIndex donor]? = some (key, ref) := by
    rw [LeafNode.entries, List.getElem?_zip_eq_some]
    exact ⟨keyHere, refHere⟩
  have donorEntries : (donor.eraseAt (side.movedIndex donor)).2.entries = donor.entries.eraseIdx (side.movedIndex donor) := by
    rw [LeafNode.entries, donorKeys, donorRefs, zip_eraseIdx, LeafNode.entries]
  have nodeEntries : (node.assignEntries (side.receive separator node.keys) (side.receive ref node.refs)).2.entries =
      side.receive (separator, ref) node.entries := by
    rw [LeafNode.entries, nodeKeys, nodeRefs, zip_receive side lengths, LeafNode.entries]
  have pairs := exchange_perm moved (side.receive_perm (separator, ref) node.entries)
  rw [Prod.mk.injEq, and_iff_left rfl] at pairs
  constructor
  · rintro ⟨⟨donor', node', donorHere, nodeHere, same, donorSorted, nodeSorted⟩, -, -⟩
    rw [AList.lookup_insert_ne adjacent.different, AList.lookup_insert] at donorHere
    rw [AList.lookup_insert] at nodeHere
    cases donorHere
    cases nodeHere
    rw [donorEntries, nodeEntries, pairs] at same
    rw [donorKeys, donorFlag] at donorSorted
    rw [nodeKeys, nodeFlag, same] at nodeSorted
    exact ⟨key, by rw [separatorHere, same], keyHere, donorSorted, nodeSorted⟩
  · rintro ⟨found, separatorFound, keyFound, donorSorted, nodeSorted⟩
    cases keyHere.symm.trans keyFound
    cases separatorHere.symm.trans separatorFound
    refine ⟨⟨(donor.eraseAt (side.movedIndex donor)).2, _, ?_, AList.lookup_insert _, ?_, ?_, ?_⟩, fun id away apart => ?_,
      fun id index other => ?_⟩
    · rw [AList.lookup_insert_ne adjacent.different, AList.lookup_insert]
    · rw [donorEntries, nodeEntries, pairs]
    · rw [donorKeys, donorFlag]
      exact donorSorted
    · rw [nodeKeys, nodeFlag]
      exact nodeSorted
    · rw [AList.lookup_insert_ne apart, AList.lookup_insert_ne away]
    · by_cases here : id = parentId
      · subst here
        rw [AList.lookup_insert, adjacent.parentHere, Option.bind_some, Option.bind_some,
          InternalNode.setKeyAt_keys raised, List.getElem?_set_ne (other rfl).symm]
      · rw [AList.lookup_insert_ne here]

/-- Both leaves together are in order, and the donor is counted. -/
structure Ordered (side : Rotation) (donor node : LeafNode) : Prop where
  count : donor.keyCount = donor.keys.length
  flags : node.allowsDuplicates = donor.allowsDuplicates
  sorted : LeafNode.unsorted donor.allowsDuplicates (side.joined donor.keys node.keys) = false

theorem Ordered.fitting_iff (ordered : side.Ordered donor node) (inside : (donor.keys[side.movedIndex donor]?).isSome) :
    side.Fitting childIndex parent donor node ↔
      parent.keys[side.separatorIndex childIndex]? = donor.keys[side.movedIndex donor]? := by
  obtain ⟨key, here⟩ := Option.isSome_iff_exists.mp inside
  constructor
  · rintro ⟨found, separatorFound, keyFound, -, -⟩
    rw [separatorFound, keyFound]
  · intro same
    refine ⟨key, same.trans here, here, ?_, ?_⟩
    · refine LeafNode.unsorted_iff.mpr ((LeafNode.unsorted_iff.mp ordered.sorted).sublist ?_)
      refine (List.eraseIdx_sublist _ _).trans ?_
      cases side with
      | fromLeft => exact List.sublist_append_left _ _
      | fromRight => exact List.sublist_append_right _ _
    · rw [ordered.flags]
      refine LeafNode.unsorted_iff.mpr ((LeafNode.unsorted_iff.mp ordered.sorted).sublist ?_)
      have member : key ∈ donor.keys := List.mem_of_getElem? here
      cases side with
      | fromLeft => exact (List.singleton_sublist.mpr member).append_right node.keys
      | fromRight => exact (List.singleton_sublist.mpr member).append_left node.keys

/-- A rotation keeps the pairs of two leaves exactly when the separator is the key that moves and
both leaves are in order with it; for leaves that are in order, exactly when the two keys are the same. -/
theorem rotation_keeps_pairs_iff (adjacent : side.Adjacent tree parentId childIndex donorId nodeId parent donor node)
    (done : (side.borrow parentId childIndex donorId nodeId).run tree = (.ok (), after)) :
    (side.Keeps tree after parentId childIndex donorId nodeId donor node ↔ side.Fitting childIndex parent donor node) ∧
      (side.Ordered donor node → (side.Keeps tree after parentId childIndex donorId nodeId donor node ↔
        parent.keys[side.separatorIndex childIndex]? = donor.keys[side.movedIndex donor]?)) := by
  have fitting := keeps_iff adjacent done
  obtain ⟨-, key, -, -, keyHere, -⟩ := borrow_ok adjacent.parentHere adjacent.donorHere adjacent.nodeHere adjacent.different done
  exact ⟨fitting, fun ordered => fitting.trans (ordered.fitting_iff (by simp [keyHere]))⟩

/-- The keys from one to eighty, one more than a leaf of numbers can lose. -/
def richDonor : LeafNode :=
  ((LeafNode.create 8 {}).assignEntries ((List.range 80).map fun number => .uint32 (UInt32.ofNat (number + 1)))
    ((List.range 80).map fun number => .make (UInt32.ofNat (number + 100)) 1 0)).2

/-- A leaf with a neighbour to its left that can give a key, and the separator between the two. -/
def poorNeighbours (separator : UInt32) : BTree Empty where
  space := Space.SpaceManager.withPolicy .firstFit
  rootId := 7
  height := 2
  leaves := (AList.singleton 8 richDonor).insert 9 (LeafNode.create 9 {})
  internals := AList.singleton 7
    ((InternalNode.create 7 {}).assignEntries [.uint32 separator] [makeIndexRef 8, makeIndexRef 9]).2

theorem poorNeighbours_adjacent (separator : UInt32) :
    Rotation.fromLeft.Adjacent (poorNeighbours separator) 7 1 8 9
      ((InternalNode.create 7 {}).assignEntries [.uint32 separator] [makeIndexRef 8, makeIndexRef 9]).2 richDonor
      (LeafNode.create 9 {}) where
  parentHere := by simp [poorNeighbours, AList.lookup, AList.singleton_entries]
  donorHere := by simp [poorNeighbours, AList.lookup, AList.singleton_entries]
  nodeHere := by simp [poorNeighbours]
  inside := fun _ => Nat.one_pos
  beside := rfl
  place := rfl
  different := by decide
  rich := by decide +kernel
  poor := by decide +kernel

theorem ran {result : Except Failure Unit × BTree Empty} (done : result.1 = .ok ()) : result = (.ok (), result.2) := by
  rw [← done]

theorem rotation_keeps_pairs_equal :
    Rotation.fromLeft.Keeps (poorNeighbours 80) ((fromLeft.borrow 7 1 8 9).run (poorNeighbours 80)).2 7 1 8 9 richDonor
      (LeafNode.create 9 {}) :=
  ((rotation_keeps_pairs_iff (poorNeighbours_adjacent 80) (ran (by decide +kernel))).2
    ⟨by decide +kernel, by decide +kernel, by decide +kernel⟩).mpr (by decide +kernel)

/-- The greatest key of the donor goes up, and its reference is filed under the separator. -/
theorem rotation_renames_entry :
    ((fromLeft.borrow 7 1 8 9).run (poorNeighbours 81)).1 = .ok () ∧
      ¬ Rotation.fromLeft.Keeps (poorNeighbours 81) ((fromLeft.borrow 7 1 8 9).run (poorNeighbours 81)).2 7 1 8 9 richDonor
        (LeafNode.create 9 {}) := by
  have done : ((fromLeft.borrow 7 1 8 9).run (poorNeighbours 81)).1 = .ok () := by decide +kernel
  refine ⟨done, fun keeps => ?_⟩
  obtain ⟨key, separatorHere, keyHere, -⟩ := (keeps_iff (poorNeighbours_adjacent 81) (ran done)).mp keeps
  exact absurd (separatorHere.trans keyHere.symm) (by decide +kernel)

end Rotation
end Rebalance
end Quartz.Btree
