import Quartz.Proofs.PageOwnership
import Quartz.Proofs.TreeRules

/-! The pages of a tree's nodes belong to it: every operation keeps that each node's page is
allocated, that no page carries two nodes, and that no page is handed out while a node has it. -/

namespace Quartz.Btree
open Storage Format Space TreeM Fallible

variable {ω : Type}

structure BTree.Owned (tree : BTree ω) : Prop where
  allocator : tree.space.pageAllocator.Sound
  leaves : ∀ id ∈ tree.leaves, tree.space.pageAllocator.Owns id
  internals : ∀ id ∈ tree.internals, tree.space.pageAllocator.Owns id
  apart : ∀ id ∈ tree.leaves, id ∉ tree.internals
  fresh : tree.reissued = []

namespace BTree

theorem Owned.not_live {tree : BTree ω} (owned : tree.Owned) {id : PageId}
    (free : ¬ tree.space.pageAllocator.Owns id) : id ∉ tree.leaves ∧ id ∉ tree.internals :=
  ⟨fun live => free (owned.leaves id live), fun live => free (owned.internals id live)⟩

/-- There are no more nodes than pages. -/
theorem Owned.live_le {tree : BTree ω} (owned : tree.Owned) {nodes : List PageId} (distinct : nodes.Nodup)
    (live : ∀ id ∈ nodes, id ∈ tree.leaves ∨ id ∈ tree.internals) : nodes.length ≤ kMaxPageCount.toNat := by
  have inside : nodes.map UInt32.toNat ⊆ List.range kMaxPageCount.toNat := by
    intro number member
    obtain ⟨id, present, rfl⟩ := List.mem_map.mp member
    have owns := (live id present).elim (owned.leaves id) (owned.internals id)
    exact List.mem_range.mpr (owns.data owned.allocator).2
  have numbers : (nodes.map UInt32.toNat).Nodup := distinct.map fun _ _ same => UInt32.toNat.inj same
  simpa using (List.subperm_of_subset numbers inside).length_le

/-- The same pages, and a node on each page that had one before. -/
structure SamePages (tree after : BTree ω) : Prop where
  space : after.space = tree.space
  leaves : ∀ id, id ∈ after.leaves ↔ id ∈ tree.leaves
  internals : ∀ id, id ∈ after.internals ↔ id ∈ tree.internals
  reissued : after.reissued = tree.reissued

theorem samePages_scalars (tree : BTree ω) (rootId : PageId) (size : UInt64) (height : UInt32) (sink : Option ω) :
    SamePages tree { tree with rootId := rootId, size := size, height := height, walSink := sink } :=
  ⟨rfl, fun _ => Iff.rfl, fun _ => Iff.rfl, rfl⟩

theorem Owned.of_same {tree after : BTree ω} (owned : tree.Owned) (same : SamePages tree after) : after.Owned := by
  obtain ⟨space, leaves, internals, reissued⟩ := same
  refine ⟨space ▸ owned.allocator, fun id live => space ▸ owned.leaves id ((leaves id).mp live),
    fun id live => space ▸ owned.internals id ((internals id).mp live), fun id live other => ?_, reissued ▸ owned.fresh⟩
  exact owned.apart id ((leaves id).mp live) ((internals id).mp other)

/-- A new tree over a manager whose allocator is sound. -/
theorem owned_create {space : SpaceManager} (sound : space.pageAllocator.Sound) (config : BTreeNodeConfig)
    (sink : Option ω) : Owned ({ space := space, config := config, walSink := sink } : BTree ω) :=
  ⟨sound, by simp, by simp, by simp, rfl⟩

end BTree

theorem freePage_owns {space : SpaceManager} (sound : space.pageAllocator.Sound) (id : PageId) :
    (space.freePage id).2.pageAllocator.Sound ∧
      ∀ other, (space.freePage id).2.pageAllocator.Owns other ↔ space.pageAllocator.Owns other ∧ other ≠ id := by
  have pages : (space.freePage id).2.pageAllocator = (space.pageAllocator.free id).2 := by
    rw [SpaceManager.freePage]
    cases freed : (space.pageAllocator.free id).1 <;> simp [freed]
  rw [pages]
  by_cases owns : space.pageAllocator.Owns id
  · obtain ⟨after, freed, sound, left⟩ := PageAllocator.free_owned sound owns
    rw [freed]
    exact ⟨sound, left⟩
  · have unchanged : (space.pageAllocator.free id).2 = space.pageAllocator := by
      unfold PageAllocator.free
      split
      · rfl
      next data =>
      split
      · rfl
      next known =>
      split
      · rfl
      next used =>
        rw [not_or, UInt32.lt_iff_toNat_lt] at data
        rw [ge_iff_le, UInt32.le_iff_toNat_le] at known
        exact absurd ⟨Nat.not_lt.mp data.2, Nat.not_le.mp known, used⟩ owns
    rw [unchanged]
    exact ⟨sound, fun other => ⟨fun owned => ⟨owned, fun same => owns (same ▸ owned)⟩, And.left⟩⟩

namespace TreeM

open BTree

theorem check_keeps (status : Status) {invariant : BTree ω → Prop} : Keeps invariant (check status) := by
  unfold check
  split
  · exact keeps_pure _
  · exact keeps_fail _

theorem ofOption_keeps {α : Type} (value : Option α) {invariant : BTree ω → Prop} : Keeps invariant (ofOption value) := by
  cases value with
  | none => exact keeps_fail _
  | some value => exact keeps_pure _

theorem leaf_keeps (id : PageId) {invariant : BTree ω → Prop} : Keeps invariant (leaf id) :=
  keeps_bind keeps_read fun _ => ofOption_keeps _

theorem internal_keeps (id : PageId) {invariant : BTree ω → Prop} : Keeps invariant (internal id) :=
  keeps_bind keeps_read fun _ => ofOption_keeps _

theorem leaves_kept {α : Type} {computation : TreeM ω α} {tree after : BTree ω} {result : Except Failure α}
    (keeps : ∀ leaves, Keeps (fun tree : BTree ω => tree.leaves = leaves) computation)
    (done : computation.run tree = (result, after)) : after.leaves = tree.leaves := by
  have kept := (keeps tree.leaves).run rfl
  rwa [done] at kept

theorem onInternal_leaves {leaves : AList fun _ : PageId => LeafNode} (id : PageId) (change : InternalNode → Status × InternalNode) :
    Keeps (fun tree : BTree ω => tree.leaves = leaves) (onInternal id change) :=
  keeps_bind (internal_keeps _) fun _ => keeps_bind (keeps_update fun _ same => same) fun _ => check_keeps _

theorem ofOption_run {α : Type} {found : Option α} {value : α} (present : found = some value) (tree : BTree ω) :
    (ofOption found).run tree = (.ok value, tree) := by
  rw [present]
  rfl

theorem leaf_run (id : PageId) (tree : BTree ω) : (leaf id).run tree = (ofOption (tree.leaves.lookup id)).run tree :=
  run_bind_ok run_read

theorem internal_run (id : PageId) (tree : BTree ω) :
    (internal id).run tree = (ofOption (tree.internals.lookup id)).run tree :=
  run_bind_ok run_read

theorem leaf_found {id : PageId} {tree : BTree ω} {node : LeafNode} (found : tree.leaves.lookup id = some node) :
    (leaf id).run tree = (.ok node, tree) := by
  rw [leaf_run, ofOption_run found]

theorem internal_found {id : PageId} {tree : BTree ω} {node : InternalNode} (found : tree.internals.lookup id = some node) :
    (internal id).run tree = (.ok node, tree) := by
  rw [internal_run, ofOption_run found]

theorem ofExcept_run {α : Type} {found : Except Failure α} {value : α} (present : found = .ok value) (tree : BTree ω) :
    (TreeM.ofExcept found).run tree = (.ok value, tree) := by
  rw [present]
  rfl

theorem check_run (status : Status) (tree : BTree ω) :
    (check status).run tree = (if status.ok then .ok () else .error (.status status), tree) := by
  unfold check
  split <;> rfl

/-- A change of a leaf: its effect and its status. -/
theorem onLeaf_run {tree : BTree ω} {id : PageId} {node : LeafNode} (found : tree.leaves.lookup id = some node)
    (change : LeafNode → Status × LeafNode) :
    (onLeaf id change).run tree =
      (if (change node).1.ok then .ok () else .error (.status (change node).1),
        { tree with leaves := tree.leaves.insert id (change node).2 }) := by
  rw [onLeaf, run_bind_ok (leaf_found found), run_bind_ok (run_update _), check_run]

theorem onInternal_run {tree : BTree ω} {id : PageId} {node : InternalNode} (found : tree.internals.lookup id = some node)
    (change : InternalNode → Status × InternalNode) :
    (onInternal id change).run tree =
      (if (change node).1.ok then .ok () else .error (.status (change node).1),
        { tree with internals := tree.internals.insert id (change node).2 }) := by
  rw [onInternal, run_bind_ok (internal_found found), run_bind_ok (run_update _), check_run]

theorem onLeaf_absent {tree : BTree ω} {id : PageId} (absent : tree.leaves.lookup id = none)
    (change : LeafNode → Status × LeafNode) : (onLeaf id change).run tree = (.error .outOfRange, tree) :=
  run_bind_error (by rw [leaf_run, absent]; rfl)

theorem onInternal_absent {tree : BTree ω} {id : PageId} (absent : tree.internals.lookup id = none)
    (change : InternalNode → Status × InternalNode) : (onInternal id change).run tree = (.error .outOfRange, tree) :=
  run_bind_error (by rw [internal_run, absent]; rfl)

section Granted

variable {tree after : BTree ω} {id : PageId}

theorem ofOption_ok {α : Type} {found : Option α} {value : α} (done : (ofOption found).run tree = (.ok value, after)) :
    found = some value ∧ after = tree := by
  cases found with
  | none => cases done
  | some item =>
    cases done
    exact ⟨rfl, rfl⟩

theorem leaf_ok {node : LeafNode} (done : (leaf id).run tree = (.ok node, after)) :
    tree.leaves.lookup id = some node ∧ after = tree := ofOption_ok ((leaf_run id tree).symm.trans done)

theorem internal_ok {node : InternalNode} (done : (internal id).run tree = (.ok node, after)) :
    tree.internals.lookup id = some node ∧ after = tree := ofOption_ok ((internal_run id tree).symm.trans done)

theorem ofExcept_ok {α : Type} {found : Except Failure α} {value : α}
    (done : (TreeM.ofExcept found).run tree = (.ok value, after)) : found = .ok value ∧ after = tree := by
  cases found with
  | error failure => cases done
  | ok item =>
    cases done
    exact ⟨rfl, rfl⟩

theorem onLeaf_ok {change : LeafNode → Status × LeafNode} (done : (onLeaf id change).run tree = (.ok (), after)) :
    ∃ leaf, tree.leaves.lookup id = some leaf ∧ (change leaf).1.ok = true ∧
      after = { tree with leaves := tree.leaves.insert id (change leaf).2 } := by
  cases found : tree.leaves.lookup id with
  | none =>
    rw [onLeaf_absent found] at done
    cases done
  | some leaf =>
    rw [onLeaf_run found] at done
    by_cases fine : (change leaf).1.ok = true
    · rw [if_pos fine] at done
      cases done
      exact ⟨leaf, rfl, fine, rfl⟩
    · rw [if_neg fine] at done
      cases done

theorem onInternal_ok {change : InternalNode → Status × InternalNode} (done : (onInternal id change).run tree = (.ok (), after)) :
    ∃ node, tree.internals.lookup id = some node ∧ (change node).1.ok = true ∧
      after = { tree with internals := tree.internals.insert id (change node).2 } := by
  cases found : tree.internals.lookup id with
  | none =>
    rw [onInternal_absent found] at done
    cases done
  | some node =>
    rw [onInternal_run found] at done
    by_cases fine : (change node).1.ok = true
    · rw [if_pos fine] at done
      cases done
      exact ⟨node, rfl, fine, rfl⟩
    · rw [if_neg fine] at done
      cases done

end Granted

theorem onLeaf_samePages (id : PageId) (change : LeafNode → Status × LeafNode) (tree : BTree ω) :
    SamePages tree ((onLeaf id change).run tree).2 := by
  cases found : tree.leaves.lookup id with
  | none =>
    rw [onLeaf_absent found]
    exact ⟨rfl, fun _ => Iff.rfl, fun _ => Iff.rfl, rfl⟩
  | some node =>
    have live : id ∈ tree.leaves := AList.lookup_isSome.mp (by simp [found])
    rw [onLeaf_run found]
    refine ⟨rfl, fun other => ?_, fun _ => Iff.rfl, rfl⟩
    rw [AList.mem_insert]
    exact ⟨fun either => either.elim (fun same => same ▸ live) fun old => old, .inr⟩

theorem onInternal_samePages (id : PageId) (change : InternalNode → Status × InternalNode) (tree : BTree ω) :
    SamePages tree ((onInternal id change).run tree).2 := by
  cases found : tree.internals.lookup id with
  | none =>
    rw [onInternal_absent found]
    exact ⟨rfl, fun _ => Iff.rfl, fun _ => Iff.rfl, rfl⟩
  | some node =>
    have live : id ∈ tree.internals := AList.lookup_isSome.mp (by simp [found])
    rw [onInternal_run found]
    refine ⟨rfl, fun _ => Iff.rfl, fun other => ?_, rfl⟩
    rw [AList.mem_insert]
    exact ⟨fun either => either.elim (fun same => same ▸ live) fun old => old, .inr⟩

section Sink

variable [BTreeWalSink ω]

/-- An event changes nothing but the sink. -/
theorem notify_run (event : TreeEvent) (tree : BTree ω) :
    ∃ sink, (tree.walSink = none → sink = none) ∧ ((notify event).run tree).2 = { tree with walSink := sink } := by
  rw [notify, run_bind_ok run_read]
  cases heard : tree.walSink with
  | none => exact ⟨none, fun _ => rfl, by simp [← heard]⟩
  | some sink =>
    refine ⟨some (BTreeWalSink.notify sink event).2, by simp, ?_⟩
    simp only
    rw [run_bind_ok (run_update _), check_run]

theorem notify_samePages (event : TreeEvent) (tree : BTree ω) : SamePages tree ((notify event).run tree).2 := by
  obtain ⟨sink, -, after⟩ := notify_run event tree
  rw [after]
  exact samePages_scalars tree _ _ _ sink

theorem notify_owned (event : TreeEvent) : Keeps (Owned (ω := ω)) (notify event) :=
  keeps_of_run fun tree owned => owned.of_same (notify_samePages event tree)

end Sink

/-- The state after a page was taken: it is owned and no node has it. -/
structure Taken (tree : BTree ω) (id : PageId) : Prop where
  owned : tree.Owned
  owns : tree.space.pageAllocator.Owns id
  leaves : id ∉ tree.leaves
  internals : id ∉ tree.internals

/-- Taking a page of a tree that owns its nodes: it fails with the given status, or the page is new. -/
theorem takePage_cases {tree : BTree ω} (owned : tree.Owned) (failed : Status) :
    (∃ space, (takePage failed).run tree = (.error (.status failed), { tree with space := space }) ∧
      ({ tree with space := space } : BTree ω).Owned ∧
      ∀ other, space.pageAllocator.Owns other ↔ tree.space.pageAllocator.Owns other) ∨
    ∃ id space, (takePage failed).run tree = (.ok id, { tree with space := space }) ∧
      Taken ({ tree with space := space } : BTree ω) id ∧
      ∀ other, space.pageAllocator.Owns other ↔ tree.space.pageAllocator.Owns other ∨ other = id := by
  rcases SpaceManager.allocatePage_cases owned.allocator with
    ⟨space, failure, sound, owns, -⟩ | ⟨id, space, success, valid, sound, free, owns, -⟩
  · refine .inl ⟨space, ?_, ⟨sound, fun id live => (owns id).mpr (owned.leaves id live),
      fun id live => (owns id).mpr (owned.internals id live), owned.apart, owned.fresh⟩, owns⟩
    rw [takePage, run_bind_ok run_read, run_bind_ok (run_update _)]
    simp [failure]
  · obtain ⟨noLeaf, noInternal⟩ := owned.not_live free
    refine .inr ⟨id, space, ?_, ⟨⟨sound, fun other live => (owns other).mpr (.inl (owned.leaves other live)),
      fun other live => (owns other).mpr (.inl (owned.internals other live)), owned.apart, owned.fresh⟩,
      (owns id).mpr (.inr rfl), noLeaf, noInternal⟩, owns⟩
    rw [takePage, run_bind_ok run_read, run_bind_ok (run_update _)]
    simp [success, valid, isLive, noLeaf, noInternal]

section Allocation

variable [BTreeWalSink ω]

theorem allocateLeaf_owned (level : UInt32) : Keeps (Owned (ω := ω)) (allocateLeaf level) := by
  refine keeps_of_run fun tree owned => ?_
  rcases takePage_cases owned (Status.outOfMemory "BTree: failed to allocate leaf page") with
    ⟨space, failed, kept, -⟩ | ⟨id, space, done, taken, -⟩
  · rw [allocateLeaf, run_bind_error failed]
    exact kept
  · rw [allocateLeaf, run_bind_ok done, run_bind_ok run_read, if_neg taken.leaves, run_bind_ok (run_update _)]
    refine (keeps_bind (notify_owned _) fun _ => keeps_pure _).run ⟨taken.owned.allocator, fun other live => ?_,
      taken.owned.internals, fun other live => ?_, taken.owned.fresh⟩
    all_goals
      rcases (AList.mem_insert _).mp live with rfl | live
    · exact taken.owns
    · exact taken.owned.leaves other live
    · exact taken.internals
    · exact taken.owned.apart other live

theorem allocateInternal_owned (level : UInt32) : Keeps (Owned (ω := ω)) (allocateInternal level) := by
  refine keeps_of_run fun tree owned => ?_
  rcases takePage_cases owned (Status.outOfMemory "BTree: failed to allocate internal page") with
    ⟨space, failed, kept, -⟩ | ⟨id, space, done, taken, -⟩
  · rw [allocateInternal, run_bind_error failed]
    exact kept
  · rw [allocateInternal, run_bind_ok done, run_bind_ok run_read, if_neg taken.internals, run_bind_ok (run_update _)]
    refine (keeps_bind (notify_owned _) fun _ => keeps_pure _).run ⟨taken.owned.allocator, taken.owned.leaves,
      fun other live => ?_, fun other live both => ?_, taken.owned.fresh⟩
    · rcases (AList.mem_insert _).mp live with rfl | live
      · exact taken.owns
      · exact taken.owned.internals other live
    · rcases (AList.mem_insert _).mp both with rfl | both
      · exact taken.leaves live
      · exact taken.owned.apart other live both

/-- What a release leaves behind, whatever the sink says to it. -/
theorem releaseNode_run (id : PageId) (tree : BTree ω) :
    ∃ sink, (tree.walSink = none → sink = none) ∧ (releaseNode id).run tree = (.ok (), { tree with
      walSink := sink
      leaves := if id ∈ tree.leaves then tree.leaves.erase id else tree.leaves
      internals := if id ∈ tree.leaves then tree.internals else tree.internals.erase id
      space := (tree.space.freePage id).2 }) := by
  obtain ⟨sink, quiet, after⟩ := notify_run (.pageDeallocate id) tree
  refine ⟨sink, quiet, ?_⟩
  rw [releaseNode, run_bind_ok (run_ignore _), after, run_bind_ok (run_update _), run_update]
  by_cases leaf : id ∈ tree.leaves
  · simp [leaf]
  · by_cases internal : id ∈ tree.internals
    · simp [leaf, internal]
    · have same : tree.internals.erase id = tree.internals := AList.ext (List.kerase_of_notMem_keys internal)
      simp [leaf, internal, same]

theorem releaseNode_owned (id : PageId) : Keeps (Owned (ω := ω)) (releaseNode id) := by
  refine keeps_of_run fun tree owned => ?_
  obtain ⟨sink, -, released⟩ := releaseNode_run id tree
  obtain ⟨sound, owns⟩ := freePage_owns owned.allocator id
  rw [released]
  by_cases leaf : id ∈ tree.leaves
  · simp only [leaf, if_true]
    refine ⟨sound, fun other live => ?_, fun other live => (owns other).mpr ⟨owned.internals other live, ?_⟩,
      fun other live => ?_, owned.fresh⟩
    · obtain ⟨different, live⟩ := AList.mem_erase.mp live
      exact (owns other).mpr ⟨owned.leaves other live, different⟩
    · rintro rfl
      exact owned.apart other leaf live
    · exact owned.apart other (AList.mem_erase.mp live).2
  · simp only [leaf, if_false]
    refine ⟨sound, fun other live => (owns other).mpr ⟨owned.leaves other live, fun same => leaf (same ▸ live)⟩,
      fun other live => ?_, fun other live both => owned.apart other live (AList.mem_erase.mp both).2, owned.fresh⟩
    obtain ⟨different, live⟩ := AList.mem_erase.mp live
    exact (owns other).mpr ⟨owned.internals other live, different⟩

end Allocation
end TreeM

/-- What a property of trees has to withstand, to be kept by every operation. -/
theorem keeps_rules [BTreeWalSink ω] {fits : Key → Prop} {fine : PageId → LeafNode → Prop} {sturdy : PageId → InternalNode → Prop}
    {invariant : BTree ω → Prop} (closed : Closed fits fine sturdy)
    (leaves : ∀ tree id leaf, invariant tree → tree.leaves.lookup id = some leaf → fine id leaf)
    (internals : ∀ tree id node, invariant tree → tree.internals.lookup id = some node → sturdy id node)
    (scalars : ∀ tree rootId height, invariant tree → invariant { tree with rootId := rootId, height := height })
    (onLeaf : ∀ id change, (∀ leaf, fine id leaf → fine id (change leaf).2) → Keeps invariant (onLeaf id change))
    (onInternal : ∀ id change, (∀ node, sturdy id node → sturdy id (change node).2) → Keeps invariant (onInternal id change))
    (allocateLeaf : ∀ level, Keeps invariant (allocateLeaf level))
    (allocateInternal : ∀ level, Keeps invariant (allocateInternal level))
    (releaseNode : ∀ id, Keeps invariant (releaseNode id)) (notify : ∀ event, Keeps invariant (notify event)) :
    Rules fits fine sturdy (Keeps invariant) where
  toClosed := closed
  pure := keeps_pure
  fail := keeps_fail
  bind := keeps_bind
  read each _ := keeps_bind keeps_read each
  update change few _ := keeps_update fun tree holds => by
    obtain ⟨rootId, height, same⟩ := few tree
    rw [same]
    exact scalars tree rootId height holds
  leaf id next each := by
    refine keeps_of_run fun tree holds => ?_
    rw [run_bind, leaf_run]
    cases found : tree.leaves.lookup id with
    | none => exact holds
    | some node => exact (each node (leaves tree id node holds found)).run holds
  internal id next each := by
    refine keeps_of_run fun tree holds => ?_
    rw [run_bind, internal_run]
    cases found : tree.internals.lookup id with
    | none => exact holds
    | some node => exact (each node (internals tree id node holds found)).run holds
  onLeaf := onLeaf
  onInternal := onInternal
  allocateLeaf := allocateLeaf
  allocateInternal := allocateInternal
  releaseNode := releaseNode
  notify event _ := notify event

theorem owned_rules [BTreeWalSink ω] :
    Rules (ω := ω) (fun _ => True) (fun _ _ => True) (fun _ _ => True) (Keeps BTree.Owned) :=
  keeps_rules closed_true (fun _ _ _ _ _ => trivial) (fun _ _ _ _ _ => trivial)
    (fun tree _ _ owned => owned.of_same (BTree.samePages_scalars tree _ _ _ _))
    (fun id change _ => keeps_of_run fun tree owned => owned.of_same (onLeaf_samePages id change tree))
    (fun id change _ => keeps_of_run fun tree owned => owned.of_same (onInternal_samePages id change tree))
    allocateLeaf_owned allocateInternal_owned releaseNode_owned notify_owned

theorem TreeCall.perform_owned [BTreeWalSink ω] (call : TreeCall) : Keeps BTree.Owned (call.perform : TreeM ω Unit) :=
  owned_rules.perform (fun _ => keeps_update fun tree owned => owned.of_same (BTree.samePages_scalars tree _ _ _ _))
    notify_owned call trivial

end Quartz.Btree
