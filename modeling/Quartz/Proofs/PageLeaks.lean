import Quartz.Proofs.NodeOwnership

/-! No page leaks: a tree that has its space manager to itself owns exactly the pages of its
nodes, whatever its calls return and whatever the sink answers. -/

namespace Quartz.Btree
open Storage Format Space TreeM Fallible

variable {ω : Type}

def BTree.Used (tree : BTree ω) : Prop :=
  ∀ id, tree.space.pageAllocator.Owns id → id ∈ tree.leaves ∨ id ∈ tree.internals

theorem BTree.Used.of_same {tree after : BTree ω} (used : tree.Used) (same : SamePages tree after) : after.Used := by
  intro id owns
  rw [same.leaves, same.internals]
  exact used id (same.space ▸ owns)

/-- The pages that are handed out are those of the nodes. -/
structure BTree.Exact (tree : BTree ω) : Prop extends tree.Owned where
  used : tree.Used

namespace BTree.Exact

theorem of_same {tree after : BTree ω} (exact : tree.Exact) (same : SamePages tree after) : after.Exact :=
  ⟨exact.toOwned.of_same same, exact.used.of_same same⟩

theorem create {space : SpaceManager} (sound : space.pageAllocator.Sound) (unused : ∀ id, ¬ space.pageAllocator.Owns id)
    (config : BTreeNodeConfig) (sink : Option ω) :
    Exact ({ space := space, config := config, walSink := sink } : BTree ω) :=
  ⟨owned_create sound config sink, fun id owns => absurd owns (unused id)⟩

end BTree.Exact

namespace TreeM

open BTree

variable [BTreeWalSink ω]

theorem notify_used (event : TreeEvent) : Keeps (Used (ω := ω)) (notify event) :=
  keeps_of_run fun tree used => used.of_same (notify_samePages event tree)

theorem allocateLeaf_exact (level : UInt32) : Keeps (Exact (ω := ω)) (allocateLeaf level) := by
  refine keeps_of_run fun tree exact => ?_
  refine ⟨(allocateLeaf_owned level).run exact.toOwned, ?_⟩
  rcases takePage_cases exact.toOwned (Status.outOfMemory "BTree: failed to allocate leaf page") with
    ⟨space, failed, -, owns⟩ | ⟨id, space, done, taken, owns⟩
  · rw [allocateLeaf, run_bind_error failed]
    exact fun other owned => exact.used other ((owns other).mp owned)
  · rw [allocateLeaf, run_bind_ok done, run_bind_ok run_read, if_neg taken.leaves, run_bind_ok (run_update _)]
    refine (keeps_bind (notify_used _) fun _ => keeps_pure _).run fun other owned => ?_
    rw [AList.mem_insert]
    rcases (owns other).mp owned with old | rfl
    · exact (exact.used other old).imp_left .inr
    · exact .inl (.inl rfl)

theorem allocateInternal_exact (level : UInt32) : Keeps (Exact (ω := ω)) (allocateInternal level) := by
  refine keeps_of_run fun tree exact => ?_
  refine ⟨(allocateInternal_owned level).run exact.toOwned, ?_⟩
  rcases takePage_cases exact.toOwned (Status.outOfMemory "BTree: failed to allocate internal page") with
    ⟨space, failed, -, owns⟩ | ⟨id, space, done, taken, owns⟩
  · rw [allocateInternal, run_bind_error failed]
    exact fun other owned => exact.used other ((owns other).mp owned)
  · rw [allocateInternal, run_bind_ok done, run_bind_ok run_read, if_neg taken.internals, run_bind_ok (run_update _)]
    refine (keeps_bind (notify_used _) fun _ => keeps_pure _).run fun other owned => ?_
    rw [AList.mem_insert]
    rcases (owns other).mp owned with old | rfl
    · exact (exact.used other old).imp_right .inr
    · exact .inr (.inl rfl)

theorem releaseNode_exact (id : PageId) : Keeps (Exact (ω := ω)) (releaseNode id) := by
  refine keeps_of_run fun tree exact => ?_
  refine ⟨(releaseNode_owned id).run exact.toOwned, fun other owned => ?_⟩
  obtain ⟨sink, -, released⟩ := releaseNode_run id tree
  obtain ⟨-, owns⟩ := freePage_owns exact.allocator id
  rw [released] at owned ⊢
  obtain ⟨held, different⟩ := (owns other).mp owned
  by_cases leaf : id ∈ tree.leaves
  · simp only [leaf, if_true, AList.mem_erase]
    exact (exact.used other held).imp_left fun live => ⟨different, live⟩
  · simp only [leaf, if_false, AList.mem_erase]
    exact (exact.used other held).imp_right fun live => ⟨different, live⟩

end TreeM

theorem exact_rules [BTreeWalSink ω] :
    Rules (ω := ω) (fun _ => True) (fun _ _ => True) (fun _ _ => True) (Keeps BTree.Exact) :=
  keeps_rules closed_true (fun _ _ _ _ _ => trivial) (fun _ _ _ _ _ => trivial)
    (fun tree _ _ exact => exact.of_same (BTree.samePages_scalars tree _ _ _ _))
    (fun id change _ => keeps_of_run fun tree exact => exact.of_same (onLeaf_samePages id change tree))
    (fun id change _ => keeps_of_run fun tree exact => exact.of_same (onInternal_samePages id change tree))
    allocateLeaf_exact allocateInternal_exact releaseNode_exact
    (fun event => keeps_of_run fun tree exact => exact.of_same (notify_samePages event tree))

/-! ### Clearing -/

theorem freePages_owns (ids : List PageId) {space : SpaceManager} (sound : space.pageAllocator.Sound) :
    (ids.foldl (fun space id => (space.freePage id).2) space).pageAllocator.Sound ∧
      ∀ other, (ids.foldl (fun space id => (space.freePage id).2) space).pageAllocator.Owns other ↔
        space.pageAllocator.Owns other ∧ other ∉ ids := by
  induction ids generalizing space with
  | nil => exact ⟨sound, by simp⟩
  | cons id rest ih =>
    obtain ⟨freed, owns⟩ := freePage_owns sound id
    obtain ⟨final, left⟩ := ih freed
    refine ⟨final, fun other => ?_⟩
    rw [List.foldl_cons, left, owns, List.mem_cons, not_or, and_assoc]

theorem BTree.clear_unused {tree : BTree ω} (exact : tree.Exact) (id : PageId) :
    ¬ tree.clear.space.pageAllocator.Owns id := by
  intro owned
  obtain ⟨held, kept⟩ := ((freePages_owns _ exact.allocator).2 id).mp owned
  rw [List.mem_append, not_or] at kept
  rcases exact.used id held with leaf | internal
  · exact kept.1 leaf
  · exact kept.2 internal

theorem BTree.clear_exact {tree : BTree ω} (exact : tree.Exact) : tree.clear.Exact where
  allocator := (freePages_owns _ exact.allocator).1
  leaves id live := absurd live (AList.notMem_empty id)
  internals id live := absurd live (AList.notMem_empty id)
  apart id live := absurd live (AList.notMem_empty id)
  fresh := exact.fresh
  used id owned := absurd owned (tree.clear_unused exact id)

/-! ### Runs -/

/-- For data pages, being allocated is being owned. -/
theorem isAllocated_iff {allocator : PageAllocator} (sound : allocator.Sound) {id : PageId} (data : kReservedPageCount ≤ id) :
    allocator.isAllocated id = true ↔ allocator.Owns id := by
  have low := UInt32.le_iff_toNat_le.mp data
  have notReserved : ¬ id < kReservedPageCount := fun below => Nat.not_lt.mpr low (UInt32.lt_iff_toNat_lt.mp below)
  constructor
  · intro allocated
    unfold PageAllocator.isAllocated at allocated
    split at allocated
    · cases allocated
    split at allocated
    · cases allocated
    next known =>
      refine ⟨low, ?_, by simpa using allocated⟩
      rw [ge_iff_le, UInt32.le_iff_toNat_le] at known
      omega
  · intro owns
    obtain ⟨-, small⟩ := owns.data sound
    obtain ⟨-, known, used⟩ := owns
    have behind : ¬ id ≥ allocator.nextPageId := fun above => Nat.not_le.mpr known (UInt32.le_iff_toNat_le.mp above)
    rw [PageAllocator.isAllocated, if_neg (PageAllocator.ne_invalid small), if_neg behind, if_neg notReserved]
    simpa using used

/-- The calls that change a tree, clearing it included. -/
inductive TreeChange where
  | call (call : TreeCall)
  | clear
  deriving DecidableEq, Repr

namespace TreeChange

open BTree

variable [BTreeWalSink ω]

def step (tree : BTree ω) : TreeChange → BTree ω
  | .call operation => operation.step tree
  | .clear => tree.clear

/-- The data pages that are allocated are the pages of the nodes, and no page has two nodes. -/
structure PagesMatch (tree : BTree ω) : Prop where
  allocated : ∀ id, kReservedPageCount ≤ id →
    (tree.space.pageAllocator.isAllocated id = true ↔ id ∈ tree.leaves ∨ id ∈ tree.internals)
  apart : ∀ id, ¬ (id ∈ tree.leaves ∧ id ∈ tree.internals)

omit [BTreeWalSink ω] in
theorem pagesMatch_of_exact {tree : BTree ω} (exact : tree.Exact) : PagesMatch tree where
  allocated id data := by
    rw [isAllocated_iff exact.allocator data]
    exact ⟨exact.used id, fun live => live.elim (exact.leaves id) (exact.internals id)⟩
  apart id both := exact.apart id both.1 both.2

theorem step_exact {tree : BTree ω} (exact : tree.Exact) (change : TreeChange) : (step tree change).Exact := by
  cases change with
  | call operation =>
    have kept : Keeps (Exact (ω := ω)) operation.perform :=
      exact_rules.perform (fun change => keeps_update fun tree exact => exact.of_same (samePages_scalars tree _ _ _ _))
        (fun event => keeps_of_run fun tree exact => exact.of_same (notify_samePages event tree)) operation trivial
    exact kept.run exact
  | clear => exact clear_exact exact

/-- Over a space manager of its own, a tree owns exactly the pages of its nodes in every state
of every run, and none after it was cleared. -/
theorem no_page_leaks (space : SpaceManager) (sound : space.pageAllocator.Sound)
    (unused : ∀ id, ¬ space.pageAllocator.Owns id) (config : BTreeNodeConfig) (sink : Option ω) (changes : List TreeChange) :
    Runs.Always step PagesMatch ({ space := space, config := config, walSink := sink } : BTree ω) changes ∧
    Runs.AtEachStep step (fun tree change => change = .clear → ∀ id, kReservedPageCount ≤ id →
      (step tree change).space.pageAllocator.isAllocated id = false)
      ({ space := space, config := config, walSink := sink } : BTree ω) changes := by
  have always : Runs.Always step Exact ({ space := space, config := config, walSink := sink } : BTree ω) changes :=
    Runs.always_of_invariant (fun _ change exact _ => step_exact exact change) (.create sound unused config sink)
      (Runs.atEachStep_true _ _)
  refine ⟨fun done inside => pagesMatch_of_exact (always done inside), ?_⟩
  refine always.atEachStep fun tree change exact cleared id data => ?_
  subst cleared
  rw [step, ← Bool.not_eq_true, isAllocated_iff (clear_exact exact).allocator data]
  exact clear_unused exact id

/-- Two insertions, an erasure and a clearing, over a new space manager and without a sink. -/
theorem no_page_leaks_short :
    Runs.Always step PagesMatch ({ space := SpaceManager.withPolicy .firstFit } : BTree Empty)
      [.call (.insert (.uint32 2) (PageReference.make 40 1 4)), .call (.insert (.uint32 1) (PageReference.make 41 1 4)),
        .call (.erase (.uint32 2)), .clear] ∧
    Runs.AtEachStep step (fun tree change => change = .clear → ∀ id, kReservedPageCount ≤ id →
      (step tree change).space.pageAllocator.isAllocated id = false)
      ({ space := SpaceManager.withPolicy .firstFit } : BTree Empty)
      [.call (.insert (.uint32 2) (PageReference.make 40 1 4)), .call (.insert (.uint32 1) (PageReference.make 41 1 4)),
        .call (.erase (.uint32 2)), .clear] :=
  no_page_leaks _ PageAllocator.sound_new PageAllocator.owns_new _ _ _

end TreeChange
end Quartz.Btree
