import Quartz.Proofs.LoneLeaf
import Quartz.Proofs.TreeValidity

/-! Insertions that fail. Nothing is undone: what an insertion has written before a page runs
out or the sink refuses an event stays. So a failed insertion leaves the tree alone when
nothing can go wrong any more once it has begun to write. -/

namespace Quartz.Space
open Storage

/-- That many calls of `allocatePage` in a row hand out a page. -/
def SpaceManager.Supplies : SpaceManager → Nat → Prop
  | _, 0 => True
  | space, count + 1 => space.allocatePage.1 ≠ kInvalidPageId ∧ Supplies space.allocatePage.2 count

end Quartz.Space

namespace Quartz.Btree
open Storage Format Space TreeM Fallible

/-! ### What a split spends -/

section Codes

theorem Refused.code {α : Type} {node : α} {result : Status × α} (refused : Refused node result) :
    result.1.code ≠ .outOfMemory := by
  obtain ⟨text, rfl⟩ := refused
  simp [Status.invalidArgument]

theorem LeafNode.setEntries_code (leaf : LeafNode) (keys : List Key) (refs : List PageReference) :
    (leaf.setEntries keys refs).1.code ≠ .outOfMemory := by
  simp only [setEntries, syncEntries]
  split <;> simp [Status.corruption, Status.success]

theorem LeafNode.assignEntries_code (leaf : LeafNode) (keys : List Key) (refs : List PageReference) :
    (leaf.assignEntries keys refs).1.code ≠ .outOfMemory := by
  rcases leaf.assignEntries_cases keys refs with ⟨-, sets⟩ | ⟨-, refused⟩
  · rw [sets]
    exact leaf.setEntries_code keys refs
  · exact refused.code

theorem LeafNode.insert_code (leaf : LeafNode) (key : Key) (value : PageReference) :
    (leaf.insert key value).1.code ≠ .outOfMemory := by
  rcases leaf.insert_cases key value with ⟨-, sets⟩ | ⟨-, refused⟩
  · rw [sets]
    exact leaf.setEntries_code _ _
  · exact refused.code

theorem InternalNode.setEntries_code (node : InternalNode) (keys : List Key) (children : List PageReference) :
    (node.setEntries keys children).1.code ≠ .outOfMemory := by
  simp only [setEntries, syncEntries]
  split <;> simp [Status.corruption, Status.success]

theorem InternalNode.assignEntries_code (node : InternalNode) (keys : List Key) (children : List PageReference) :
    (node.assignEntries keys children).1.code ≠ .outOfMemory := by
  rcases node.assignEntries_cases keys children with ⟨-, sets⟩ | ⟨-, refused⟩
  · rw [sets]
    exact node.setEntries_code keys children
  · exact refused.code

theorem InternalNode.insert_code (node : InternalNode) (index : Nat) (key : Key) (child : PageReference) :
    (node.insert index key child).1.code ≠ .outOfMemory := by
  rcases node.insert_cases index key child with ⟨-, sets⟩ | ⟨-, refused⟩
  · rw [sets]
    exact node.setEntries_code _ _
  · exact refused.code

end Codes

namespace BTree

variable {ω : Type}

/-- There is no sink and the next pages are there. -/
structure Stocked (count : Nat) (tree : BTree ω) : Prop where
  silent : tree.walSink = none
  pages : tree.space.Supplies count

def Solvent (failure : Failure) (_ : BTree ω) : Prop := ∀ status, failure = .status status → status.code ≠ .outOfMemory

section Spends

variable {count : Nat}

theorem check_spends {status : Status} (solvent : status.code ≠ .outOfMemory) :
    Spec (Stocked count) (check status : TreeM ω Unit) (fun _ => Stocked count) Solvent := by
  unfold check
  split
  · exact spec_pure fun _ stocked => stocked
  · refine spec_fail fun _ _ other same => ?_
    cases same
    exact solvent

theorem ofOption_spends {α : Type} (value : Option α) :
    Spec (Stocked count) (ofOption value : TreeM ω α) (fun _ => Stocked count) Solvent := by
  cases value with
  | none => exact spec_fail fun _ _ _ same => by cases same
  | some value => exact spec_pure fun _ stocked => stocked

theorem leaf_spends (id : PageId) : Spec (Stocked count) (leaf id : TreeM ω LeafNode) (fun _ => Stocked count) Solvent :=
  spec_bind spec_read fun _ => ofOption_spends _

theorem internal_spends (id : PageId) :
    Spec (Stocked count) (internal id : TreeM ω InternalNode) (fun _ => Stocked count) Solvent :=
  spec_bind spec_read fun _ => ofOption_spends _

theorem onLeaf_spends (id : PageId) {change : LeafNode → Status × LeafNode} (solvent : ∀ leaf, (change leaf).1.code ≠ .outOfMemory) :
    Spec (Stocked count) (onLeaf id change : TreeM ω Unit) (fun _ => Stocked count) Solvent :=
  spec_bind (leaf_spends id) fun node => spec_bind (spec_update fun _ stocked => ⟨stocked.silent, stocked.pages⟩) fun _ =>
    check_spends (solvent node)

theorem onInternal_spends (id : PageId) {change : InternalNode → Status × InternalNode}
    (solvent : ∀ node, (change node).1.code ≠ .outOfMemory) :
    Spec (Stocked count) (onInternal id change : TreeM ω Unit) (fun _ => Stocked count) Solvent :=
  spec_bind (internal_spends id) fun node => spec_bind (spec_update fun _ stocked => ⟨stocked.silent, stocked.pages⟩) fun _ =>
    check_spends (solvent node)

theorem takePage_spends (failed : Status) :
    Spec (Stocked (count + 1)) (takePage failed : TreeM ω PageId) (fun _ => Stocked count) Solvent := by
  intro tree stocked
  rw [takePage_run, if_neg stocked.pages.1]
  exact ⟨stocked.silent, stocked.pages.2⟩

variable [BTreeWalSink ω]

theorem notify_spends (event : TreeEvent) :
    Spec (Stocked count) (notify event : TreeM ω Unit) (fun _ => Stocked count) Solvent := by
  intro tree stocked
  rw [notify_silent stocked.silent]
  exact stocked

theorem allocateLeaf_spends (level : UInt32) :
    Spec (Stocked (count + 1)) (allocateLeaf level : TreeM ω PageId) (fun _ => Stocked count) Solvent := by
  refine spec_bind (takePage_spends _) fun id => spec_bind spec_read fun tree => ?_
  split
  · refine spec_fail fun _ _ status same => ?_
    cases same
    simp [Status.corruption]
  · exact spec_bind (spec_update fun _ stocked => ⟨stocked.silent, stocked.pages⟩) fun _ =>
      spec_bind (notify_spends _) fun _ => spec_pure fun _ stocked => stocked

theorem allocateInternal_spends (level : UInt32) :
    Spec (Stocked (count + 1)) (allocateInternal level : TreeM ω PageId) (fun _ => Stocked count) Solvent := by
  refine spec_bind (takePage_spends _) fun id => spec_bind spec_read fun tree => ?_
  split
  · refine spec_fail fun _ _ status same => ?_
    cases same
    simp [Status.corruption]
  · exact spec_bind (spec_update fun _ stocked => ⟨stocked.silent, stocked.pages⟩) fun _ =>
      spec_bind (notify_spends _) fun _ => spec_pure fun _ stocked => stocked

theorem splitInternal_spends (nodeId : PageId) (index : Nat) (key : Key) (child : PageReference) :
    Spec (Stocked (count + 1)) (Rebalance.splitInternal nodeId index key child : TreeM ω _) (fun _ => Stocked count) Solvent :=
  spec_bind (internal_spends _) fun _ => spec_bind (ofOption_spends _) fun _ =>
    spec_bind (onInternal_spends _ fun node => node.assignEntries_code _ _) fun _ =>
    spec_bind (allocateInternal_spends _) fun _ =>
    spec_bind (onInternal_spends _ fun node => node.assignEntries_code _ _) fun _ =>
    spec_bind (notify_spends _) fun _ => spec_pure fun _ stocked => stocked

theorem insertIntoParent_spends (path : List SearchPathEntry) (promoted : Key) (leftId rightId : PageId) :
    Spec (Stocked (path.length + 1)) (Rebalance.insertIntoParent path promoted leftId rightId : TreeM ω _)
      (fun _ after => after.walSink = none) Solvent := by
  induction path generalizing promoted leftId rightId with
  | nil =>
    exact spec_bind spec_read fun _ => spec_bind (allocateInternal_spends _) fun _ =>
      spec_bind (onInternal_spends _ fun node => node.assignEntries_code _ _) fun _ =>
      spec_update fun _ stocked => stocked.silent
  | cons frame rest ih =>
    refine spec_bind (internal_spends _) fun parent => ?_
    split
    · exact (onInternal_spends _ fun node => node.insert_code _ _ _).weaken fun _ _ stocked => stocked.silent
    · exact spec_bind (splitInternal_spends _ _ _ _) fun split => ih _ _ _

theorem splitAndInsertLeaf_spends (leafId : PageId) (path : List SearchPathEntry) (key : Key) (value : PageReference) :
    Spec (Stocked (path.length + 2)) (Rebalance.splitAndInsertLeaf leafId path key value : TreeM ω _)
      (fun _ after => after.walSink = none) Solvent :=
  spec_bind (leaf_spends _) fun _ => spec_bind (ofOption_spends _) fun _ =>
    spec_bind (onLeaf_spends _ fun leaf => leaf.assignEntries_code _ _) fun _ =>
    spec_bind (allocateLeaf_spends _) fun _ =>
    spec_bind (onLeaf_spends _ fun leaf => leaf.assignEntries_code _ _) fun _ =>
    spec_bind (notify_spends _) fun _ => insertIntoParent_spends _ _ _ _

theorem place_spends (leafId : PageId) (path : List SearchPathEntry) (key : Key) (value : PageReference) :
    Spec (Stocked (path.length + 2)) (place leafId path key value : TreeM ω _) (fun _ after => after.walSink = none)
      Solvent := by
  refine spec_bind (leaf_spends _) fun leaf => ?_
  split
  · exact (onLeaf_spends _ fun leaf => leaf.insert_code _ _).weaken fun _ _ stocked => stocked.silent
  · exact splitAndInsertLeaf_spends _ _ _ _

end Spends

/-! ### Insertions that leave the tree alone -/

/-- Every lookup ends as before, and what the tree says about itself is the same. -/
structure Untouched (tree after : BTree ω) : Prop where
  find : ∀ key, after.find key = tree.find key
  size : after.size = tree.size
  height : after.height = tree.height
  rootId : after.rootId = tree.rootId

theorem untouched_refl (tree : BTree ω) : tree.Untouched tree := ⟨fun _ => rfl, rfl, rfl, rfl⟩

def heading (tree : BTree ω) : PageId × UInt64 × UInt32 := (tree.rootId, tree.size, tree.height)

theorem untouched_empty {tree after : BTree ω} (bare : tree.empty = true) (same : after.heading = tree.heading) :
    tree.Untouched after := by
  obtain ⟨rootId, size, height⟩ : after.rootId = tree.rootId ∧ after.size = tree.size ∧ after.height = tree.height := by
    simpa [heading] using same
  have still : after.empty = true := by rwa [empty, rootId]
  exact ⟨fun key => by simp [BTree.find, descendToLeaf, bare, still], size, height, rootId⟩

section Insertions

variable [BTreeWalSink ω]

/-- An insertion that returns a status other than OK leaves the tree untouched. -/
def FailsCleanly (tree : BTree ω) (key : Key) (value : PageReference) : Prop :=
  ∀ status after, (insert key value).run tree = (.error (.status status), after) → tree.Untouched after

/-- An empty tree gets its first leaf: there is a page, the sink accepts it and the entry fits. -/
structure Begins (tree : BTree ω) (key : Key) (value : PageReference) : Prop where
  page : tree.space.allocatePage.1 ≠ kInvalidPageId
  new : tree.space.allocatePage.1 ∉ tree.leaves
  accepted : tree.Accepts (.pageAllocate tree.space.allocatePage.1)
  fits : ((LeafNode.create tree.space.allocatePage.1 { tree.config with level := 0 }).insert key value).1.ok = true

/-- Nothing goes wrong once the insertion has begun to write: it ends before that, or the entry
goes into a leaf with room and the sink accepts it, or a leaf of a tree in order is split with
enough pages and a sink that refuses nothing. -/
inductive Careful (tree : BTree ω) (key : Key) (value : PageReference) : Prop where
  | invalid (refused : value.isValid = false)
  | unplaced {failure : Failure} (nonempty : tree.empty = false) (stopped : tree.descendForInsert key = .error failure)
  | first (bare : tree.empty = true)
      (logged : tree.Begins key value → (tree.told (.pageAllocate tree.space.allocatePage.1)).Accepts (.insert key value))
  | room {leafId : PageId} {index : Nat} {path : List SearchPathEntry} {leaf : LeafNode}
      (found : tree.descendForInsert key = .ok (leafId, index, path)) (standing : tree.leaves.lookup leafId = some leaf)
      (free : leaf.keyCount < leaf.capacity) (fits : (leaf.insert key value).1.ok = true)
      (accepted : tree.Accepts (.insert key value))
  | split {leafId : PageId} {index : Nat} {path : List SearchPathEntry} {order : List Key}
      (found : tree.descendForInsert key = .ok (leafId, index, path)) (ordered : tree.silenced.Ordered order)
      (new : key ∉ order) (matching : key.Matches tree.config) (pages : tree.space.Supplies (path.length + 2))
      (unrefused : tree.Unrefused)

/-- A leaf that is to take the entry has room for it, in its slots and in its page. -/
def Unsplit (tree : BTree ω) (key : Key) (value : PageReference) : Prop :=
  ∀ leafId index path leaf, tree.descendForInsert key = .ok (leafId, index, path) →
    tree.leaves.lookup leafId = some leaf → leaf.keyCount < leaf.capacity ∧ (leaf.insert key value).1.ok = true

variable {tree : BTree ω} {key : Key} {value : PageReference}

theorem inserted_cases (key : Key) (value : PageReference) (tree : BTree ω) :
    tree.Accepts (.insert key value) ∧ (∃ after, (inserted key value).run tree = (.ok (), after)) ∨
      ¬ tree.Accepts (.insert key value) ∧
        ∃ status after, (inserted key value).run tree = (.error (.status status), after) ∧ after.size = tree.size + 1 := by
  rw [inserted, run_bind_ok (run_update _)]
  by_cases accepts : tree.Accepts (.insert key value)
  · exact .inl ⟨accepts, _, notify_accepted (by exact accepts)⟩
  · have still : ¬ ({ tree with size := tree.size + 1 } : BTree ω).Accepts (.insert key value) := accepts
    obtain ⟨status, refused⟩ := notify_refused still
    exact .inr ⟨accepts, status, _, refused, rfl⟩

/-- A new leaf with its page and with the sink's consent, or a failure. -/
theorem allocateLeaf_cases (level : UInt32) (tree : BTree ω) :
    (¬ (tree.space.allocatePage.1 ≠ kInvalidPageId ∧ tree.space.allocatePage.1 ∉ tree.leaves ∧
          tree.Accepts (.pageAllocate tree.space.allocatePage.1)) ∧
        ∃ status after, (allocateLeaf level).run tree = (.error (.status status), after) ∧ after.heading = tree.heading) ∨
      (tree.space.allocatePage.1 ≠ kInvalidPageId ∧ tree.space.allocatePage.1 ∉ tree.leaves ∧
          tree.Accepts (.pageAllocate tree.space.allocatePage.1)) ∧
        ∃ after, (allocateLeaf level).run tree = (.ok tree.space.allocatePage.1, after) ∧ after.heading = tree.heading ∧
          after.walSink = (tree.told (.pageAllocate tree.space.allocatePage.1)).walSink ∧
          after.leaves.lookup tree.space.allocatePage.1 =
            some (LeafNode.create tree.space.allocatePage.1 { tree.config with level := level }) := by
  have taken := takePage_run (Status.outOfMemory "BTree: failed to allocate leaf page") tree
  by_cases page : tree.space.allocatePage.1 = kInvalidPageId
  · rw [if_pos page] at taken
    exact .inl ⟨fun all => all.1 page, _, _, run_bind_error taken, rfl⟩
  rw [if_neg page] at taken
  rw [allocateLeaf, run_bind_ok taken, run_bind_ok run_read]
  dsimp only
  by_cases new : tree.space.allocatePage.1 ∈ tree.leaves
  · rw [if_pos new]
    exact .inl ⟨fun all => all.2.1 new, _, _, rfl, rfl⟩
  rw [if_neg new, run_bind_ok (run_update _)]
  dsimp only
  generalize reissue : (if tree.isLive tree.space.allocatePage.1 then tree.space.allocatePage.1 :: tree.reissued
    else tree.reissued) = reissued
  let standing : BTree ω := { tree with
    space := tree.space.allocatePage.2
    leaves := tree.leaves.insert tree.space.allocatePage.1
      (LeafNode.create tree.space.allocatePage.1 { tree.config with level := level })
    reissued := reissued }
  by_cases accepted : tree.Accepts (.pageAllocate tree.space.allocatePage.1)
  · have heard : standing.Accepts (.pageAllocate tree.space.allocatePage.1) := accepted
    exact .inr ⟨⟨page, new, accepted⟩, _, run_bind_ok (notify_accepted heard), rfl, rfl, AList.lookup_insert _⟩
  · have unheard : ¬ standing.Accepts (.pageAllocate tree.space.allocatePage.1) := accepted
    obtain ⟨status, refused⟩ := notify_refused unheard
    exact .inl ⟨fun all => accepted all.2.2, status, _, run_bind_error refused, rfl⟩

/-- The first insertion fails before the tree has a root, or gets to its end. -/
theorem insertFirst_cases (key : Key) (value : PageReference) (tree : BTree ω) :
    (¬ tree.Begins key value ∧ ∃ status after, (insertFirst key value).run tree = (.error (.status status), after) ∧
        after.heading = tree.heading) ∨
      tree.Begins key value ∧ ∃ middle, (insertFirst key value).run tree = (inserted key value).run middle ∧
        middle.walSink = (tree.told (.pageAllocate tree.space.allocatePage.1)).walSink ∧ middle.size = tree.size := by
  rw [insertFirst]
  rcases allocateLeaf_cases 0 tree with
    ⟨missing, status, after, failed, same⟩ | ⟨⟨page, new, accepted⟩, next, created, same, heard, found⟩
  · exact .inl ⟨fun begins => missing ⟨begins.page, begins.new, begins.accepted⟩, status, after, run_bind_error failed, same⟩
  rw [run_bind_ok created]
  have filled := onLeaf_run found fun leaf => leaf.insert key value
  by_cases fits : ((LeafNode.create tree.space.allocatePage.1 { tree.config with level := 0 }).insert key value).1.ok = true
  · rw [if_pos fits] at filled
    rw [run_bind_ok filled, run_bind_ok (run_update _)]
    exact .inr ⟨⟨page, new, accepted, fits⟩, _, rfl, heard, congrArg (·.2.1) same⟩
  · rw [if_neg fits] at filled
    exact .inl ⟨fun begins => fits begins.fits, _, _, run_bind_error filled, same⟩

theorem insert_invalid (refused : value.isValid = false) :
    (insert key value).run tree = (.error (.status (Status.invalidArgument "BTree: invalid page reference")), tree) := by
  rw [insert, if_pos (by simp [refused])]
  rfl

theorem insert_empty (valid : value.isValid = true) (bare : tree.empty = true) :
    (insert key value).run tree = (insertFirst key value).run tree := by
  rw [insert, if_neg (by simp [valid]), run_bind_ok run_read, if_pos bare]

theorem insert_unplaced (valid : value.isValid = true) (nonempty : tree.empty = false) {failure : Failure}
    (stopped : tree.descendForInsert key = .error failure) : (insert key value).run tree = (.error failure, tree) := by
  rw [insert, if_neg (by simp [valid]), run_bind_ok run_read, if_neg (by simp [nonempty]), stopped]
  rfl

omit [BTreeWalSink ω] in
theorem empty_of_found {leafId : PageId} {index : Nat} {path : List SearchPathEntry}
    (found : tree.descendForInsert key = .ok (leafId, index, path)) : tree.empty = false := by
  by_contra bare
  rw [Bool.not_eq_false] at bare
  simp [descendForInsert, descendToLeaf, bare] at found

omit [BTreeWalSink ω] in
theorem standing_of_found {leafId : PageId} {index : Nat} {path : List SearchPathEntry}
    (found : tree.descendForInsert key = .ok (leafId, index, path)) : ∃ leaf, tree.leaves.lookup leafId = some leaf := by
  unfold descendForInsert at found
  split at found
  · cases found
  next leafId' index' path' down =>
    split at found
    · cases found
    next leaf standing =>
      repeat' split at found
      all_goals cases found
      all_goals exact ⟨leaf, standing⟩

theorem insert_found (valid : value.isValid = true) {leafId : PageId} {index : Nat} {path : List SearchPathEntry}
    (found : tree.descendForInsert key = .ok (leafId, index, path)) :
    (insert key value).run tree = (place leafId path key value >>= fun _ => inserted key value).run tree := by
  rw [insert, if_neg (by simp [valid]), run_bind_ok run_read, if_neg (by simp [empty_of_found found]), found]
  rfl

/-- An entry that goes into a leaf with room is logged after it has been written. -/
theorem insert_room (valid : value.isValid = true) {leafId : PageId} {index : Nat} {path : List SearchPathEntry} {leaf : LeafNode}
    (found : tree.descendForInsert key = .ok (leafId, index, path)) (standing : tree.leaves.lookup leafId = some leaf)
    (free : leaf.keyCount < leaf.capacity) (fits : (leaf.insert key value).1.ok = true) :
    (insert key value).run tree =
      (inserted key value).run { tree with leaves := tree.leaves.insert leafId (leaf.insert key value).2 } := by
  have filled := onLeaf_run standing fun leaf => leaf.insert key value
  rw [if_pos fits] at filled
  have placed : (place leafId path key value).run tree =
      (.ok (), { tree with leaves := tree.leaves.insert leafId (leaf.insert key value).2 }) := by
    rw [place, run_bind_ok (leaf_found standing), if_pos free, filled]
  rw [insert_found valid found, run_bind_ok placed]

/-- With enough pages and a sink that refuses nothing, a tree in order takes every new key. -/
theorem insert_split (valid : value.isValid = true) {leafId : PageId} {index : Nat} {path : List SearchPathEntry}
    {order : List Key} (found : tree.descendForInsert key = .ok (leafId, index, path))
    (ordered : tree.silenced.Ordered order) (new : key ∉ order) (matching : key.Matches tree.config)
    (pages : tree.space.Supplies (path.length + 2)) (unrefused : tree.Unrefused) :
    ((insert key value).run tree).1 = .ok () := by
  have alike := TreeCall.perform_unrefused unrefused (.insert key value)
  refine (congrArg Prod.fst alike).symm.trans ?_
  rcases insert_grows ordered new matching valid with ⟨status, after, failed, exhausted⟩ | ⟨next, _, _, -, done, -⟩
  · exfalso
    have quiet : tree.silenced.descendForInsert key = .ok (leafId, index, path) := by rw [silenced, descendForInsert_sink, found]
    have solvent := place_spends leafId path key value tree.silenced ⟨rfl, pages⟩
    rw [insert_found valid quiet] at failed
    rcases placed : (place leafId path key value).run tree.silenced with ⟨failure | _, middle⟩
    · rw [placed] at solvent
      rw [run_bind_error placed] at failed
      cases failed
      rcases exhausted with rfl | rfl
      · exact solvent _ rfl rfl
      · exact solvent _ rfl rfl
    · rw [placed] at solvent
      rw [run_bind_ok placed, inserted_silent solvent] at failed
      cases failed
  · exact congrArg Prod.fst done

theorem cleanly_iff {middle : BTree ω} (ran : (insert key value).run tree = (inserted key value).run middle)
    (size : middle.size = tree.size) : tree.FailsCleanly key value ↔ middle.Accepts (.insert key value) := by
  rcases inserted_cases key value middle with ⟨accepts, after, done⟩ | ⟨refuses, status, after, failed, more⟩
  · refine ⟨fun _ => accepts, fun _ status other stopped => ?_⟩
    rw [ran, done] at stopped
    cases stopped
  · refine ⟨fun cleanly => ?_, fun accepts => absurd accepts refuses⟩
    have untouched := cleanly status after (ran.trans failed)
    rw [size, untouched.size] at more
    simp at more

/-- A failed insertion leaves every lookup, the size, the height and the root alone when nothing
can go wrong once it has begun to write; where no leaf is split and the entry fits into its
page, this is the only way. -/
theorem failed_insert_changes_nothing (tree : BTree ω) (key : Key) (value : PageReference) :
    (tree.Careful key value → tree.FailsCleanly key value) ∧
      (tree.Unsplit key value → tree.FailsCleanly key value → tree.Careful key value) := by
  cases valid : value.isValid with
  | false =>
    refine ⟨fun _ status after failed => ?_, fun _ _ => .invalid valid⟩
    rw [insert_invalid valid] at failed
    cases failed
    exact untouched_refl tree
  | true =>
    refine ⟨fun careful => ?_, fun unsplit cleanly => ?_⟩
    · cases careful with
      | invalid refused => rw [valid] at refused; cases refused
      | unplaced nonempty stopped =>
        intro status after failed
        rw [insert_unplaced valid nonempty stopped] at failed
        cases failed
        exact untouched_refl tree
      | first bare logged =>
        rcases insertFirst_cases key value tree with ⟨_, status, next, stopped, same⟩ | ⟨begins, middle, ran, heard, size⟩
        · intro status after failed
          rw [insert_empty valid bare, stopped] at failed
          cases failed
          exact untouched_empty bare same
        · refine (cleanly_iff ((insert_empty valid bare).trans ran) size).mpr ?_
          intro sink there
          exact logged begins sink (heard ▸ there)
      | room found standing free fits accepted =>
        exact (cleanly_iff (insert_room valid found standing free fits) rfl).mpr accepted
      | split found ordered new matching pages unrefused =>
        intro status after failed
        have done := insert_split valid found ordered new matching pages unrefused
        rw [failed] at done
        cases done
    · cases bare : tree.empty with
      | true =>
        refine .first bare fun begins => ?_
        rcases insertFirst_cases key value tree with ⟨missing, _⟩ | ⟨_, middle, ran, heard, size⟩
        · exact absurd begins missing
        · have accepts := (cleanly_iff ((insert_empty valid bare).trans ran) size).mp cleanly
          intro sink there
          exact accepts sink (heard.trans there)
      | false =>
        rcases down : tree.descendForInsert key with failure | ⟨leafId, index, path⟩
        · exact .unplaced bare down
        · obtain ⟨leaf, standing⟩ := standing_of_found down
          obtain ⟨free, fits⟩ := unsplit leafId index path leaf down standing
          exact .room down standing free fits ((cleanly_iff (insert_room valid down standing free fits) rfl).mp cleanly)

end Insertions

/-- Fourteen keys, which fill the only leaf. -/
def fullLeaf : BTree Empty := Runs.after TreeCall.step TreeCall.wideTree (TreeCall.splitRun.take 14)

theorem failed_insert_changes_nothing_split :
    fullLeaf.Careful (wideKey 14) (PageReference.make 9 0 1) ∧ ¬ fullLeaf.Unsplit (wideKey 14) (PageReference.make 9 0 1) ∧
      fullLeaf.FailsCleanly (wideKey 14) (PageReference.make 9 0 1) := by
  obtain ⟨config, order, ordered, held⟩ := TreeCall.splitRun_ordered (List.take_prefix 14 TreeCall.splitRun)
  have facts : fullLeaf.descendForInsert (wideKey 14) = .ok (8, 14, []) ∧
      (fullLeaf.leaves.lookup 8).map (fun leaf => decide (leaf.keyCount < leaf.capacity)) = some false ∧
      fullLeaf.space.allocatePage.1 ≠ kInvalidPageId ∧ fullLeaf.space.allocatePage.2.allocatePage.1 ≠ kInvalidPageId := by
    decide +kernel
  obtain ⟨found, full, first, second⟩ := facts
  have careful : fullLeaf.Careful (wideKey 14) (PageReference.make 9 0 1) := by
    have silent : fullLeaf.walSink = none := ordered.sound.silent
    have quiet : fullLeaf.silenced = fullLeaf := by rw [silenced, ← silent]
    refine .split found (by rw [quiet]; exact ordered) (fun inside => ?_) ?_ ⟨first, second, trivial⟩ (fun sink => sink.elim)
    · exact absurd (held _ inside) (by decide +kernel)
    · rw [show fullLeaf.config = _ from config]
      exact wideKey_matches 14
  refine ⟨careful, fun unsplit => ?_, (failed_insert_changes_nothing _ _ _).1 careful⟩
  obtain ⟨leaf, standing, full⟩ := Option.map_eq_some_iff.mp full
  exact absurd (unsplit 8 14 [] leaf found standing).1 (by simpa using full)

end BTree

/-- A sink with an answer for every event to come; it accepts what comes after them. -/
structure Script where
  answers : List Bool

instance : BTreeWalSink Script where
  notify script _ := (if script.answers.headD true then Status.success else Status.ioError "log", ⟨script.answers.tail⟩)

namespace BTree

/-- Fourteen keys fill a leaf; for the fifteenth it is split, and the sink refuses the page of
the new sibling. The upper half of the keys is gone. -/
theorem refused_split_loses_keys :
    let calls := (List.range 14).map fun byte => TreeCall.insert (wideKey (UInt8.ofNat byte)) (PageReference.make 9 0 1)
    let tree : BTree Script := Runs.after TreeCall.step
      { space := SpaceManager.withPolicy .firstFit, config := { keyType := .binary, binaryKeySize := 256 }
        walSink := some ⟨List.replicate 15 true ++ [false]⟩ } calls
    let result := (insert (wideKey 14) (PageReference.make 9 0 1)).run tree
    result.1 = .error (.status (Status.ioError "log")) ∧ tree.find (wideKey 13) = .ok (PageReference.make 9 0 1) ∧
      result.2.find (wideKey 13) = .error (.status (Status.invalidArgument "BTree: key not found")) := by
  decide +kernel

end BTree
end Quartz.Btree
