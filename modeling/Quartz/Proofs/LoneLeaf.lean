import Mathlib.Algebra.Order.BigOperators.Group.List
import Quartz.Lib.SortedPairs
import Quartz.Proofs.TreeInsertion

/-! A tree with at most one leaf, whatever its keys. Its entries are a sorted list of pairs:
an insertion places a pair in it and an erasure removes the first pair of its key. -/

namespace Quartz.Btree
open Storage Format TreeM Fallible BTree SortedPairs

def BTree.inLeaves {ω : Type} (tree : BTree ω) : List (Key × PageReference) :=
  tree.leaves.entries.flatMap fun node => node.2.keys.zip node.2.refs

def TreeCall.Succeeds {ω : Type} [BTreeWalSink ω] (tree : BTree ω) (call : TreeCall) : Prop :=
  (call.perform.run tree).1 = .ok ()

instance {ω : Type} [BTreeWalSink ω] (tree : BTree ω) (call : TreeCall) : Decidable (TreeCall.Succeeds tree call) :=
  inferInstanceAs (Decidable (_ = _))

def span (entries : List (Key × PageReference)) : Nat :=
  (entries.flatMap fun entry => entry.1.serialize ++ entry.2.serialize).length

/-- A leaf with these entries whose page agrees with it. -/
structure LeafNode.Row (config : BTreeNodeConfig) (leaf : LeafNode) (entries : List (Key × PageReference)) : Prop where
  page : PageOk config .leaf leaf.toBTreeNode
  count : leaf.keyCount = entries.length
  keys : leaf.keys = entries.map Prod.fst
  refs : leaf.refs = entries.map Prod.snd
  room : entries.length ≤ computeCapacity config .leaf
  fits : span entries ≤ kEntryAreaSize

theorem zip_entries (entries : List (Key × PageReference)) :
    (entries.map Prod.fst).zip (entries.map Prod.snd) = entries := by
  rw [List.zip_map', List.map_id']

theorem span_eq (entries : List (Key × PageReference)) :
    span entries = ((entries.map Prod.fst).map fun key => key.serialize.length + PageReference.kSize).sum := by
  simp [span, List.length_flatMap, Function.comp_def]

theorem span_sublist {first second : List (Key × PageReference)} (fewer : first.Sublist second) :
    span first ≤ span second := by
  rw [span_eq, span_eq]
  exact ((fewer.map _).map _).sum_le_sum fun _ _ => Nat.zero_le _

theorem span_fits {config : BTreeNodeConfig} {entries : List (Key × PageReference)}
    (matching : ∀ entry ∈ entries, entry.1.Matches config) (room : entries.length ≤ computeCapacity config .leaf) :
    span entries ≤ kEntryAreaSize := by
  have each : ∀ key ∈ entries.map Prod.fst, key.Matches config := by simpa using fun key ref => matching (key, ref)
  have fits := @entries_fit _ _ (entries.map Prod.snd) kEntryAreaSize each (by rw [List.length_map]; exact room)
  rwa [zip_entries] at fits

theorem lowerBound_between {front back : List (Key × PageReference)} {key : Key}
    (smaller : ∀ entry ∈ front, entry.1 < key) (larger : ∀ entry ∈ back, key ≤ entry.1) :
    KeyComparator.lowerBound ((front ++ back).map Prod.fst) key = front.length := by
  rw [KeyComparator.lowerBound, List.map_append, Search.lowerBound_append, List.length_map]
  · intro item member
    obtain ⟨entry, inFront, rfl⟩ := List.mem_map.mp member
    simpa using smaller entry inFront
  · intro item member
    obtain ⟨entry, inBack, rfl⟩ := List.mem_map.mp member
    simpa using larger entry inBack

theorem no_equal_key {entries : List (Key × PageReference)} {key : Key} (absent : stack key entries = [])
    (index : Nat) : (entries.map Prod.fst)[index]?.any (fun item => KeyComparator.equal item key) = false := by
  cases here : (entries.map Prod.fst)[index]? with
  | none => rfl
  | some item =>
    obtain ⟨entry, member, rfl⟩ := List.mem_map.mp (List.mem_of_getElem? here)
    simpa using stack_eq_nil.mp absent entry member

theorem find_entries {entries : List (Key × PageReference)} (sorted : Sorted entries) (key : Key) :
    (∃ front back value, entries = front ++ (key, value) :: back ∧ (∀ entry ∈ front, entry.1 < key) ∧
      KeyComparator.find (entries.map Prod.fst) key = front.length) ∨
    stack key entries = [] ∧ KeyComparator.find (entries.map Prod.fst) key = entries.length := by
  cases found : stack key entries with
  | nil =>
    refine .inr ⟨rfl, ?_⟩
    rw [KeyComparator.find, no_equal_key found, if_neg Bool.false_ne_true, List.length_map]
  | cons top rest =>
    obtain ⟨front, back, rfl, smaller, larger, -⟩ := sorted.exists_first found
    have behind : ∀ entry ∈ (key, top) :: back, key ≤ entry.1 := by simpa using fun a b => larger (a, b)
    refine .inl ⟨front, back, top, rfl, smaller, ?_⟩
    rw [KeyComparator.find, lowerBound_between smaller behind]
    simp

namespace LeafNode

variable {config : BTreeNodeConfig} {leaf : LeafNode} {entries : List (Key × PageReference)} {key : Key}
  {value : PageReference}

/-- New entries are written out unless they take too many bytes. -/
theorem setEntries_row (page : PageOk config .leaf leaf.toBTreeNode) (room : entries.length ≤ computeCapacity config .leaf) :
    span entries ≤ kEntryAreaSize ∧
        (∃ after, leaf.setEntries (entries.map Prod.fst) (entries.map Prod.snd) = (Status.success, after) ∧ after.Row config entries) ∨
      kEntryAreaSize < span entries ∧ (leaf.setEntries (entries.map Prod.fst) (entries.map Prod.snd)).1.ok = false := by
  have small := Nat.lt_of_le_of_lt room (computeCapacity_lt config .leaf)
  rcases leaf.setEntries_cases (entries.map Prod.fst) (entries.map Prod.snd) with ⟨fits, stored⟩ | ⟨large, refused⟩
  · rw [zip_entries] at fits
    refine .inl ⟨fits, _, stored, ⟨page.type, page.capacity, page.duplicates⟩, ?_, rfl, rfl, room, fits⟩
    simp only [LeafNode.filled, BTreeNode.setKeyCount, BTreeNode.keyCount, List.length_map]
    exact Nat.mod_eq_of_lt small
  · rw [zip_entries] at large
    exact .inr ⟨Nat.not_le.mp large, refused⟩

/-- A leaf with room places every valid entry unless duplicates are forbidden and its key is there. -/
theorem Row.insert_eq (row : leaf.Row config entries) (fresh : config.allowDuplicates = true ∨ stack key entries = [])
    (sorted : Sorted entries) (valid : value.isValid = true) (room : entries.length < computeCapacity config .leaf) :
    leaf.insert key value =
      leaf.setEntries ((push key value entries).map Prod.fst) ((push key value entries).map Prod.snd) := by
  obtain ⟨front, back, rfl, smaller, larger⟩ := sorted.exists_append key
  have free : ¬ leaf.keyCount ≥ leaf.capacity := by
    rw [row.count, row.page.capacity]
    omega
  have index : leaf.lowerBound key = front.length := by
    rw [LeafNode.lowerBound, row.keys, lowerBound_between smaller larger]
  have allowed : ¬ (!leaf.allowsDuplicates && leaf.keys[leaf.lowerBound key]?.any fun item =>
      KeyComparator.equal item key) = true := by
    rcases fresh with repeats | absent
    · simp [row.page.duplicates, repeats]
    · rw [row.keys, no_equal_key absent, Bool.and_false]
      exact Bool.false_ne_true
  rw [LeafNode.insert, if_neg (by simp [valid]), if_neg free]
  rw [if_neg allowed, index, row.keys, row.refs]
  rw [push_append smaller larger, List.map_append, List.map_append, List.map_append, List.map_append,
    HeapTree.insertIdx_between (List.length_map _), HeapTree.insertIdx_between (List.length_map _)]
  rfl

theorem Row.eraseAt_eq {front back : List (Key × PageReference)} (row : leaf.Row config (front ++ (key, value) :: back)) :
    leaf.eraseAt front.length = leaf.setEntries ((front ++ back).map Prod.fst) ((front ++ back).map Prod.snd) := by
  have inside : ¬ front.length ≥ leaf.keys.length := by
    rw [row.keys, List.length_map, List.length_append, List.length_cons]
    omega
  rw [eraseAt, if_neg inside, row.keys, row.refs]
  simp [List.eraseIdx_append_of_length_le]

theorem Row.insert_full (row : leaf.Row config entries) (full : computeCapacity config .leaf ≤ entries.length) :
    (leaf.insert key value).1.ok = false := by
  rw [LeafNode.insert]
  split
  · rfl
  · rw [if_pos (by rw [row.count, row.page.capacity]; exact full)]
    rfl

end LeafNode

namespace BTree

variable {ω : Type} {config : BTreeNodeConfig} {tree after : BTree ω} {entries : List (Key × PageReference)} {key : Key}
  {value : PageReference}

/-- No leaf, or one leaf at the root, with these entries; nobody listens. -/
structure Alone (config : BTreeNodeConfig) (tree : BTree ω) (entries : List (Key × PageReference)) : Prop where
  silent : tree.walSink = none
  configured : tree.config = config
  sorted : Sorted entries
  size : tree.size.toNat = entries.length
  standing : entries = [] ∧ tree.rootId = kInvalidPageId ∧ tree.leaves = ∅ ∨
    entries ≠ [] ∧ tree.rootId ≠ kInvalidPageId ∧
      ∃ leaf, tree.leaves = AList.singleton tree.rootId leaf ∧ leaf.Row config entries

theorem alone_create (space : Space.SpaceManager) (config : BTreeNodeConfig) :
    Alone config (BTree.create space config : BTree ω) [] :=
  ⟨rfl, rfl, List.Pairwise.nil, rfl, .inl ⟨rfl, rfl, rfl⟩⟩

theorem Alone.inLeaves (alone : tree.Alone config entries) : tree.inLeaves = entries := by
  rcases alone.standing with ⟨rfl, -, none⟩ | ⟨-, -, leaf, one, row⟩
  · simp [BTree.inLeaves, none]
  · simp [BTree.inLeaves, one, AList.singleton_entries, row.keys, row.refs, zip_entries]

theorem Alone.room (alone : tree.Alone config entries) : entries.length ≤ computeCapacity config .leaf := by
  rcases alone.standing with ⟨rfl, -, -⟩ | ⟨-, -, leaf, -, row⟩
  · exact Nat.zero_le _
  · exact row.room

theorem descend_root {leaf : LeafNode} (one : tree.leaves = AList.singleton tree.rootId leaf) (fuel : Nat) :
    tree.descend key (fuel + 1) tree.rootId [] = .ok (tree.rootId, []) := by
  have live : tree.rootId ∈ tree.leaves := by rw [one]; exact List.mem_singleton_self _
  rw [descend, if_pos live]

theorem lookup_root {leaf : LeafNode} (one : tree.leaves = AList.singleton tree.rootId leaf) :
    tree.leaves.lookup tree.rootId = some leaf := by
  rw [one, ← AList.insert_empty, AList.lookup_insert]

/-- A new entry goes into the only leaf unless duplicates are forbidden and its key is there. -/
theorem Alone.descendForInsert (alone : tree.Alone config entries)
    (fresh : config.allowDuplicates = true ∨ stack key entries = []) (some : entries ≠ []) :
    ∃ index, tree.descendForInsert key = .ok (tree.rootId, index, []) := by
  obtain ⟨-, live, leaf, one, row⟩ := alone.standing.resolve_left fun none => some none.1
  have notEmpty : tree.empty = false := by simpa [empty] using live
  refine ⟨leaf.lowerBound key, ?_⟩
  rcases fresh with repeats | absent
  · simp [BTree.descendForInsert, BTree.descendToLeaf, notEmpty, descend_root one, lookup_root one, alone.configured, repeats]
  · have other := no_equal_key absent (leaf.lowerBound key)
    rw [← row.keys] at other
    simp only [BTree.descendForInsert, BTree.descendToLeaf, notEmpty, descend_root one, lookup_root one, if_false_true]
    split
    next inside =>
      have bound : leaf.lowerBound key < leaf.keys.length := by
        rw [row.keys, List.length_map, ← row.count]
        simpa using (Bool.and_eq_true_iff.mp inside).2
      rw [List.getElem?_eq_getElem bound, Option.any_some] at other
      simp only [List.getElem?_eq_getElem bound, other, if_false_true]
    · rfl

/-- An exact search finds the first entry of its key. -/
theorem Alone.descendToLeaf (alone : tree.Alone config entries) (key : Key) :
    (∃ front back value, entries = front ++ (key, value) :: back ∧ (∀ entry ∈ front, entry.1 < key) ∧
      tree.descendToLeaf key true = .ok (tree.rootId, front.length, [])) ∨
    stack key entries = [] ∧ ∃ status, tree.descendToLeaf key true = .error (.status status) := by
  rcases alone.standing with ⟨rfl, bare, -⟩ | ⟨-, live, leaf, one, row⟩
  · exact .inr ⟨rfl, _, by simp only [BTree.descendToLeaf, empty, bare, beq_self_eq_true, if_true]; rfl⟩
  have standing := lookup_root one
  have notEmpty : tree.empty = false := by simpa [empty] using live
  rcases find_entries alone.sorted key with ⟨front, back, value, parts, smaller, found⟩ | ⟨none, missing⟩
  · refine .inl ⟨front, back, value, parts, smaller, ?_⟩
    have place : leaf.find key = front.length := by rw [LeafNode.find, row.keys, found]
    have inside : ¬ front.length ≥ leaf.keyCount := by
      rw [row.count, parts, List.length_append, List.length_cons]
      omega
    have here : leaf.keys[front.length]? = some key := by simp [row.keys, parts]
    simp [BTree.descendToLeaf, notEmpty, descend_root one, standing, place, inside, here]
  · refine .inr ⟨none, Status.invalidArgument "BTree: key not found", ?_⟩
    have outside : leaf.find key ≥ leaf.keyCount := by rw [LeafNode.find, row.keys, missing, row.count]
    simp [BTree.descendToLeaf, notEmpty, descend_root one, standing, outside]

theorem Alone.find_eq (alone : tree.Alone config entries) (key : Key) :
    (∃ value, (key, value) ∈ entries ∧ tree.find key = .ok value) ∨
      stack key entries = [] ∧ ∃ status, tree.find key = .error (.status status) := by
  rcases alone.descendToLeaf key with ⟨front, back, value, parts, -, down⟩ | ⟨none, status, down⟩
  · obtain ⟨-, -, leaf, one, row⟩ := alone.standing.resolve_left fun none => by simp [none.1] at parts
    have here : leaf.refs[front.length]? = some value := by simp [row.refs, parts]
    exact .inl ⟨value, by simp [parts], by simp [BTree.find, down, lookup_root one, here]⟩
  · exact .inr ⟨none, status, by simp [BTree.find, down]⟩

theorem Alone.small (alone : tree.Alone config entries) : entries.length < 2 ^ 32 :=
  Nat.lt_of_le_of_lt alone.room (computeCapacity_lt config .leaf)

theorem size_succ {size : UInt64} {count : Nat} (same : size.toNat = count) (small : count < 2 ^ 32) :
    (size + 1).toNat = count + 1 := by
  rw [UInt64.toNat_add, same, UInt64.toNat_one]
  exact Nat.mod_eq_of_lt (by omega)

theorem length_push (key : Key) (value : PageReference) (entries : List (Key × PageReference)) :
    (push key value entries).length = entries.length + 1 :=
  (push_perm key value entries).length_eq

theorem push_ne_nil (key : Key) (value : PageReference) (entries : List (Key × PageReference)) :
    push key value entries ≠ [] := by
  rw [← List.length_pos_iff, length_push]
  exact Nat.succ_pos _

theorem takePage_run (failed : Status) (tree : BTree ω) :
    (takePage failed).run tree =
      if tree.space.allocatePage.1 = kInvalidPageId then
        (.error (.status failed), { tree with space := tree.space.allocatePage.2 })
      else (.ok tree.space.allocatePage.1, { tree with
        space := tree.space.allocatePage.2
        reissued := if tree.isLive tree.space.allocatePage.1 then tree.space.allocatePage.1 :: tree.reissued
          else tree.reissued }) := by
  rw [takePage, run_bind_ok run_read, run_bind_ok (run_update _)]
  split
  · rfl
  · by_cases live : tree.isLive tree.space.allocatePage.1 = true
    · rw [if_pos live, if_pos live]
      rfl
    · rw [if_neg live, if_neg live]
      rfl

theorem onLeaf_insert {id : PageId} {leaf : LeafNode} (one : tree.leaves = AList.singleton id leaf)
    (row : leaf.Row config entries) (fresh : config.allowDuplicates = true ∨ stack key entries = []) (sorted : Sorted entries)
    (valid : value.isValid = true) (room : entries.length < computeCapacity config .leaf) :
    span (push key value entries) ≤ kEntryAreaSize ∧
        (∃ next, (onLeaf id fun leaf => leaf.insert key value).run tree =
          (.ok (), { tree with leaves := AList.singleton id next }) ∧ next.Row config (push key value entries)) ∨
      kEntryAreaSize < span (push key value entries) ∧ ∃ status after,
        (onLeaf id fun leaf => leaf.insert key value).run tree = (.error (.status status), after) := by
  have standing : tree.leaves.lookup id = some leaf := by rw [one, ← AList.insert_empty, AList.lookup_insert]
  have changes := onLeaf_run standing fun leaf => leaf.insert key value
  rw [row.insert_eq fresh sorted valid room] at changes
  have grown : (push key value entries).length ≤ computeCapacity config .leaf := by
    rw [length_push]
    exact room
  rcases LeafNode.setEntries_row row.page grown with ⟨fits, next, stored, nextRow⟩ | ⟨full, refused⟩
  · rw [stored, one, AList.insert_singleton_eq] at changes
    exact .inl ⟨fits, next, changes, nextRow⟩
  · rw [refused, if_neg Bool.false_ne_true] at changes
    exact .inr ⟨full, _, _, changes⟩

section Changes

variable [BTreeWalSink ω]

/-- An insertion into the only leaf. -/
theorem Alone.insert_more (alone : tree.Alone config entries)
    (fresh : config.allowDuplicates = true ∨ stack key entries = []) (some : entries ≠ []) (valid : value.isValid = true)
    (room : entries.length < computeCapacity config .leaf) :
    span (push key value entries) ≤ kEntryAreaSize ∧
        (∃ after, (insert key value).run tree = (.ok (), after) ∧ after.Alone config (push key value entries)) ∨
      kEntryAreaSize < span (push key value entries) ∧ ((insert key value).run tree).1 ≠ .ok () := by
  obtain ⟨index, down⟩ := alone.descendForInsert fresh some
  obtain ⟨-, live, leaf, one, row⟩ := alone.standing.resolve_left fun none => some none.1
  have notEmpty : ¬ tree.empty = true := by simpa [empty] using live
  have free : leaf.keyCount < leaf.capacity := by
    rw [row.count, row.page.capacity]
    exact room
  have start : (insert key value).run tree =
      (onLeaf tree.rootId (fun leaf => leaf.insert key value) >>= fun _ => inserted key value).run tree := by
    rw [insert, if_neg (by simp [valid]), run_bind_ok run_read, if_neg notEmpty, run_bind_ok (ofExcept_run down _)]
    simp only [BTree.place, Fallible.bind_assoc]
    rw [run_bind_ok (leaf_found (lookup_root one)), if_pos free]
  rcases onLeaf_insert one row fresh alone.sorted valid room with ⟨fits, next, changed, nextRow⟩ | ⟨full, status, after, failed⟩
  · have ended : (insert key value).run tree = (.ok (), { tree with
        leaves := AList.singleton tree.rootId next, size := tree.size + 1 }) := by
      rw [start, run_bind_ok changed]
      exact inserted_silent (by exact alone.silent) key value
    refine .inl ⟨fits, _, ended, ?_⟩
    exact ⟨alone.silent, alone.configured, alone.sorted.push key value,
      (size_succ alone.size alone.small).trans (length_push key value entries).symm,
      .inr ⟨push_ne_nil key value entries, live, next, rfl, nextRow⟩⟩
  · refine .inr ⟨full, ?_⟩
    rw [start, run_bind_error failed]
    intro same
    cases same

theorem Alone.insert_bare (alone : tree.Alone config []) (valid : value.isValid = true) :
    (insert key value).run tree = (insertFirst key value).run tree := by
  obtain ⟨-, bare, -⟩ := alone.standing.resolve_right fun some => some.1 rfl
  rw [insert, if_neg (by simp [valid]), run_bind_ok run_read, if_pos (by simp [empty, bare])]

theorem Alone.insert_exhausted (alone : tree.Alone config []) (valid : value.isValid = true)
    (none : tree.space.allocatePage.1 = kInvalidPageId) : Exhausts (insert key value) tree := by
  have taken := takePage_run (Status.outOfMemory "BTree: failed to allocate leaf page") tree
  rw [if_pos none] at taken
  have failed : Exhausts (allocateLeaf 0) tree := Exhausts.bind ⟨_, _, taken, .inl rfl⟩
  obtain ⟨status, after, stopped, exhausted⟩ : Exhausts (insertFirst key value) tree := failed.bind
  exact ⟨status, after, (alone.insert_bare valid).trans stopped, exhausted⟩

/-- The insertion of the first entry. -/
theorem Alone.insert_first (alone : tree.Alone config []) (valid : value.isValid = true) :
    (tree.space.allocatePage.1 ≠ kInvalidPageId ∧ 0 < computeCapacity config .leaf ∧ span [(key, value)] ≤ kEntryAreaSize) ∧
        (∃ after, (insert key value).run tree = (.ok (), after) ∧ after.Alone config [(key, value)]) ∨
      ¬ (tree.space.allocatePage.1 ≠ kInvalidPageId ∧ 0 < computeCapacity config .leaf ∧
        span [(key, value)] ≤ kEntryAreaSize) ∧ ((insert key value).run tree).1 ≠ .ok () := by
  obtain ⟨-, -, none⟩ := alone.standing.resolve_right fun some => some.1 rfl
  by_cases exhausted : tree.space.allocatePage.1 = kInvalidPageId
  · obtain ⟨status, after, failed, -⟩ := alone.insert_exhausted valid exhausted
    refine .inr ⟨fun all => all.1 exhausted, ?_⟩
    rw [failed]
    intro same
    cases same
  have taken := takePage_run (Status.outOfMemory "BTree: failed to allocate leaf page") tree
  rw [if_neg exhausted] at taken
  obtain ⟨leaf, row, middle, allocated, silent, configured, size, one⟩ : ∃ leaf : LeafNode, leaf.Row config [] ∧
      ∃ middle, (allocateLeaf 0).run tree = (.ok tree.space.allocatePage.1, middle) ∧ middle.walSink = Option.none ∧
        middle.config = config ∧ middle.size = tree.size ∧
        middle.leaves = AList.singleton tree.space.allocatePage.1 leaf := by
    have ok := LeafNode.create_ok tree.space.allocatePage.1 tree.config 0
    rw [alone.configured] at ok
    refine ⟨_, ⟨ok.page, rfl, rfl, rfl, Nat.zero_le _, Nat.zero_le _⟩, ?_⟩
    rw [allocateLeaf, run_bind_ok taken, run_bind_ok run_read, if_neg (by simp [none]), run_bind_ok (run_update _),
      run_bind_ok (notify_silent (by exact alone.silent) _)]
    exact ⟨_, rfl, alone.silent, alone.configured, rfl, by simp only [none, alone.configured, AList.insert_empty]⟩
  rw [alone.insert_bare valid, insertFirst, run_bind_ok allocated]
  by_cases room : 0 < computeCapacity config .leaf
  · rcases onLeaf_insert one row (.inr rfl) List.Pairwise.nil valid room with
      ⟨fits, next, changed, nextRow⟩ | ⟨full, status, after, failed⟩
    · rw [run_bind_ok changed, run_bind_ok (run_update _)]
      refine .inl ⟨⟨exhausted, room, fits⟩, _, inserted_silent (by exact silent) key value, ?_⟩
      refine ⟨silent, configured, List.pairwise_singleton _ _, ?_, .inr ⟨by simp, exhausted, next, rfl, nextRow⟩⟩
      exact size_succ (by rw [size]; exact alone.size) (by decide)
    · refine .inr ⟨fun all => absurd all.2.2 (Nat.not_le.mpr full), ?_⟩
      rw [run_bind_error failed]
      intro same
      cases same
  · refine .inr ⟨fun all => room all.2.1, ?_⟩
    have standing : middle.leaves.lookup tree.space.allocatePage.1 = some leaf := by
      rw [one, ← AList.insert_empty, AList.lookup_insert]
    have failed := onLeaf_run standing fun leaf => leaf.insert key value
    rw [row.insert_full (Nat.not_lt.mp room), if_neg Bool.false_ne_true] at failed
    rw [run_bind_error failed]
    intro same
    cases same

theorem isValid_of_insert (done : (insert key value).run tree = (.ok (), after)) : value.isValid = true := by
  by_contra invalid
  rw [insert, if_pos (by simpa using invalid)] at done
  cases done

/-- A successful insertion that finds room. -/
theorem Alone.insert_done (alone : tree.Alone config entries) (fresh : config.allowDuplicates = true ∨ stack key entries = [])
    (room : entries ≠ [] → entries.length < computeCapacity config .leaf)
    (done : (insert key value).run tree = (.ok (), after)) : after.Alone config (push key value entries) := by
  have valid := isValid_of_insert done
  have success : ((insert key value).run tree).1 = .ok () := by rw [done]
  by_cases first : entries = []
  · subst first
    obtain ⟨-, final, ended, grown⟩ := (alone.insert_first valid).resolve_right fun refused => refused.2 success
    rw [done] at ended
    cases ended
    exact grown
  · obtain ⟨-, final, ended, grown⟩ :=
      (alone.insert_more fresh first valid (room first)).resolve_right fun refused => refused.2 success
    rw [done] at ended
    cases ended
    exact grown

/-- Without duplicates an entry whose key is there is refused. -/
theorem Alone.insert_known (alone : tree.Alone config entries) (unique : config.allowDuplicates = false)
    (known : stack key entries ≠ []) (valid : value.isValid = true) :
    (insert key value).run tree = (.error (.status (Status.invalidArgument "BTree: duplicate key")), tree) := by
  obtain ⟨top, rest, found⟩ := List.exists_cons_of_ne_nil known
  obtain ⟨front, back, rfl, smaller, larger, -⟩ := alone.sorted.exists_first found
  obtain ⟨-, live, leaf, one, row⟩ := alone.standing.resolve_left (by simp)
  have notEmpty : tree.empty = false := by simpa [empty] using live
  have place : leaf.lowerBound key = front.length := by
    rw [LeafNode.lowerBound, row.keys, lowerBound_between smaller (by simpa using fun a b => larger (a, b))]
  have down : tree.descendForInsert key = .error (.status (Status.invalidArgument "BTree: duplicate key")) := by
    simp [BTree.descendForInsert, BTree.descendToLeaf, notEmpty, descend_root one, lookup_root one, alone.configured, unique,
      place, row.keys, row.count]
  rw [insert, if_neg (by simp [valid]), run_bind_ok run_read, if_neg (by simp [notEmpty]), down]
  rfl

theorem afterErase_root {id : PageId} {leaf : LeafNode} (silent : tree.walSink = none)
    (one : tree.leaves = AList.singleton id leaf) :
    (afterErase id []).run tree =
      (.ok (), if leaf.keyCount = 0 then { tree with
        walSink := none, leaves := ∅, space := (tree.space.freePage id).2, rootId := kInvalidPageId, height := 0 } else tree) := by
  have read : (TreeM.leaf id).run tree = (.ok leaf, tree) :=
    leaf_found (by rw [one, ← AList.insert_empty, AList.lookup_insert])
  have live : id ∈ tree.leaves := by rw [one]; exact List.mem_singleton_self _
  have gone : tree.leaves.erase id = ∅ := by
    rw [one]
    exact AList.ext (show List.kerase id ([⟨id, leaf⟩] : List ((_ : PageId) × LeafNode)) = [] by simp)
  rw [afterErase, run_bind_ok read, if_pos List.isEmpty_nil]
  split
  · obtain ⟨sink, quiet, released⟩ := releaseNode_run id tree
    rw [if_pos live, if_pos live, gone, quiet silent] at released
    rw [run_bind_ok released, run_update]
  · rfl

/-- An erasure of a key that is there takes its first entry; the last entry takes the leaf with it. -/
theorem Alone.erase_known (alone : tree.Alone config entries) (known : stack key entries ≠ []) :
    ∃ front back value after, entries = front ++ (key, value) :: back ∧ (erase key).run tree = (.ok (), after) ∧
      after.Alone config (front ++ back) := by
  obtain ⟨front, back, value, rfl, smaller, down⟩ := (alone.descendToLeaf key).resolve_right fun none => known none.1
  obtain ⟨-, live, leaf, one, row⟩ := alone.standing.resolve_left (by simp)
  have inside : (front ++ back).Sublist (front ++ (key, value) :: back) := (List.sublist_cons_self _ _).append_left front
  obtain ⟨-, next, stored, nextRow⟩ := (LeafNode.setEntries_row row.page (inside.length_le.trans row.room)).resolve_right
    fun full => absurd full.1 (Nat.not_lt.mpr ((span_sublist inside).trans row.fits))
  have changed := onLeaf_run (lookup_root one) fun leaf => leaf.eraseAt front.length
  rw [row.eraseAt_eq, stored, one, AList.insert_singleton_eq] at changed
  have start : (erase key).run tree = (afterErase tree.rootId []).run
      { tree with leaves := AList.singleton tree.rootId next, size := tree.size - 1 } := by
    rw [erase, run_bind_ok run_read, if_neg (by simpa [empty] using live), run_bind_ok (ofExcept_run down _),
      run_bind_ok changed, run_bind_ok (run_update _), run_bind_ok (notify_silent (by exact alone.silent) _)]
  have size : (tree.size - 1).toNat = (front ++ back).length := by
    have counted := alone.size
    have small := alone.small
    simp only [List.length_append, List.length_cons] at counted small ⊢
    rw [UInt64.toNat_sub, UInt64.toNat_one]
    omega
  refine ⟨front, back, value, _, rfl, start.trans (afterErase_root (by exact alone.silent) rfl), ?_⟩
  rw [nextRow.count]
  by_cases last : front ++ back = []
  · rw [if_pos (by rw [last]; rfl)]
    exact ⟨rfl, alone.configured, alone.sorted.sublist inside, size, .inl ⟨last, rfl, rfl⟩⟩
  · rw [if_neg (by simpa using last)]
    exact ⟨alone.silent, alone.configured, alone.sorted.sublist inside, size, .inr ⟨last, live, next, rfl, nextRow⟩⟩

theorem Alone.erase_unknown (alone : tree.Alone config entries) (unknown : stack key entries = []) :
    ∃ failure, (erase key).run tree = (.error failure, tree) := by
  rw [erase, run_bind_ok run_read]
  split
  · exact ⟨_, rfl⟩
  · obtain ⟨-, status, down⟩ := (alone.descendToLeaf key).resolve_left fun ⟨_, _, _, parts, _⟩ => by
      simp [parts] at unknown
    rw [down]
    exact ⟨_, rfl⟩

end Changes
end BTree
end Quartz.Btree
