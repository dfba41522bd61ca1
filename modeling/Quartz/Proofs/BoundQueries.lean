import Quartz.Proofs.CursorTraversal

/-! Queries for a bound. The entry looked for is in the leaf where the search ends or in the next
one. A cursor gets to the next leaf only beside the root, and where there is no such entry the call
fails. -/

namespace Quartz.Btree
open Storage Format BTree Fallible

variable {ω : Type}

namespace BTree

/-- The leaf a key belongs to: at each node the child behind all separators below the key. -/
inductive FallsInto (tree : BTree ω) (key : Key) : PageId → PageId → Prop
  | here {id : PageId} : id ∈ tree.leaves → FallsInto tree key id id
  | down {id leafId : PageId} {node : InternalNode} {front back : List Key} {child : PageReference} :
      id ∉ tree.leaves → tree.internals.lookup id = some node → node.keys = front ++ back →
      (∀ item ∈ front, item < key) → (∀ item ∈ back, key ≤ item) → node.children[front.length]? = some child →
      FallsInto tree key child.pageId leafId → FallsInto tree key id leafId

/-- The next leaf as a cursor finds it: behind a child of the root, or below the second child of
the root when no child of the root is a leaf. -/
def Adjoins (tree : BTree ω) (id next : PageId) : Prop :=
  tree.rootId ∉ tree.leaves ∧ ∃ node index child, tree.internals.lookup tree.rootId = some node ∧
    node.children[index + 1]? = some child ∧ tree.leftmost child.pageId = .ok next ∧
    (node.children[index]?.map (·.pageId) = some id ∨ index = 0 ∧ ∀ other ∈ node.children, other.pageId ∉ tree.leaves)

/-- A query for a bound is answered: the cursor is on the least wanted entry, or at the end. -/
def Answers (tree : BTree ω) (wanted : Key → Prop) (outcome : Except Failure Unit × Cursor ω) : Prop :=
  outcome.1 = .ok () ∧
    ((∃ key value, tree.Stores key value ∧ wanted key ∧ (∀ other ref, tree.Stores other ref → wanted other → key ≤ other) ∧
        outcome.2.isEnd = false ∧ tree.Reaches tree.rootId outcome.2.leafId ∧ outcome.2.current = some (key, value)) ∨
      (∀ key value, tree.Stores key value → ¬ wanted key) ∧ outcome.2.isEnd = true)

/-- The leaf of the key has a larger key, or the next leaf starts with one and is found. -/
def Bounded (tree : BTree ω) (key : Key) : Prop :=
  ∃ before id after leaf, tree.leafOrder = before ++ id :: after ∧ tree.FallsInto key tree.rootId id ∧
    tree.leaves.lookup id = some leaf ∧
    ((∃ other ∈ leaf.keys, key < other) ∨
      ∃ next entry, after.head? = some next ∧ (tree.leafEntries next).head? = some entry ∧ key < entry.1 ∧ tree.Adjoins id next)

variable {tree : BTree ω} {key : Key}

theorem lowerBound_parts {keys front back : List Key} (parts : keys = front ++ back) (smaller : ∀ item ∈ front, item < key)
    (larger : ∀ item ∈ back, key ≤ item) : KeyComparator.lowerBound keys key = front.length := by
  subst parts
  exact Search.lowerBound_append (by simpa using smaller) (by simpa using larger)

theorem FallsInto.unique {id first second : PageId} (left : tree.FallsInto key id first) (right : tree.FallsInto key id second) :
    first = second := by
  induction left with
  | here leaf =>
    cases right with
    | here => rfl
    | down noLeaf => exact absurd leaf noLeaf
  | down noLeaf found parts smaller larger taken _ ih =>
    cases right with
    | here leaf => exact absurd leaf noLeaf
    | down _ same parts' smaller' larger' taken' deeper =>
      obtain rfl := Option.some.inj (found.symm.trans same)
      have place := (lowerBound_parts parts smaller larger).symm.trans (lowerBound_parts parts' smaller' larger')
      rw [place] at taken
      obtain rfl := Option.some.inj (taken.symm.trans taken')
      exact ih deeper

theorem mem_leafEntries {id : PageId} {leaf : LeafNode} (found : tree.leaves.lookup id = some leaf)
    {entry : Key × PageReference} : entry ∈ tree.leafEntries id ↔ entry ∈ leaf.keys.zip leaf.refs := by
  rw [leafEntries, found]

end BTree

namespace TreeValidator

variable {tree : BTree ω} {height : Nat} {id : PageId} {low high : Option Key}

theorem Checked.mem_row (checked : Checked tree height id low high) {leafId : PageId} :
    leafId ∈ tree.leafRow height id ↔ tree.Reaches id leafId ∧ leafId ∈ tree.leaves := by
  induction height generalizing id low high with
  | zero =>
    obtain ⟨leaf, found, -⟩ := checked
    constructor
    · intro member
      obtain rfl := List.mem_singleton.mp member
      exact ⟨.here _, mem_leaves found⟩
    · rintro ⟨reached, -⟩
      cases reached with
      | here => exact List.mem_singleton_self _
      | down noLeaf => exact absurd (mem_leaves found) noLeaf
  | succ height ih =>
    obtain ⟨node, noLeaf, found, -, below⟩ := checked.branch
    have each : ∀ child ∈ node.children, (leafId ∈ tree.leafRow height child.pageId ↔
        tree.Reaches child.pageId leafId ∧ leafId ∈ tree.leaves) := fun child member => by
      obtain ⟨index, taken⟩ := List.mem_iff_getElem?.mp member
      exact ih (below index child taken).2.2
    simp only [leafRow, found, List.mem_flatMap]
    constructor
    · rintro ⟨child, member, deeper⟩
      obtain ⟨reached, leaf⟩ := (each child member).mp deeper
      exact ⟨.down noLeaf found member reached, leaf⟩
    · rintro ⟨reached, leaf⟩
      cases reached with
      | here => exact absurd leaf noLeaf
      | down _ same member deeper =>
        obtain rfl := Option.some.inj (found.symm.trans same)
        exact ⟨_, member, (each _ member).mpr ⟨deeper, leaf⟩⟩

theorem Checked.holds_row (checked : Checked tree height id low high) {key : Key} {value : PageReference} :
    tree.Holds id key value ↔ ∃ leafId ∈ tree.leafRow height id, (key, value) ∈ tree.leafEntries leafId := by
  constructor
  · rintro ⟨leafId, leaf, reached, found, inside⟩
    exact ⟨leafId, checked.mem_row.mpr ⟨reached, mem_leaves found⟩, (mem_leafEntries found).mpr inside⟩
  · rintro ⟨leafId, member, inside⟩
    obtain ⟨leaf, -, -, found, -⟩ := checked.row_leaf leafId member
    exact ⟨leafId, leaf, (checked.mem_row.mp member).1, found, (mem_leafEntries found).mp inside⟩

def InFront (tree : BTree ω) (first second : PageId) : Prop :=
  ∀ entry ∈ tree.leafEntries first, ∀ other ∈ tree.leafEntries second, entry.1 < other.1

theorem Checked.row_rises (checked : Checked tree height id low high) : (tree.leafRow height id).Pairwise (InFront tree) := by
  induction height generalizing id low high with
  | zero => exact List.pairwise_singleton _ _
  | succ height ih =>
    obtain ⟨node, noLeaf, found, inner, below⟩ := checked.branch
    simp only [leafRow, found]
    refine List.pairwise_flatMap.mpr ⟨fun child member => ?_, ?_⟩
    · obtain ⟨index, taken⟩ := List.mem_iff_getElem?.mp member
      exact ih (below index child taken).2.2
    · refine List.pairwise_iff_getElem.mpr fun first second inside within before left leftRow right rightRow entry held other kept => ?_
      obtain ⟨-, -, deepLeft⟩ := below first _ (List.getElem?_eq_getElem inside)
      obtain ⟨bounded, -, deepRight⟩ := below second _ (List.getElem?_eq_getElem within)
      obtain ⟨item, place⟩ : ∃ item, node.keys[first]? = some item := ⟨_, List.getElem?_eq_getElem (by omega)⟩
      have under := (deepLeft.holds_range (deepLeft.holds_row.mpr ⟨left, leftRow, held⟩)).2 item (by simp [boundBehind, place])
      have range := (deepRight.holds_range (deepRight.holds_row.mpr ⟨right, rightRow, kept⟩)).1
      have above := (inner.left (fun _ _ less most => less.trans most) bounded range).2 first before item place
      exact under.trans_le above

theorem front_item {keys front back : List Key} (parts : keys = front ++ back) {index : Nat} (short : index < front.length) :
    ∃ item ∈ front, keys[index]? = some item :=
  ⟨front[index], List.getElem_mem short, by rw [parts, List.getElem?_append_left short, List.getElem?_eq_getElem short]⟩

theorem back_item {keys front back : List Key} (parts : keys = front ++ back) {index : Nat} (past : front.length ≤ index)
    (inside : index < keys.length) : ∃ item ∈ back, keys[index]? = some item := by
  have taken := List.getElem?_eq_getElem inside
  refine ⟨keys[index], List.mem_of_getElem? (i := index - front.length) ?_, taken⟩
  rw [← List.getElem?_append_right past, ← parts, taken]

/-- Where the search for a key ends, and how the other leaves lie around it. -/
theorem Checked.falls (checked : Checked tree height id low high) {fuel : Nat} (enough : height < fuel) (key : Key)
    (path : List SearchPathEntry) :
    ∃ before leafId after path', tree.descend key fuel id path = .ok (leafId, path') ∧
      tree.leafRow height id = before ++ leafId :: after ∧ tree.FallsInto key id leafId ∧
      (∀ other ∈ before, ∀ entry ∈ tree.leafEntries other, entry.1 < key) ∧
      ∀ other ∈ after, ∀ entry ∈ tree.leafEntries other, key ≤ entry.1 := by
  induction height generalizing fuel id low high path with
  | zero =>
    obtain ⟨fuel, rfl⟩ := Nat.exists_eq_add_of_lt enough
    obtain ⟨leaf, found, -⟩ := checked
    refine ⟨[], id, [], path, ?_, rfl, .here (mem_leaves found), by simp, by simp⟩
    rw [Nat.zero_add, descend, if_pos (mem_leaves found)]
  | succ height ih =>
    obtain ⟨fuel, rfl⟩ : ∃ rest, fuel = rest + 1 := ⟨fuel - 1, by omega⟩
    obtain ⟨node, noLeaf, found, inner, below⟩ := checked.branch
    obtain ⟨front, back, parts, place, smaller, larger⟩ := KeyComparator.lowerBound_splits inner.range.sorted key
    have room : front.length < node.children.length := by
      rw [inner.children, parts, List.length_append]
      omega
    have taken := List.getElem?_eq_getElem room
    obtain ⟨-, valid, deeper⟩ := below front.length _ taken
    obtain ⟨before, leafId, after, path', walked, row, falls, left, right⟩ :=
      ih deeper (by omega : height < fuel) (⟨id, front.length⟩ :: path)
    have children : node.children =
        node.children.take front.length ++ node.children[front.length] :: node.children.drop (front.length + 1) := by
      rw [← List.drop_eq_getElem_cons room, List.take_append_drop]
    refine ⟨(node.children.take front.length).flatMap (fun child => tree.leafRow height child.pageId) ++ before, leafId,
      after ++ (node.children.drop (front.length + 1)).flatMap (fun child => tree.leafRow height child.pageId), path', ?_, ?_,
      .down noLeaf found parts smaller larger taken falls, ?_, ?_⟩
    · rw [descend, if_neg noLeaf, found]
      simp only [InternalNode.lowerBound, place, taken, valid, if_not_true]
      exact walked
    · have split := congrArg (List.flatMap fun child => tree.leafRow height child.pageId) children
      rw [List.flatMap_append, List.flatMap_cons, row] at split
      simpa only [leafRow, found, List.append_assoc, List.cons_append] using split
    · intro other member entry held
      rcases List.mem_append.mp member with earlier | here
      · obtain ⟨child, listed, deep⟩ := List.mem_flatMap.mp earlier
        obtain ⟨index, short, rfl⟩ := List.mem_take_iff_getElem.mp listed
        obtain ⟨-, -, whole⟩ := below index _ (List.getElem?_eq_getElem (by omega))
        obtain ⟨item, first, place⟩ := front_item parts (show index < front.length by omega)
        have range := whole.holds_range (whole.holds_row.mpr ⟨other, deep, held⟩)
        exact (range.2 item (by simp [boundBehind, place])).trans (smaller item first)
      · exact left other here entry held
    · intro other member entry held
      rcases List.mem_append.mp member with here | later
      · exact right other here entry held
      · obtain ⟨child, listed, deep⟩ := List.mem_flatMap.mp later
        obtain ⟨index, short, rfl⟩ := List.mem_drop_iff_getElem.mp listed
        obtain ⟨inside, -, whole⟩ := below (front.length + 1 + index) _ (List.getElem?_eq_getElem (by omega))
        obtain ⟨item, last, place⟩ := back_item parts (show front.length ≤ front.length + index by omega) (by omega)
        have before : boundBefore low node.keys (front.length + 1 + index) = some item := by
          rw [boundBefore, if_neg (by omega), show front.length + 1 + index - 1 = front.length + index by omega, place]
        have range := whole.holds_range (whole.holds_row.mpr ⟨other, deep, held⟩)
        exact (larger item last).trans (range.1 item before)

end TreeValidator

namespace BTree
open Cursor

variable {tree : BTree ω}

/-- The leaf of a key among the others, as the search finds it. -/
structure Located (tree : BTree ω) (key : Key) (before : List PageId) (id : PageId) (after : List PageId) (leaf : LeafNode) : Prop where
  live : tree.empty = false
  order : tree.leafOrder = before ++ id :: after
  falls : tree.FallsInto key tree.rootId id
  found : tree.leaves.lookup id = some leaf
  count : leaf.keyCount = leaf.keys.length
  refs : leaf.refs.length = leaf.keys.length
  sorted : leaf.keys.Pairwise (· < ·)
  left : ∀ other ∈ before, ∀ entry ∈ tree.leafEntries other, entry.1 < key
  right : ∀ other ∈ after, ∀ entry ∈ tree.leafEntries other, key ≤ entry.1
  walked : ∃ path, tree.descendToLeaf key false = .ok (id, leaf.lowerBound key, path)

/-- An accepted tree without duplicates whose leaves all have entries. -/
structure Searchable (tree : BTree ω) : Prop where
  accepted : TreeValidator.validate tree = .ok ()
  distinct : tree.Distinct
  filled : ∀ id ∈ tree.leafOrder, ∀ leaf, tree.leaves.lookup id = some leaf → leaf.keys ≠ []

namespace Searchable

variable (full : tree.Searchable) (live : tree.empty = false)
include full live

theorem locates (key : Key) : ∃ before id after leaf, tree.Located key before id after leaf := by
  obtain ⟨height, checked, enough, row⟩ := checked_row live full.accepted
  obtain ⟨before, id, after, path, walked, parts, falls, left, right⟩ := checked.falls enough key []
  have member : id ∈ tree.leafRow height tree.rootId := by simp [parts]
  obtain ⟨leaf, low, high, found, whole⟩ := checked.row_leaf id member
  have sorted : leaf.keys.Pairwise (· < ·) := whole.range.sorted.imp₂
    (fun first second less apart => lt_of_le_of_ne less apart) (full.distinct id leaf (checked.mem_row.mp member).1 found)
  have down : tree.descendToLeaf key false = .ok (id, leaf.lowerBound key, path) := by
    simp [descendToLeaf, live, walked, found]
  exact ⟨before, id, after, leaf, live, row.trans parts, falls, found, whole.count, whole.refs, sorted, left, right, path, down⟩

theorem rises : tree.leafOrder.Pairwise (TreeValidator.InFront tree) := by
  obtain ⟨height, checked, -, row⟩ := checked_row live full.accepted
  exact row ▸ checked.row_rises

theorem stores_iff {key : Key} {value : PageReference} :
    tree.Stores key value ↔ ∃ id ∈ tree.leafOrder, (key, value) ∈ tree.leafEntries id := by
  obtain ⟨height, checked, -, row⟩ := checked_row live full.accepted
  rw [Stores, row, ← checked.holds_row]
  exact and_iff_right live

/-- A leaf starts with an entry, and a cursor put there stands on it. -/
theorem starts {id : PageId} (member : id ∈ tree.leafOrder) : ∃ entry rest, tree.leafEntries id = entry :: rest ∧
    (Cursor.standing tree id 0).current = some entry ∧ tree.Reaches tree.rootId id := by
  obtain ⟨height, checked, -, row⟩ := checked_row live full.accepted
  obtain ⟨leaf, low, high, found, whole⟩ := checked.row_leaf id (row ▸ member)
  have first : 0 < leaf.keys.length := List.length_pos_iff.mpr (full.filled id member leaf found)
  have inside : 0 < (leaf.keys.zip leaf.refs).length := by simpa [whole.refs] using first
  obtain ⟨entry, rest, parts⟩ := List.exists_cons_of_length_pos inside
  refine ⟨entry, rest, by rw [leafEntries, found]; exact parts, ?_, (checked.mem_row.mp (row ▸ member)).1⟩
  rw [Cursor.current_standing found whole.count whole.refs first, parts]
  rfl

/-- No leaf occurs twice, because its first key cannot be below itself. -/
theorem once : tree.leafOrder.Nodup := by
  refine (full.rises live).imp_of_mem fun {first second} member _ front same => ?_
  obtain ⟨entry, rest, parts, -⟩ := full.starts live member
  have listed : entry ∈ tree.leafEntries first := by simp [parts]
  exact lt_irrefl _ (front entry listed entry (same ▸ listed))

/-- The path from the root to a leaf: the root is searched for it, and that place or the first
one is taken. -/
theorem path {id : PageId} (member : id ∈ tree.leafOrder) :
    (tree.rootId ∈ tree.leaves ∧ tree.pathToLeaf id = .ok []) ∨
      tree.rootId ∉ tree.leaves ∧ ∃ node index, tree.internals.lookup tree.rootId = some node ∧
        node.children.length = node.keyCount + 1 ∧ tree.pathToLeaf id = .ok [⟨tree.rootId, index⟩] ∧
        ∀ other, (node.children[other]?.map (·.pageId) = some id ∨
          other = 0 ∧ ∀ child ∈ node.children, child.pageId ∉ tree.leaves) ↔ other = index := by
  have once := full.once live
  obtain ⟨height, checked, enough, row⟩ := checked_row live full.accepted
  have leaf : id ∈ tree.leaves := (checked.mem_row.mp (row ▸ member)).2
  rcases height with _ | height
  · obtain ⟨root, found, -⟩ := checked
    have same : id = tree.rootId := by simpa [row, leafRow] using member
    exact .inl ⟨mem_leaves found, by rw [pathToLeaf, if_pos same.symm]⟩
  obtain ⟨node, noLeaf, found, inner, below⟩ := checked.branch
  have count : node.children.length = node.keyCount + 1 := by rw [inner.children, inner.count]
  rcases height with _ | height
  · have children : tree.leafOrder = node.children.map (·.pageId) := by
      rw [row, leafRow, found, ← List.flatMap_pure_eq_map]
      rfl
    rw [children] at once member
    obtain ⟨child, inside, rfl⟩ := List.mem_map.mp member
    obtain ⟨first, rest, parts⟩ := List.append_of_mem inside
    have short : first.length < node.children.length := by simp [parts]
    have index := childIndex_found parts once (Nat.zero_le _) (show first.length < 0 + (node.keyCount + 1) by omega)
    have here : node.children[first.length]?.map (·.pageId) = some child.pageId := by simp [parts]
    have root : tree.rootId ≠ child.pageId := fun same => noLeaf (same ▸ leaf)
    refine .inr ⟨noLeaf, node, first.length, found, count, by simp [pathToLeaf, root, found, index], fun other => ?_⟩
    constructor
    · rintro (place | ⟨-, none⟩)
      · rw [← List.getElem?_map] at place here
        exact (List.getElem?_inj (List.getElem?_eq_some_iff.mp place).1 once).mp (place.trans here.symm)
      · exact absurd leaf (none child inside)
    · rintro rfl
      exact .inl here
  · have internal : ∀ child ∈ node.children, child.pageId ∉ tree.leaves := fun child inside => by
      obtain ⟨index, taken⟩ := List.mem_iff_getElem?.mp inside
      exact (below index child taken).2.2.1
    refine .inr ⟨noLeaf, node, 0, found, count, pathToLeaf_deep noLeaf found internal count leaf, fun other => ?_⟩
    constructor
    · rintro (place | ⟨first, -⟩)
      · obtain ⟨child, taken, rfl⟩ := Option.map_eq_some_iff.mp place
        exact absurd leaf (internal child (List.mem_of_getElem? taken))
      · exact first
    · exact fun first => .inr ⟨first, internal⟩

theorem adjoins_iff {id next : PageId} (member : id ∈ tree.leafOrder) :
    tree.Adjoins id next ↔ ∃ path, tree.pathToLeaf id = .ok path ∧ tree.leafAfter path = .ok (some next) := by
  rcases full.path live member with ⟨root, placed⟩ | ⟨noLeaf, node, index, found, count, placed, only⟩
  · simp [Adjoins, root, placed, leafAfter]
  have after : tree.leafAfter [⟨tree.rootId, index⟩] = .ok (some next) ↔
      ∃ child, node.children[index + 1]? = some child ∧ tree.leftmost child.pageId = .ok next := by
    rw [leafAfter, found]
    by_cases inside : index + 1 ≤ node.keyCount
    · have taken := List.getElem?_eq_getElem (show index + 1 < node.children.length by omega)
      simp only [inside, if_true, taken, Option.some.injEq, exists_eq_left']
      cases tree.leftmost (node.children[index + 1]).pageId <;> simp [Except.map]
    · have absent : node.children[index + 1]? = none := List.getElem?_eq_none (by omega)
      simp [inside, absent, leafAfter]
  rw [placed]
  constructor
  · rintro ⟨-, other, place, child, same, taken, first, beside⟩
    obtain rfl := Option.some.inj (found.symm.trans same)
    obtain rfl := (only place).mp beside
    exact ⟨_, rfl, after.mpr ⟨child, taken, first⟩⟩
  · rintro ⟨_, ⟨⟩, following⟩
    obtain ⟨child, taken, first⟩ := after.mp following
    exact ⟨noLeaf, node, index, child, found, taken, first, (only index).mpr rfl⟩

theorem advance_ok {id : PageId} {index : Nat} (member : id ∈ tree.leafOrder)
    (done : (advanceToNextLeaf.run (standing tree id index)).1 = .ok ()) :
    ∃ next, tree.Adjoins id next ∧ advanceToNextLeaf.run (standing tree id index) = (.ok (), standing tree next 0) := by
  obtain ⟨path, placed⟩ : ∃ path, tree.pathToLeaf id = .ok path := by
    rcases full.path live member with ⟨-, placed⟩ | ⟨-, _, _, -, -, placed, -⟩ <;> exact ⟨_, placed⟩
  rcases following : tree.leafAfter path with failure | _ | next
  · simp [advanceToNextLeaf, run_bind, standing, live, placed, following, Cursor.ofExcept] at done
  · simp [advanceToNextLeaf, run_bind, standing, live, placed, following, Cursor.ofExcept, stop, refuse] at done
  · refine ⟨next, (full.adjoins_iff live member).mpr ⟨path, placed, following⟩, ?_⟩
    simp [advanceToNextLeaf, run_bind, standing, live, placed, following, Cursor.ofExcept]

theorem advance_adjoins {id next : PageId} {index : Nat} (member : id ∈ tree.leafOrder) (adjoins : tree.Adjoins id next) :
    advanceToNextLeaf.run (standing tree id index) = (.ok (), standing tree next 0) := by
  obtain ⟨path, placed, following⟩ := (full.adjoins_iff live member).mp adjoins
  simp [advanceToNextLeaf, run_bind, standing, live, placed, following, Cursor.ofExcept]

theorem sorted : tree.entries.Pairwise fun first second => first.1 < second.1 := by
  refine List.pairwise_flatMap.mpr ⟨fun id member => ?_, full.rises live⟩
  obtain ⟨height, checked, -, row⟩ := checked_row live full.accepted
  rw [row] at member
  obtain ⟨leaf, low, high, found, whole⟩ := checked.row_leaf id member
  have keys : leaf.keys.Pairwise (· < ·) := whole.range.sorted.imp₂
    (fun first second less apart => lt_of_le_of_ne less apart) (full.distinct id leaf (checked.mem_row.mp member).1 found)
  rw [leafEntries, found, ← List.pairwise_map (f := Prod.fst) (R := fun first second : Key => first < second),
    List.map_fst_zip whole.refs.ge]
  exact keys

/-- The first wanted entry is the least one. -/
theorem answers {wanted : Key → Prop} {unfit rest : List (Key × PageReference)} {entry : Key × PageReference}
    (parts : tree.entries = unfit ++ entry :: rest) (unwanted : ∀ item ∈ unfit, ¬ wanted item.1) (fits : wanted entry.1)
    {cursor : Cursor ω} (stands : cursor.isEnd = false) (reached : tree.Reaches tree.rootId cursor.leafId)
    (current : cursor.current = some entry) : tree.Answers wanted (.ok (), cursor) := by
  have stored : ∀ {key value}, tree.Stores key value ↔ (key, value) ∈ tree.entries := by
    intro key value
    rw [full.stores_iff live, entries, List.mem_flatMap]
  have sorted := full.sorted live
  refine ⟨rfl, .inl ⟨entry.1, entry.2, stored.mpr (by simp [parts]), fits, fun other ref held wants => ?_, stands, reached, current⟩⟩
  rw [stored, parts] at held
  rw [parts] at sorted
  rcases List.mem_append.mp held with early | behind
  · exact absurd wants (unwanted _ early)
  · rcases List.mem_cons.mp behind with rfl | late
    · exact le_refl _
    · exact (List.rel_of_pairwise_cons (List.pairwise_append.mp sorted).2.1 late).le

end Searchable

/-- The keys of a leaf fall apart where the wanted ones start. -/
structure Cut (leaf : LeafNode) (wanted : Key → Prop) (index : Nat) : Prop where
  inside : index ≤ leaf.keys.length
  front : ∀ item ∈ leaf.keys.take index, ¬ wanted item
  back : ∀ item ∈ leaf.keys.drop index, wanted item

theorem cut_of_parts {leaf : LeafNode} {wanted : Key → Prop} {front back : List Key} (parts : leaf.keys = front ++ back)
    (unwanted : ∀ item ∈ front, ¬ wanted item) (fits : ∀ item ∈ back, wanted item) : Cut leaf wanted front.length :=
  ⟨by simp [parts], by simpa [parts] using unwanted, by simpa [parts] using fits⟩

namespace Cut

variable {leaf : LeafNode} {wanted : Key → Prop} {index : Nat} (cut : Cut leaf wanted index)
include cut

theorem past (none : ∀ other ∈ leaf.keys, ¬ wanted other) : index ≥ leaf.keys.length := by
  by_contra short
  have inside : index < leaf.keys.length := by omega
  refine none _ (List.getElem_mem inside) (cut.back _ ?_)
  rw [List.drop_eq_getElem_cons inside]
  exact List.mem_cons_self

theorem not_past {other : Key} (member : other ∈ leaf.keys) (wants : wanted other) : ¬ index ≥ leaf.keys.length := by
  intro past
  refine cut.front other ?_ wants
  rwa [List.take_of_length_le past]

end Cut

namespace Located

variable {key : Key} {before after : List PageId} {id : PageId} {leaf : LeafNode} (located : tree.Located key before id after leaf)
include located

theorem entry {other : Key} (member : other ∈ leaf.keys) : ∃ value, (other, value) ∈ tree.leafEntries id := by
  obtain ⟨index, inside, rfl⟩ := List.getElem_of_mem member
  have same := located.refs
  refine ⟨leaf.refs[index], (mem_leafEntries located.found).mpr (List.mem_of_getElem? (i := index) ?_)⟩
  rw [List.getElem?_zip_eq_some]
  exact ⟨List.getElem?_eq_getElem inside, List.getElem?_eq_getElem (by omega)⟩

theorem cut_lower : Cut leaf (key ≤ ·) (leaf.lowerBound key) := by
  obtain ⟨front, back, parts, place, smaller, larger⟩ :=
    KeyComparator.lowerBound_splits (located.sorted.imp fun less => le_of_lt less) key
  rw [LeafNode.lowerBound, place]
  exact cut_of_parts parts (fun item member => not_le.mpr (smaller item member)) larger

theorem cut_upper : Cut leaf (key < ·) (leaf.upperBound key) := by
  obtain ⟨front, back, parts, place, smaller, larger⟩ :=
    KeyComparator.upperBound_splits (located.sorted.imp fun less => le_of_lt less) key
  rw [LeafNode.upperBound, place]
  exact cut_of_parts parts (fun item member => not_lt.mpr (smaller item member)) larger

theorem bound_run (place : LeafNode → Nat → Nat) (cursor : Cursor ω) :
    (tree.bound key place).run cursor =
      if place leaf (leaf.lowerBound key) ≥ leaf.keys.length then
        advanceToNextLeaf.run (standing tree id (place leaf (leaf.lowerBound key)))
      else (.ok (), standing tree id (place leaf (leaf.lowerBound key))) := by
  obtain ⟨path, walked⟩ := located.walked
  by_cases past : place leaf (leaf.lowerBound key) ≥ leaf.keys.length
  · simp [bound, standAt, run_bind, located.live, walked, located.found, Cursor.ofExcept, bindTree, standing, located.count, past]
  · simp [bound, standAt, run_bind, located.live, walked, located.found, Cursor.ofExcept, bindTree, standing, located.count, past]

section Answered

variable (full : tree.Searchable) {wanted : Key → Prop} {index : Nat} (cut : Cut leaf wanted index)
  (above : ∀ item, wanted item → key ≤ item)
include full cut above

theorem answers_inside (inside : index < leaf.keys.length) : tree.Answers wanted (.ok (), standing tree id index) := by
  have member : id ∈ tree.leafOrder := by simp [located.order]
  obtain ⟨-, -, -, -, reached⟩ := full.starts located.live member
  have here : index < (leaf.keys.zip leaf.refs).length := by simpa [located.refs] using inside
  have current := current_standing located.found located.count located.refs inside
  rw [List.getElem?_eq_getElem here] at current
  have parts : tree.entries = (before.flatMap tree.leafEntries ++ (leaf.keys.zip leaf.refs).take index) ++
      (leaf.keys.zip leaf.refs)[index] :: ((leaf.keys.zip leaf.refs).drop (index + 1) ++ after.flatMap tree.leafEntries) := by
    rw [entries, located.order, List.flatMap_append, List.flatMap_cons, leafEntries, located.found, List.append_assoc,
      ← List.cons_append, ← List.drop_eq_getElem_cons here, ← List.append_assoc (List.take _ _), List.take_append_drop]
  refine full.answers located.live parts (fun item listed => ?_) ?_ rfl reached current
  · rcases List.mem_append.mp listed with early | leading
    · obtain ⟨other, earlier, held⟩ := List.mem_flatMap.mp early
      exact fun wants => absurd (located.left other earlier item held) (not_lt.mpr (above _ wants))
    · rw [List.zip, List.take_zipWith] at leading
      exact cut.front _ (List.of_mem_zip leading).1
  · refine cut.back _ ?_
    rw [List.getElem_zip, List.drop_eq_getElem_cons inside]
    exact List.mem_cons_self

theorem answers_across (past : leaf.keys.length ≤ index) {next : PageId} (following : after.head? = some next)
    {entry : Key × PageReference} (first : (tree.leafEntries next).head? = some entry) (fits : wanted entry.1) :
    tree.Answers wanted (.ok (), standing tree next 0) := by
  obtain ⟨rest, rfl⟩ := List.head?_eq_some_iff.mp following
  have member : next ∈ tree.leafOrder := by simp [located.order]
  obtain ⟨other, others, starts, current, reached⟩ := full.starts located.live member
  obtain rfl : other = entry := by simpa [starts] using first
  have parts : tree.entries = (before.flatMap tree.leafEntries ++ tree.leafEntries id) ++
      other :: (others ++ rest.flatMap tree.leafEntries) := by
    simp [entries, located.order, starts]
  refine full.answers located.live parts (fun item listed => ?_) fits rfl reached current
  rcases List.mem_append.mp listed with early | held
  · obtain ⟨leafId, earlier, held⟩ := List.mem_flatMap.mp early
    exact fun wants => absurd (located.left leafId earlier item held) (not_lt.mpr (above _ wants))
  · refine cut.front _ ?_
    rw [List.take_of_length_le past]
    exact (List.of_mem_zip ((mem_leafEntries located.found).mp held)).1

/-- A larger key in the leaf, or at the start of a next leaf that is found, is enough. -/
theorem answers_bound {place : LeafNode → Nat → Nat} (here : place leaf (leaf.lowerBound key) = index)
    (strict : ∀ item, key < item → wanted item) (cursor : Cursor ω)
    (bounded : (∃ other ∈ leaf.keys, key < other) ∨ ∃ next entry, after.head? = some next ∧
      (tree.leafEntries next).head? = some entry ∧ key < entry.1 ∧ tree.Adjoins id next) :
    tree.Answers wanted ((tree.bound key place).run cursor) := by
  rw [located.bound_run, here]
  split
  next past =>
    rcases bounded with ⟨other, member, larger⟩ | ⟨next, entry, following, first, larger, adjoins⟩
    · exact absurd past (cut.not_past member (strict other larger))
    · rw [full.advance_adjoins located.live (by simp [located.order]) adjoins]
      exact located.answers_across full cut above past following first (strict entry.1 larger)
  next short => exact located.answers_inside full cut above (by omega)

end Answered

/-- A cursor that has gone on to another leaf and stands on the least wanted entry stands on the
first entry of that leaf. -/
theorem answers_advanced (full : tree.Searchable) {wanted : Key → Prop} {index : Nat}
    (answered : tree.Answers wanted (advanceToNextLeaf.run (standing tree id index))) :
    ∃ next entry, tree.Adjoins id next ∧ next ∈ tree.leafOrder ∧ entry ∈ tree.leafEntries next ∧ wanted entry.1 ∧
      advanceToNextLeaf.run (standing tree id index) = (.ok (), standing tree next 0) ∧
      (standing tree next 0).current = some entry ∧ ∀ other ref, tree.Stores other ref → wanted other → entry.1 ≤ other := by
  have member : id ∈ tree.leafOrder := by simp [located.order]
  obtain ⟨next, adjoins, ran⟩ := full.advance_ok located.live member answered.1
  rw [ran] at answered
  rcases answered.2 with ⟨first, value, -, fits, least, -, reached, current⟩ | ⟨-, ended⟩
  case inr => cases ended
  have leaf : next ∈ tree.leaves := by
    by_contra absent
    simp [Cursor.current, valid, standing, AList.lookup_eq_none.mpr absent] at current
  obtain ⟨height, checked, -, row⟩ := checked_row located.live full.accepted
  have listed : next ∈ tree.leafOrder := row ▸ checked.mem_row.mpr ⟨reached, leaf⟩
  obtain ⟨entry, rest, starts, same, -⟩ := full.starts located.live listed
  obtain rfl : (first, value) = entry := Option.some.inj (current.symm.trans same)
  exact ⟨next, (first, value), adjoins, listed, by simp [starts], fits, ran, current, least⟩

theorem next_answers (full : tree.Searchable) {cursor : Cursor ω} (smaller : ∀ other ∈ leaf.keys, other ≤ key)
    (lower : tree.Answers (key ≤ ·) ((tree.lowerBound key).run cursor))
    (upper : tree.Answers (key < ·) ((tree.upperBound key).run cursor)) :
    ∃ next entry, after.head? = some next ∧ (tree.leafEntries next).head? = some entry ∧ key < entry.1 ∧ tree.Adjoins id next := by
  have past := located.cut_upper.past fun other member => not_lt.mpr (smaller other member)
  rw [upperBound, located.bound_run, if_pos past] at upper
  obtain ⟨next, entry, adjoins, listed, held, larger, -, current, least⟩ := located.answers_advanced full upper
  obtain ⟨start, rest, starts, same, -⟩ := full.starts located.live listed
  obtain rfl : start = entry := Option.some.inj (same.symm.trans current)
  have rises := full.rises located.live
  have behind : next ∈ after := by
    rw [located.order, List.mem_append, List.mem_cons] at listed
    rcases listed with early | rfl | late
    · exact absurd (located.left next early start held) (not_lt.mpr larger.le)
    · have inside := (List.of_mem_zip ((mem_leafEntries located.found).mp held)).1
      exact absurd larger (not_lt.mpr (smaller _ inside))
    · exact late
  obtain ⟨head, tail, rfl⟩ := List.exists_cons_of_ne_nil (List.ne_nil_of_mem behind)
  rw [located.order] at rises
  obtain ⟨-, ⟨rightOf, deeper, -⟩, -⟩ := by simpa only [List.pairwise_append, List.pairwise_cons] using rises
  rcases List.mem_cons.mp behind with rfl | late
  · exact ⟨next, start, rfl, by rw [starts]; rfl, larger, adjoins⟩
  have headListed : head ∈ tree.leafOrder := by simp [located.order]
  obtain ⟨first, others, opens, -⟩ := full.starts located.live headListed
  have firstHeld : first ∈ tree.leafEntries head := by simp [opens]
  have stored : tree.Stores first.1 first.2 := (full.stores_iff located.live).mpr ⟨head, headListed, firstHeld⟩
  have earlier : first.1 < start.1 := deeper next late first firstHeld start held
  have equal : first.1 = key := by
    refine le_antisymm (not_lt.mp fun wants => ?_) (located.right head List.mem_cons_self first firstHeld)
    exact absurd (least first.1 first.2 stored wants) (not_le.mpr earlier)
  -- so all keys of the leaf are smaller, and the lower bound went on to the same leaf
  have below : ∀ other ∈ leaf.keys, ¬ key ≤ other := fun other member => by
    obtain ⟨value, entry⟩ := located.entry member
    exact not_le.mpr (equal ▸ rightOf head List.mem_cons_self _ entry first firstHeld)
  rw [lowerBound, located.bound_run, if_pos (located.cut_lower.past below),
    full.advance_adjoins located.live (by simp [located.order]) adjoins] at lower
  rcases lower.2 with ⟨other, value, -, -, minimal, -, -, here⟩ | ⟨-, ended⟩
  · obtain rfl : (other, value) = start := Option.some.inj (here.symm.trans current)
    exact absurd (minimal first.1 first.2 stored equal.ge) (not_le.mpr earlier)
  · cases ended

end Located

/-- Both queries are answered exactly in an empty tree and where the next larger key is in the leaf
of the key, or is the first of the next leaf and that is found. -/
theorem bound_queries_iff (tree : BTree ω) (accepted : TreeValidator.validate tree = .ok ()) (distinct : tree.Distinct)
    (filled : ∀ id ∈ tree.leafOrder, ∀ leaf, tree.leaves.lookup id = some leaf → leaf.keys ≠ []) (key : Key) (cursor : Cursor ω) :
    tree.Answers (key ≤ ·) ((tree.lowerBound key).run cursor) ∧ tree.Answers (key < ·) ((tree.upperBound key).run cursor) ↔
      tree.empty = true ∨ tree.Bounded key := by
  have full : tree.Searchable := ⟨accepted, distinct, filled⟩
  cases live : tree.empty with
  | true =>
    have none : ∀ key value, ¬ tree.Stores key value := fun _ _ stored => by simp [stored.1] at live
    have answered : ∀ wanted place, tree.Answers wanted ((tree.bound key place).run cursor) := fun wanted place => by
      refine ⟨by simp [bound, live], .inr ⟨fun key value stored => absurd stored (none key value), ?_⟩⟩
      simp [bound, live, Cursor.bindTree, Cursor.isEnd]
    exact ⟨fun _ => .inl rfl, fun _ => ⟨answered _ _, answered _ _⟩⟩
  | false =>
    simp only [Bool.false_eq_true, false_or]
    obtain ⟨before, id, after, leaf, located⟩ := full.locates live key
    constructor
    · rintro ⟨lower, upper⟩
      refine ⟨before, id, after, leaf, located.order, located.falls, located.found, ?_⟩
      by_cases larger : ∃ other ∈ leaf.keys, key < other
      · exact .inl larger
      · push Not at larger
        exact .inr (located.next_answers full larger lower upper)
    · rintro ⟨before', id', after', leaf', order, falls, found, bounded⟩
      obtain rfl := falls.unique located.falls
      obtain rfl := Option.some.inj (found.symm.trans located.found)
      obtain ⟨rfl, rfl⟩ : before' = before ∧ after' = after := by
        have once := order ▸ full.once live
        have left : id' ∉ before' := fun member => (List.nodup_append.mp once).2.2 id' member id' List.mem_cons_self rfl
        have right : id' ∉ after' := (List.nodup_cons.mp (List.nodup_append.mp once).2.1).1
        obtain ⟨same, -, rest⟩ := (List.append_cons_inj_of_notMem left right).mp (order.symm.trans located.order)
        exact ⟨same, rest⟩
      exact ⟨located.answers_bound full located.cut_lower (fun _ wants => wants) rfl (fun _ larger => larger.le) cursor bounded,
        located.answers_bound full located.cut_upper (fun _ wants => wants.le) rfl (fun _ larger => larger) cursor bounded⟩

theorem filled_of_entries {tree : BTree ω} (each : ∀ entry ∈ tree.leaves.entries, entry.2.keys ≠ []) :
    ∀ id ∈ tree.leafOrder, ∀ leaf, tree.leaves.lookup id = some leaf → leaf.keys ≠ [] :=
  fun _ _ _ standing => each _ (AList.mem_lookup_iff.mp standing)

theorem bound_queries_pair :
    (pair (.uint32 4) [.uint32 1] [.uint32 5]).Answers (.uint32 0 ≤ ·)
        (((pair (.uint32 4) [.uint32 1] [.uint32 5]).lowerBound (.uint32 0)).run {}) ∧
      (pair (.uint32 4) [.uint32 1] [.uint32 5]).Answers (.uint32 0 < ·)
        (((pair (.uint32 4) [.uint32 1] [.uint32 5]).upperBound (.uint32 0)).run {}) := by
  refine (bound_queries_iff (pair (.uint32 4) [.uint32 1] [.uint32 5]) (by decide +kernel)
    (distinct_of_entries (by decide +kernel)) (filled_of_entries (by decide +kernel)) (.uint32 0) {}).mpr (.inr ?_)
  have falls : (pair (.uint32 4) [.uint32 1] [.uint32 5]).FallsInto (.uint32 0) 10 8 :=
    .down (by decide +kernel) rfl (show _ = [] ++ [Key.uint32 4] by decide +kernel) (by simp) (by decide +kernel) rfl
      (.here (by decide +kernel))
  exact ⟨[], 8, [9], _, by decide +kernel, falls, rfl, .inl ⟨.uint32 1, by decide +kernel⟩⟩

/-- Behind the last key the query fails, and the upper bound of a separator is the separator. -/
theorem bound_query_fails_at_end :
    TreeValidator.validate (pair (.uint32 5) [.uint32 1] [.uint32 5]) = .ok () ∧
      (pair (.uint32 5) [.uint32 1] [.uint32 5]).Distinct ∧
      (∀ id ∈ (pair (.uint32 5) [.uint32 1] [.uint32 5]).leafOrder, ∀ leaf,
        (pair (.uint32 5) [.uint32 1] [.uint32 5]).leaves.lookup id = some leaf → leaf.keys ≠ []) ∧
      (((pair (.uint32 5) [.uint32 1] [.uint32 5]).lowerBound (.uint32 9)).run {}).1 =
        .error (.status (Status.invalidArgument "Cursor: end of tree")) ∧
      (((pair (.uint32 5) [.uint32 1] [.uint32 5]).upperBound (.uint32 5)).run {}).1 = .ok () ∧
      (((pair (.uint32 5) [.uint32 1] [.uint32 5]).upperBound (.uint32 5)).run {}).2.current =
        some (.uint32 5, PageReference.make 77 1 4) ∧
      ¬ (pair (.uint32 5) [.uint32 1] [.uint32 5]).Answers (.uint32 9 ≤ ·)
        (((pair (.uint32 5) [.uint32 1] [.uint32 5]).lowerBound (.uint32 9)).run {}) := by
  refine ⟨by decide +kernel, distinct_of_entries (by decide +kernel), filled_of_entries (by decide +kernel), by decide +kernel,
    by decide +kernel, by decide +kernel, fun answered => ?_⟩
  exact absurd answered.1 (by decide +kernel)

end BTree
end Quartz.Btree
