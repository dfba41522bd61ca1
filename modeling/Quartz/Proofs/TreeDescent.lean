import Quartz.Proofs.TreeState

/-! The way down. In a tree whose keys are sorted from left to right, the descent for a key
ends at a leaf with everything before the leaf below the key and nothing after it below. -/

namespace Quartz.Btree
open Storage Format HeapTree

variable {ω : Type}

/-- The frames of a search path as places in a heap. -/
def places (path : List SearchPathEntry) : List (PageId × Nat) := path.map fun frame => (frame.pageId, frame.childIndex)

namespace BTree

/-- One tree at the root that holds these keys from left to right. -/
structure Shape (tree : BTree ω) (top : Nat) (order : List Key) : Prop where
  grown : Tree tree.view top tree.rootId
  distinct : (ids tree.view top tree.rootId).Nodup
  order : inorder tree.view top tree.rootId = order

/-- A sound tree with sorted keys: no tree at all, or one tree at the root. -/
structure Ordered (tree : BTree ω) (order : List Key) : Prop where
  sound : tree.Sound
  sorted : order.Pairwise (· < ·)
  standing : tree.rootId = kInvalidPageId ∧ order = [] ∨ ∃ top, tree.Shape top order

/-- A leaf on the way to a key. -/
structure Reached (tree : BTree ω) (top : Nat) (key : Key) (leafId : PageId) (path : List SearchPathEntry)
    (before after : List Key) (outside : List PageId) : Prop where
  within : Within tree.view top tree.rootId (places path) 0 leafId before after outside
  leaf : leafId ∈ tree.leaves
  below : ∀ item ∈ before, item < key
  above : ∀ item ∈ after, key ≤ item

variable {tree : BTree ω} {top : Nat} {key : Key}

theorem descend_reaches (sound : tree.Sound) {height fuel : Nat} {id : PageId} {path : List SearchPathEntry}
    {before after : List Key} {outside : List PageId}
    (within : Within tree.view top tree.rootId (places path) height id before after outside)
    (subtree : Tree tree.view height id)
    (sorted : (before ++ inorder tree.view height id ++ after).Pairwise (· < ·))
    (below : ∀ item ∈ before, item < key) (above : ∀ item ∈ after, key ≤ item) (enough : height < fuel) :
    ∃ leafId path' before' after' outside', tree.descend key fuel id path = .ok (leafId, path') ∧
      Reached tree top key leafId path' before' after' outside' := by
  induction height generalizing fuel id path before after outside with
  | zero =>
    obtain ⟨fuel, rfl⟩ := Nat.exists_eq_add_of_lt enough
    obtain ⟨keys, found⟩ := subtree
    obtain ⟨leaf, standing, -⟩ := view_leaf.mp found
    have live : id ∈ tree.leaves := AList.lookup_isSome.mp (by simp [standing])
    refine ⟨id, path, before, after, outside, ?_, within, live, below, above⟩
    rw [Nat.zero_add, descend, if_pos live]
  | succ height ih =>
    obtain ⟨fuel, rfl⟩ : ∃ rest, fuel = rest + 1 := ⟨fuel - 1, by omega⟩
    obtain ⟨keys, children, found, count, subtrees⟩ := subtree
    obtain ⟨noLeaf, node, standing, rfl, names⟩ := view_branch.mp found
    rw [inorder_branch found] at sorted
    have keysSorted : node.keys.Pairwise (· < ·) :=
      (sorted.sublist (List.sublist_append_of_sublist_left (List.sublist_append_right _ _))).sublist
        (keys_sublist (by simpa using count))
    obtain ⟨front, back, parts, place, smaller, larger⟩ := KeyComparator.lowerBound_splits (keysSorted.imp le_of_lt) key
    have room : children.length = front.length + back.length + 1 := by rw [count, parts, List.length_append]
    obtain ⟨left, right, parted, leftLength⟩ := split_at (List.getElem?_eq_getElem (show front.length < children.length by omega))
    generalize children[front.length] = child at parted
    subst parted
    have rightLength : right.length = back.length := by
      simp only [List.length_append, List.length_cons] at room
      omega
    obtain ⟨ref, taken, named⟩ : ∃ ref, node.children[front.length]? = some ref ∧ ref.pageId = child := by
      have entry : (node.children.map (·.pageId))[front.length]? = some child := by
        rw [names, ← leftLength]
        simp
      rw [List.getElem?_map, Option.map_eq_some_iff] at entry
      exact entry
    have childTree : Tree tree.view height child := subtrees child (by simp)
    have valid : ref.isValid = true := by
      have stands := childTree.stands child (mem_ids _ _ _)
      simpa [PageReference.isValid, named] using (sound.live stands).2
    rw [parts] at found
    have siblings : ∀ other ∈ left ++ right, Tree tree.view height other := by
      intro other member
      refine subtrees other ?_
      rcases List.mem_append.mp member with member | member <;> simp [member]
    have next := Within.child within found leftLength rightLength siblings
    rw [leftLength] at next
    have order : interleave ((left ++ child :: right).map (inorder tree.view height)) node.keys =
        fronts (left.map (inorder tree.view height)) front ++ inorder tree.view height child ++
          backs back (right.map (inorder tree.view height)) := by
      rw [parts, List.map_append, List.map_cons]
      have window := @interleave_window _ (left.map (inorder tree.view height)) [inorder tree.view height child]
        (right.map (inorder tree.view height)) front [] back (by simpa using leftLength) rfl (by simpa using rightLength)
      simpa using window
    rw [order] at sorted
    have smallBefore : ∀ item ∈ before ++ fronts (left.map (inorder tree.view height)) front, item < key := by
      intro item member
      rcases List.mem_append.mp member with member | member
      · exact below item member
      · refine forall_fronts (fun low high less small => less.trans small) (sorted.sublist ?_) smaller item member
        simp
    have largeAfter : ∀ item ∈ backs back (right.map (inorder tree.view height)) ++ after, key ≤ item := by
      intro item member
      rcases List.mem_append.mp member with member | member
      · refine forall_backs (fun low high less large => large.trans less.le) (sorted.sublist ?_) larger item member
        exact ((List.sublist_append_right _ _).trans (List.sublist_append_right _ _)).trans (List.sublist_append_left _ _)
      · exact above item member
    obtain ⟨leafId, path', before', after', outside', walked, reached⟩ :=
      @ih fuel child (⟨id, front.length⟩ :: path) _ _ _ next childTree
        (by simpa only [List.append_assoc] using sorted) smallBefore largeAfter (by omega)
    refine ⟨leafId, path', before', after', outside', ?_, reached⟩
    rw [descend, if_neg noLeaf, standing]
    simp only [InternalNode.lowerBound, place, taken, valid, if_not_true, named]
    exact walked

theorem Shape.live {order : List Key} (shape : tree.Shape top order) (sound : tree.Sound) :
    tree.rootId ≠ kInvalidPageId :=
  (sound.live (shape.grown.stands _ (mem_ids _ _ _))).2

/-- A tree is no higher than there are internal nodes. -/
theorem height_le {id : PageId} (grown : Tree tree.view top id) : top ≤ tree.internals.keys.length := by
  obtain ⟨nodes, length, distinct, branches⟩ := grown.spine
  have known : nodes ⊆ tree.internals.keys := by
    intro node member
    obtain ⟨-, keys, children, found⟩ := branches node member
    obtain ⟨-, internal, standing, -⟩ := view_branch.mp found
    exact AList.mem_keys.mp (AList.lookup_isSome.mp (by simp [standing]))
  rw [← length]
  exact (List.subperm_of_subset distinct known).length_le

/-- The descent from the root of a sorted tree. -/
theorem Shape.reaches {order : List Key} (shape : tree.Shape top order) (sound : tree.Sound)
    (sorted : order.Pairwise (· < ·)) (key : Key) :
    ∃ leafId path before after outside,
      tree.descend key (tree.internals.keys.length + 1) tree.rootId [] = .ok (leafId, path) ∧
        Reached tree top key leafId path before after outside := by
  refine descend_reaches sound .whole shape.grown ?_ (by simp) (by simp) (Nat.lt_succ_of_le (height_le shape.grown))
  simpa [shape.order] using sorted

/-- The keys of the tree around those of a leaf that was reached. -/
theorem Reached.splits {order before after : List Key} {leafId : PageId} {path : List SearchPathEntry}
    {outside : List PageId} (reached : Reached tree top key leafId path before after outside)
    (shape : tree.Shape top order) :
    ∃ leaf, tree.leaves.lookup leafId = some leaf ∧ order = before ++ leaf.keys ++ after ∧ (leafId :: outside).Nodup := by
  obtain ⟨leaf, standing⟩ := Option.isSome_iff_exists.mp (AList.lookup_isSome.mpr reached.leaf)
  have found : tree.view leafId = some (.leaf leaf.keys) := view_leaf.mpr ⟨leaf, standing, rfl⟩
  obtain ⟨-, all, nodes⟩ := reached.within.plug (tree_leaf found)
  refine ⟨leaf, standing, ?_, nodes.nodup_iff.mp shape.distinct⟩
  rw [← shape.order, all, inorder_leaf found]

/-- A key that is nowhere in the tree may be put into the leaf that is reached for it. -/
theorem descendForInsert_new {order before after : List Key} {leafId : PageId} {path : List SearchPathEntry}
    {leaf : LeafNode} (sound : tree.Sound) (standing : tree.leaves.lookup leafId = some leaf)
    (live : tree.rootId ≠ kInvalidPageId)
    (walked : tree.descend key (tree.internals.keys.length + 1) tree.rootId [] = .ok (leafId, path))
    (splits : order = before ++ leaf.keys ++ after) (new : key ∉ order) :
    tree.descendForInsert key = .ok (leafId, leaf.lowerBound key, path) := by
  have down : tree.descendToLeaf key false = .ok (leafId, leaf.lowerBound key, path) := by
    simp [descendToLeaf, empty, live, walked, standing]
  have absent : ∀ index, leaf.keys[index]? ≠ some key := fun index found =>
    new (splits ▸ List.mem_append_left _ (List.mem_append_right _ (List.mem_of_getElem? found)))
  simp only [descendForInsert, down, standing]
  split
  · next here =>
    have inside : leaf.lowerBound key < leaf.keys.length := by
      rw [← (sound.leaves leafId leaf standing).count]
      simpa using (Bool.and_eq_true_iff.mp here).2
    have other := absent (leaf.lowerBound key)
    rw [List.getElem?_eq_getElem inside, Ne, Option.some.injEq] at other
    simp [List.getElem?_eq_getElem inside, other]
  · rfl

/-- A key that is found stands in the leaf that is reached for it. -/
theorem descendToLeaf_found {leafId : PageId} {path : List SearchPathEntry}
    {leaf : LeafNode} (standing : tree.leaves.lookup leafId = some leaf)
    (walked : tree.descend key (tree.internals.keys.length + 1) tree.rootId [] = .ok (leafId, path))
    {found : PageId × Nat × List SearchPathEntry} (exact : tree.descendToLeaf key true = .ok found) :
    found = (leafId, leaf.find key, path) ∧ leaf.keys[leaf.find key]? = some key := by
  simp only [descendToLeaf, walked, standing, if_true] at exact
  split at exact
  · cases exact
  split at exact
  · cases exact
  split at exact
  · cases exact
  next item here =>
  split at exact
  · cases exact
  next equal =>
  rw [KeyComparator.equal_eq] at equal
  simp only [Bool.not_eq_true', decide_eq_false_iff_not, not_not] at equal
  subst equal
  exact ⟨(Except.ok.inj exact).symm, here⟩

end BTree
end Quartz.Btree
