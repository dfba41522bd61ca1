import Quartz.Proofs.ValidatorWalk

/-! What the validator has seen in a tree it accepts, and what a search finds there. The keys
of a leaf may be equal to the separator on their left, but the descent goes left of a separator
that is equal to the key. -/

namespace Quartz.Btree
open Storage Format HeapTree BTree

variable {ω : Type}

namespace TreeValidator

structure LeafChecked (leaf : LeafNode) (low high : Option Key) : Prop where
  refs : leaf.refs.length = leaf.keys.length
  count : leaf.keyCount = leaf.keys.length
  range : Ranged low (fun key => ∀ bound ∈ high, key < bound) none leaf.keys

structure InternalChecked (node : InternalNode) (low high : Option Key) : Prop where
  children : node.children.length = node.keys.length + 1
  count : node.keyCount = node.keys.length
  range : Ranged low (fun key => ∀ bound ∈ high, key ≤ bound) none node.keys

theorem LeafChecked.entry {leaf : LeafNode} {low high : Option Key} (checked : LeafChecked leaf low high) {key : Key}
    (member : key ∈ leaf.keys) : ∃ value, (key, value) ∈ leaf.keys.zip leaf.refs := by
  obtain ⟨index, inside, rfl⟩ := List.getElem_of_mem member
  have same := checked.refs
  refine ⟨leaf.refs[index], List.mem_of_getElem? (i := index) ?_⟩
  rw [List.getElem?_zip_eq_some]
  exact ⟨List.getElem?_eq_getElem inside, List.getElem?_eq_getElem (by omega)⟩

theorem leafChecked {leaf : LeafNode} {low high : Option Key} (accepted : (validateLeafRange leaf low high).ok = true) :
    LeafChecked leaf low high := by
  unfold validateLeafRange at accepted
  split at accepted
  next refused => simp [accepted] at refused
  next valid =>
  simp only [Bool.not_eq_true', Bool.not_eq_false] at valid
  unfold LeafNode.validate at valid
  grind [Status.corruption, Status.ok, leafRange_iff.mp accepted, LeafChecked]

theorem internalChecked {node : InternalNode} {low high : Option Key} (valid : node.validate.ok = true)
    (accepted : (internalRange low high none node.keys).ok = true) : InternalChecked node low high := by
  unfold InternalNode.validate at valid
  grind [Status.corruption, Status.ok, internalRange_iff.mp accepted, InternalChecked]

/-- What the walk has seen from a page on: leaves at one depth, between bounds that narrow. -/
def Checked (tree : BTree ω) : Nat → PageId → Option Key → Option Key → Prop
  | 0, id, low, high => ∃ leaf, tree.leaves.lookup id = some leaf ∧ LeafChecked leaf low high
  | height + 1, id, low, high => id ∉ tree.leaves ∧ ∃ node, tree.internals.lookup id = some node ∧
      InternalChecked node low high ∧
      ∀ entry ∈ node.children.zip (childBounds low high node.keys),
        entry.1.isValid = true ∧ Checked tree height entry.1.pageId entry.2.1 entry.2.2

variable {tree : BTree ω}

theorem Passes.checked {height : Nat} {id : PageId} {low high : Option Key} (passes : Passes tree height id low high) :
    Checked tree height id low high := by
  induction height generalizing id low high with
  | zero =>
    obtain ⟨leaf, standing, passed⟩ := passes
    exact ⟨leaf, standing, leafChecked passed⟩
  | succ height ih =>
    obtain ⟨_, ⟨noLeaf, node, inner, valid, range, rfl⟩, each⟩ := passes
    exact ⟨noLeaf, node, inner, internalChecked valid range, fun entry member => (each entry member).imp_right ih⟩

/-- An accepted tree has no root or was seen from the root on. -/
theorem validate_sound (accepted : validate tree = .ok ()) :
    tree.empty = true ∨ ∃ height, Checked tree height tree.rootId none none := by
  unfold validate at accepted
  split at accepted
  next empty => exact .inl empty
  split at accepted
  · cases accepted
  obtain ⟨found, walked, -⟩ := Fallible.except_bind_ok accepted
  obtain ⟨-, height, -, passes⟩ := validateSubtree_passes Nat.one_pos walked
  exact .inr ⟨height, passes.checked⟩

def boundBefore (low : Option Key) (keys : List Key) (index : Nat) : Option Key :=
  if index = 0 then low else keys[index - 1]?

def boundBehind (high : Option Key) (keys : List Key) (index : Nat) : Option Key := keys[index]?.or high

theorem childBounds_at (low high : Option Key) {keys : List Key} {index : Nat} (inside : index ≤ keys.length) :
    (childBounds low high keys)[index]? = some (boundBefore low keys index, boundBehind high keys index) := by
  have before : (low :: keys.map some)[index]? = some (boundBefore low keys index) := by
    cases index with
    | zero => rfl
    | succ index => simp [boundBefore, List.getElem?_eq_getElem (show index < keys.length by omega)]
  have behind : (keys.map some ++ [high])[index]? = some (boundBehind high keys index) := by
    rcases Nat.lt_or_eq_of_le inside with short | rfl
    · simp [boundBehind, List.getElem?_append_left, short]
    · simp [boundBehind]
  rw [childBounds, List.zip, List.getElem?_zipWith, before, behind]

section Subtrees

variable {height : Nat} {id : PageId} {low high : Option Key} {node : InternalNode}

theorem Checked.branch (checked : Checked tree (height + 1) id low high) :
    ∃ node, id ∉ tree.leaves ∧ tree.internals.lookup id = some node ∧ InternalChecked node low high ∧
      ∀ index ref, node.children[index]? = some ref → index ≤ node.keys.length ∧ ref.isValid = true ∧
        Checked tree height ref.pageId (boundBefore low node.keys index) (boundBehind high node.keys index) := by
  obtain ⟨noLeaf, node, standing, inner, below⟩ := checked
  refine ⟨node, noLeaf, standing, inner, fun index ref taken => ?_⟩
  have inside : index ≤ node.keys.length := by
    have short := (List.getElem?_eq_some_iff.mp taken).1
    rw [inner.children] at short
    omega
  have entry : (node.children.zip (childBounds low high node.keys))[index]? =
      some (ref, boundBefore low node.keys index, boundBehind high node.keys index) := by
    rw [List.zip, List.getElem?_zipWith, taken, childBounds_at low high inside]
  exact ⟨inside, below _ (List.mem_of_getElem? entry)⟩

theorem Checked.grown (checked : Checked tree height id low high) : Tree tree.view height id := by
  induction height generalizing id low high with
  | zero =>
    obtain ⟨leaf, standing, -⟩ := checked
    exact ⟨leaf.keys, view_leaf.mpr ⟨leaf, standing, rfl⟩⟩
  | succ height ih =>
    obtain ⟨node, noLeaf, standing, inner, below⟩ := checked.branch
    refine ⟨node.keys, node.children.map (·.pageId), view_branch.mpr ⟨noLeaf, node, standing, rfl, rfl⟩,
      by simpa using inner.children, ?_⟩
    intro child member
    obtain ⟨ref, inside, rfl⟩ := List.mem_map.mp member
    obtain ⟨index, taken⟩ := List.mem_iff_getElem?.mp inside
    exact ih (below index ref taken).2.2

end Subtrees
end TreeValidator

namespace BTree

inductive Reaches (tree : BTree ω) : PageId → PageId → Prop
  | here (id : PageId) : Reaches tree id id
  | down {id other : PageId} {node : InternalNode} {child : PageReference} : id ∉ tree.leaves →
      tree.internals.lookup id = some node → child ∈ node.children → Reaches tree child.pageId other → Reaches tree id other

def Holds (tree : BTree ω) (id : PageId) (key : Key) (value : PageReference) : Prop :=
  ∃ leafId leaf, tree.Reaches id leafId ∧ tree.leaves.lookup leafId = some leaf ∧ (key, value) ∈ leaf.keys.zip leaf.refs

def Separates (tree : BTree ω) (id : PageId) (key : Key) : Prop :=
  ∃ nodeId node, tree.Reaches id nodeId ∧ nodeId ∉ tree.leaves ∧ tree.internals.lookup nodeId = some node ∧ key ∈ node.keys

/-- An entry below the root. An empty tree has no root. -/
def Stores (tree : BTree ω) (key : Key) (value : PageReference) : Prop :=
  tree.empty = false ∧ tree.Holds tree.rootId key value

variable {tree : BTree ω} {id : PageId} {key : Key} {value : PageReference} {leaf : LeafNode} {node : InternalNode}

theorem holds_leaf (standing : tree.leaves.lookup id = some leaf) :
    tree.Holds id key value ↔ (key, value) ∈ leaf.keys.zip leaf.refs := by
  constructor
  · rintro ⟨leafId, other, reached, found, inside⟩
    cases reached with
    | here =>
      obtain rfl : leaf = other := Option.some.inj (standing.symm.trans found)
      exact inside
    | down noLeaf => exact absurd (mem_leaves standing) noLeaf
  · exact fun inside => ⟨id, leaf, .here id, standing, inside⟩

theorem not_separates_leaf (standing : tree.leaves.lookup id = some leaf) : ¬ tree.Separates id key := by
  rintro ⟨nodeId, other, reached, noLeaf, -⟩
  cases reached with
  | here | down noLeaf => exact noLeaf (mem_leaves standing)

section Internal

variable (noLeaf : id ∉ tree.leaves) (standing : tree.internals.lookup id = some node)
include noLeaf standing

theorem holds_internal : tree.Holds id key value ↔ ∃ child ∈ node.children, tree.Holds child.pageId key value := by
  constructor
  · rintro ⟨leafId, leaf, reached, found, inside⟩
    cases reached with
    | here => exact absurd (mem_leaves found) noLeaf
    | down _ other member deeper =>
      obtain rfl := Option.some.inj (standing.symm.trans other)
      exact ⟨_, member, leafId, leaf, deeper, found, inside⟩
  · rintro ⟨child, member, leafId, leaf, reached, found, inside⟩
    exact ⟨leafId, leaf, .down noLeaf standing member reached, found, inside⟩

theorem separates_internal :
    tree.Separates id key ↔ key ∈ node.keys ∨ ∃ child ∈ node.children, tree.Separates child.pageId key := by
  constructor
  · rintro ⟨nodeId, other, reached, inner, found, inside⟩
    cases reached with
    | here =>
      obtain rfl := Option.some.inj (standing.symm.trans found)
      exact .inl inside
    | down _ same member deeper =>
      obtain rfl := Option.some.inj (standing.symm.trans same)
      exact .inr ⟨_, member, nodeId, other, deeper, inner, found, inside⟩
  · rintro (inside | ⟨child, member, nodeId, other, reached, inner, found, inside⟩)
    · exact ⟨id, node, .here id, noLeaf, standing, inside⟩
    · exact ⟨nodeId, other, .down noLeaf standing member reached, inner, found, inside⟩

end Internal
end BTree

namespace TreeValidator

variable {tree : BTree ω} {height : Nat} {id : PageId} {low high : Option Key} {node : InternalNode}

theorem Ranged.at_le {low previous : Option Key} {under : Key → Prop} {keys : List Key} (range : Ranged low under previous keys)
    {first second : Nat} {small large : Key} (order : first ≤ second) (left : keys[first]? = some small)
    (right : keys[second]? = some large) : small ≤ large := by
  obtain ⟨inside, rfl⟩ := List.getElem?_eq_some_iff.mp left
  obtain ⟨within, rfl⟩ := List.getElem?_eq_some_iff.mp right
  rcases Nat.lt_or_eq_of_le order with before | rfl
  · exact List.pairwise_iff_getElem.mp range.sorted first second inside within before
  · exact le_refl _

section Bounds

variable {index : Nat} {holds : Key → Prop}

/-- What holds of the bound in front of a child holds of everything further left. -/
theorem InternalChecked.left (inner : InternalChecked node low high) (down : ∀ first second, first ≤ second → holds second → holds first)
    (inside : index ≤ node.keys.length) (bound : ∀ key ∈ boundBefore low node.keys index, holds key) :
    (∀ key ∈ low, holds key) ∧ ∀ place < index, ∀ key, node.keys[place]? = some key → holds key := by
  cases index with
  | zero => exact ⟨bound, by simp⟩
  | succ index =>
    have here : node.keys[index]? = some (node.keys[index]) := List.getElem?_eq_getElem inside
    have holding : holds (node.keys[index]) := bound _ (by simp [boundBefore, here])
    refine ⟨fun key member => ?_, fun place before key found => ?_⟩
    · exact down key _ (inner.range.low _ (List.mem_of_getElem? here) key member) holding
    · exact down key _ (inner.range.at_le (Nat.le_of_lt_succ before) found here) holding

theorem InternalChecked.right (inner : InternalChecked node low high) (up : ∀ first second, first ≤ second → holds first → holds second)
    (bound : ∀ key ∈ boundBehind high node.keys index, holds key) :
    (∀ key ∈ high, holds key) ∧ ∀ place, index ≤ place → ∀ key, node.keys[place]? = some key → holds key := by
  cases here : node.keys[index]? with
  | none =>
    simp only [boundBehind, here, Option.none_or] at bound
    refine ⟨bound, fun place after key found => ?_⟩
    have past := List.getElem?_eq_none_iff.mp here
    rw [List.getElem?_eq_none (by omega)] at found
    cases found
  | some first =>
    have holding : holds first := bound first (by simp [boundBehind, here])
    refine ⟨fun key member => ?_, fun place after key found => ?_⟩
    · exact up first key (inner.range.high _ (List.mem_of_getElem? here) key member) holding
    · exact up first key (inner.range.at_le after here found) holding

end Bounds

/-- The entries below a page lie between its bounds, the lower one included. -/
theorem Checked.holds_range {key : Key} {value : PageReference} (checked : Checked tree height id low high)
    (held : tree.Holds id key value) : (∀ bound ∈ low, bound ≤ key) ∧ ∀ bound ∈ high, key < bound := by
  induction height generalizing id low high with
  | zero =>
    obtain ⟨leaf, standing, whole⟩ := checked
    have inside := (List.of_mem_zip ((holds_leaf standing).mp held)).1
    exact ⟨whole.range.low key inside, whole.range.high key inside⟩
  | succ height ih =>
    obtain ⟨node, noLeaf, standing, inner, below⟩ := checked.branch
    obtain ⟨child, member, deeper⟩ := (holds_internal noLeaf standing).mp held
    obtain ⟨index, taken⟩ := List.mem_iff_getElem?.mp member
    obtain ⟨inside, -, deep⟩ := below index child taken
    obtain ⟨above, under⟩ := ih deep deeper
    exact ⟨(inner.left (fun first second less most => less.trans most) inside above).1,
      (inner.right (fun first second less most => most.trans_le less) under).1⟩

theorem Checked.separates_range {key : Key} (checked : Checked tree height id low high) (separates : tree.Separates id key) :
    (∀ bound ∈ low, bound ≤ key) ∧ ∀ bound ∈ high, key ≤ bound := by
  induction height generalizing id low high with
  | zero =>
    obtain ⟨leaf, standing, -⟩ := checked
    exact absurd separates (not_separates_leaf standing)
  | succ height ih =>
    obtain ⟨node, noLeaf, standing, inner, below⟩ := checked.branch
    rcases (separates_internal noLeaf standing).mp separates with here | ⟨child, member, deeper⟩
    · exact ⟨inner.range.low key here, inner.range.high key here⟩
    · obtain ⟨index, taken⟩ := List.mem_iff_getElem?.mp member
      obtain ⟨inside, -, deep⟩ := below index child taken
      obtain ⟨above, under⟩ := ih deep deeper
      exact ⟨(inner.left (fun first second less most => less.trans most) inside above).1,
        (inner.right (fun first second less most => most.trans less) under).1⟩

theorem children_around {front back : List Key} {key : Key} (inner : InternalChecked node low high)
    (parts : node.keys = front ++ back) (smaller : ∀ item ∈ front, item < key) (larger : ∀ item ∈ back, key ≤ item)
    {index : Nat} (inside : index ≤ node.keys.length) (above : ∀ bound ∈ boundBefore low node.keys index, bound ≤ key)
    (under : ∀ bound ∈ boundBehind high node.keys index, key ≤ bound) :
    front.length ≤ index ∧ (key ∉ node.keys → index = front.length) := by
  have left : front.length ≤ index := by
    by_contra short
    have place : node.keys[index]? = some (front[index]) := by
      rw [parts, List.getElem?_append_left (by omega), List.getElem?_eq_getElem]
    have bound := (inner.right (fun first second less most => most.trans less) under).2 index (Nat.le_refl _) _ place
    exact absurd (smaller _ (List.getElem_mem _)) (not_lt.mpr bound)
  refine ⟨left, fun absent => ?_⟩
  by_contra other
  obtain ⟨before, rfl⟩ : ∃ before, index = before + 1 := ⟨index - 1, by omega⟩
  obtain ⟨item, place⟩ : ∃ item, node.keys[before]? = some item := ⟨_, List.getElem?_eq_getElem inside⟩
  have behind : item ∈ back := by
    rw [parts, List.getElem?_append_right (by omega)] at place
    exact List.mem_of_getElem? place
  have bound := (inner.left (fun first second less most => less.trans most) inside above).2 before (Nat.lt_succ_self _) _ place
  obtain rfl : item = key := le_antisymm bound (larger item behind)
  exact absent (List.mem_of_getElem? place)

theorem Checked.search {fuel : Nat} (checked : Checked tree height id low high) (enough : height < fuel) (key : Key)
    (path : List SearchPathEntry) :
    ∃ leafId leaf path' low' high', tree.descend key fuel id path = .ok (leafId, path') ∧
      tree.leaves.lookup leafId = some leaf ∧ tree.Reaches id leafId ∧ LeafChecked leaf low' high' ∧
      (key ∈ leaf.keys → ¬ tree.Separates id key) ∧
      (¬ tree.Separates id key → ∀ value, tree.Holds id key value → (key, value) ∈ leaf.keys.zip leaf.refs) := by
  induction height generalizing fuel id low high path with
  | zero =>
    obtain ⟨fuel, rfl⟩ := Nat.exists_eq_add_of_lt enough
    obtain ⟨leaf, standing, whole⟩ := checked
    refine ⟨id, leaf, path, low, high, ?_, standing, .here id, whole, fun _ => not_separates_leaf standing,
      fun _ value held => (holds_leaf standing).mp held⟩
    rw [Nat.zero_add, descend, if_pos (mem_leaves standing)]
  | succ height ih =>
    obtain ⟨fuel, rfl⟩ : ∃ rest, fuel = rest + 1 := ⟨fuel - 1, by omega⟩
    obtain ⟨node, noLeaf, standing, inner, below⟩ := checked.branch
    obtain ⟨front, back, parts, place, smaller, larger⟩ := KeyComparator.lowerBound_splits inner.range.sorted key
    have around := fun {index} => @children_around low high node front back key inner parts smaller larger index
    obtain ⟨ref, taken⟩ : ∃ ref, node.children[front.length]? = some ref := by
      have room := inner.children
      rw [parts, List.length_append] at room
      exact ⟨node.children[front.length], List.getElem?_eq_getElem (by omega)⟩
    obtain ⟨-, valid, deeper⟩ := below front.length ref taken
    obtain ⟨leafId, leaf, path', low', high', walked, found, reached, whole, apart, kept⟩ :=
      ih deeper (by omega : height < fuel) (⟨id, front.length⟩ :: path)
    refine ⟨leafId, leaf, path', low', high', ?_, found, .down noLeaf standing (List.mem_of_getElem? taken) reached, whole, ?_, ?_⟩
    · rw [descend, if_neg noLeaf, standing]
      simp only [InternalNode.lowerBound, place, taken, valid, if_not_true]
      exact walked
    · intro member separates
      obtain ⟨value, entry⟩ := whole.entry member
      have held : tree.Holds ref.pageId key value := ⟨leafId, leaf, reached, found, entry⟩
      have absent : key ∉ node.keys := by
        intro listed
        obtain ⟨index, found⟩ := List.mem_iff_getElem?.mp listed
        have left : front.length ≤ index := by
          by_contra short
          rw [parts, List.getElem?_append_left (by omega)] at found
          exact lt_irrefl key (smaller key (List.mem_of_getElem? found))
        exact lt_irrefl key ((inner.right (fun first second less most => most.trans_le less)
          (deeper.holds_range held).2).2 index left key found)
      rcases (separates_internal noLeaf standing).mp separates with listed | ⟨child, inside, deep⟩
      · exact absent listed
      · obtain ⟨index, here⟩ := List.mem_iff_getElem?.mp inside
        obtain ⟨short, -, rest⟩ := below index child here
        obtain ⟨above, under⟩ := rest.separates_range deep
        obtain rfl := (around short above under).2 absent
        obtain rfl := Option.some.inj (taken.symm.trans here)
        exact apart member deep
    · intro free value held
      obtain ⟨child, member, deep⟩ := (holds_internal noLeaf standing).mp held
      obtain ⟨index, here⟩ := List.mem_iff_getElem?.mp member
      obtain ⟨inside, -, rest⟩ := below index child here
      obtain ⟨above, under⟩ := rest.holds_range deep
      have absent : key ∉ node.keys := fun listed => free ((separates_internal noLeaf standing).mpr (.inl listed))
      obtain rfl := (around inside above fun bound member => (under bound member).le).2 absent
      obtain rfl := Option.some.inj (taken.symm.trans here)
      refine kept (fun separates => free ?_) value deep
      exact (separates_internal noLeaf standing).mpr (.inr ⟨ref, member, separates⟩)

end TreeValidator

namespace BTree

variable {tree : BTree ω}

/-- No key stands twice in a leaf of the tree. -/
def Distinct (tree : BTree ω) : Prop :=
  ∀ id leaf, tree.Reaches tree.rootId id → tree.leaves.lookup id = some leaf → leaf.keys.Nodup

/-- In an accepted tree every entry is found exactly when no separator is the key of an entry. -/
theorem search_complete_iff (tree : BTree ω) (accepted : TreeValidator.validate tree = .ok ()) (distinct : tree.Distinct) :
    (∀ key value, tree.Stores key value → tree.find key = .ok value) ↔
      ∀ key value, tree.Stores key value → ¬ tree.Separates tree.rootId key := by
  rcases TreeValidator.validate_sound accepted with bare | ⟨height, checked⟩
  · simp [Stores, bare]
  have enough : height < tree.internals.keys.length + 1 := Nat.lt_succ_of_le (height_le checked.grown)
  constructor
  · intro found key value stored separates
    obtain ⟨leafId, leaf, path, low, high, walked, standing, -, -, apart, -⟩ := checked.search enough key []
    have answer := found key value stored
    unfold find at answer
    cases reached : tree.descendToLeaf key true with
    | error failure =>
      rw [reached] at answer
      cases answer
    | ok place =>
      obtain ⟨-, here⟩ := descendToLeaf_found standing walked reached
      exact apart (List.mem_of_getElem? here) separates
  · intro free key value stored
    obtain ⟨leafId, leaf, path, low, high, walked, standing, reached, whole, -, kept⟩ := checked.search enough key []
    have entry := kept (free key value stored) value stored.2
    have sorted : leaf.keys.Pairwise (· < ·) :=
      whole.range.sorted.imp₂ (fun first second less apart => lt_of_le_of_ne less apart) (distinct leafId leaf reached standing)
    rcases KeyComparator.find_splits sorted key with ⟨front, back, parts, place⟩ | ⟨absent, -⟩
    case inr => exact absurd (List.of_mem_zip entry).1 absent
    obtain ⟨index, taken⟩ := List.mem_iff_getElem?.mp entry
    obtain ⟨listed, paired⟩ := List.getElem?_zip_eq_some.mp taken
    have here : leaf.keys[leaf.find key]? = some key := by
      rw [LeafNode.find, place, parts]
      simp
    have same : index = leaf.find key :=
      (List.getElem?_inj (List.getElem?_eq_some_iff.mp listed).1 (distinct leafId leaf reached standing)).mp (listed.trans here.symm)
    have inside : ¬ leaf.find key ≥ leaf.keyCount := by
      rw [whole.count, ge_iff_le, not_le]
      exact (List.getElem?_eq_some_iff.mp here).1
    have down : tree.descendToLeaf key true = .ok (leafId, leaf.find key, path) := by
      simp only [descendToLeaf, stored.1, walked, standing, if_true, if_neg inside, here]
      simp
    rw [find, down]
    simp only [standing, Option.bind_some, ← same, paired]

def leafOf (id : PageId) (keys : List Key) : LeafNode :=
  ((LeafNode.create id { keyType := .uint32 }).assignEntries keys (keys.map fun _ => PageReference.make 77 1 4)).2

def pair (separator : Key) (left right : List Key) : BTree Empty where
  space := Space.SpaceManager.withPolicy .firstFit
  rootId := 10
  height := 2
  leaves := (AList.singleton 8 (leafOf 8 left)).insert 9 (leafOf 9 right)
  internals := AList.singleton 10
    ((InternalNode.create 10 { keyType := .uint32, level := 1 }).assignEntries [separator] [makeIndexRef 8, makeIndexRef 9]).2

theorem distinct_of_entries (each : ∀ entry ∈ tree.leaves.entries, entry.2.keys.Nodup) : tree.Distinct :=
  fun _ _ _ standing => each _ (AList.mem_lookup_iff.mp standing)

theorem search_complete_iff_pair :
    TreeValidator.validate (pair (.uint32 4) [.uint32 1] [.uint32 5]) = .ok () ∧
      (pair (.uint32 4) [.uint32 1] [.uint32 5]).Distinct ∧
      ((∀ key value, (pair (.uint32 4) [.uint32 1] [.uint32 5]).Stores key value →
          (pair (.uint32 4) [.uint32 1] [.uint32 5]).find key = .ok value) ↔
        ∀ key value, (pair (.uint32 4) [.uint32 1] [.uint32 5]).Stores key value →
          ¬ (pair (.uint32 4) [.uint32 1] [.uint32 5]).Separates 10 key) := by
  have accepted : TreeValidator.validate (pair (.uint32 4) [.uint32 1] [.uint32 5]) = .ok () := by decide +kernel
  have distinct : (pair (.uint32 4) [.uint32 1] [.uint32 5]).Distinct := distinct_of_entries (by decide +kernel)
  exact ⟨accepted, distinct, search_complete_iff _ accepted distinct⟩

/-- The key on the right is the separator: it is accepted there and looked for on the left. -/
theorem separator_key_is_not_found :
    TreeValidator.validate (pair (.uint32 5) [.uint32 1] [.uint32 5]) = .ok () ∧
      (pair (.uint32 5) [.uint32 1] [.uint32 5]).Distinct ∧
      (pair (.uint32 5) [.uint32 1] [.uint32 5]).Stores (.uint32 5) (PageReference.make 77 1 4) ∧
      (pair (.uint32 5) [.uint32 1] [.uint32 5]).find (.uint32 5) =
        .error (.status (Status.invalidArgument "BTree: key not found")) := by
  have reached : (pair (.uint32 5) [.uint32 1] [.uint32 5]).Reaches 10 9 :=
    .down (by decide +kernel) rfl (List.mem_cons_of_mem _ List.mem_cons_self) (.here 9)
  have held : (pair (.uint32 5) [.uint32 1] [.uint32 5]).Holds 10 (.uint32 5) (PageReference.make 77 1 4) :=
    ⟨9, _, reached, rfl, by decide +kernel⟩
  exact ⟨by decide +kernel, distinct_of_entries (by decide +kernel), ⟨by decide +kernel, held⟩, by decide +kernel⟩

end BTree
end Quartz.Btree
