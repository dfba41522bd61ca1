import Mathlib.Data.List.Flatten
import Mathlib.Data.List.Perm.Basic
import Mathlib.Data.List.Pairwise

/-! Trees of one height whose nodes lie in a heap. Keys stand in the leaves and between the
children of branches; read from left to right they make one list. A place in a tree is a path
from the root, and a change at that place leaves what lies around it alone. -/

namespace HeapTree

variable {ι κ : Type}

inductive Node (ι κ : Type) where
  | leaf (keys : List κ)
  | branch (keys : List κ) (children : List ι)

/-- A tree with all leaves at one depth and one child more than keys in every branch. -/
def Tree (heap : ι → Option (Node ι κ)) : Nat → ι → Prop
  | 0, id => ∃ keys, heap id = some (.leaf keys)
  | height + 1, id => ∃ keys children, heap id = some (.branch keys children) ∧
      children.length = keys.length + 1 ∧ ∀ child ∈ children, Tree heap height child

/-- Lists, each followed by the key behind it. -/
def fronts (parts : List (List κ)) (keys : List κ) : List κ :=
  (List.zipWith (fun part key => part ++ [key]) parts keys).flatten

/-- Lists, each behind the key in front of it. -/
def backs (keys : List κ) (parts : List (List κ)) : List κ :=
  (List.zipWith (fun key part => key :: part) keys parts).flatten

/-- Parts with the keys between them. -/
def interleave : List (List κ) → List κ → List κ
  | part :: parts, key :: keys => part ++ key :: interleave parts keys
  | parts, _ => parts.flatten

@[simp] theorem fronts_nil (keys : List κ) : fronts [] keys = [] := rfl

@[simp] theorem fronts_cons (part : List κ) (parts : List (List κ)) (key : κ) (keys : List κ) :
    fronts (part :: parts) (key :: keys) = part ++ key :: fronts parts keys := by
  simp [fronts]

@[simp] theorem backs_nil (parts : List (List κ)) : backs [] parts = [] := rfl

@[simp] theorem backs_cons (key : κ) (keys : List κ) (part : List κ) (parts : List (List κ)) :
    backs (key :: keys) (part :: parts) = key :: part ++ backs keys parts := by
  simp [backs]

theorem interleave_backs {middle right : List (List κ)} {keys rightKeys : List κ}
    (count : middle.length = keys.length + 1) (behind : right.length = rightKeys.length) :
    interleave (middle ++ right) (keys ++ rightKeys) = interleave middle keys ++ backs rightKeys right := by
  induction keys generalizing middle with
  | nil =>
    obtain ⟨part, rfl⟩ := List.length_eq_one_iff.mp (by simpa using count)
    induction right generalizing part rightKeys with
    | nil =>
      obtain rfl : rightKeys = [] := List.length_eq_zero_iff.mp behind.symm
      simp [interleave]
    | cons next rest ih =>
      cases rightKeys with
      | nil => cases behind
      | cons key keys =>
        have later := ih (by simpa using behind) next rfl
        simp only [List.nil_append, List.singleton_append] at later
        simp [interleave, later]
  | cons key keys ih =>
    cases middle with
    | nil => cases count
    | cons part parts => simp [interleave, ih (by simpa using count)]

theorem split_at {α : Type} {items : List α} {index : Nat} {item : α} (found : items[index]? = some item) :
    ∃ left right, items = left ++ item :: right ∧ left.length = index := by
  obtain ⟨inside, rfl⟩ := List.getElem?_eq_some_iff.mp found
  refine ⟨items.take index, items.drop (index + 1), ?_, List.length_take_of_le (Nat.le_of_lt inside)⟩
  rw [← List.drop_eq_getElem_cons inside, List.take_append_drop]

/-- A window on some of the parts: what is in front of it, the window, and what is behind it. -/
theorem interleave_window {left middle right : List (List κ)} {leftKeys keys rightKeys : List κ}
    (front : left.length = leftKeys.length) (count : middle.length = keys.length + 1)
    (behind : right.length = rightKeys.length) :
    interleave (left ++ (middle ++ right)) (leftKeys ++ (keys ++ rightKeys)) =
      fronts left leftKeys ++ interleave middle keys ++ backs rightKeys right := by
  induction left generalizing leftKeys with
  | nil =>
    obtain rfl : leftKeys = [] := List.length_eq_zero_iff.mp front.symm
    simpa using interleave_backs count behind
  | cons first rest ih =>
    cases leftKeys with
    | nil => cases front
    | cons key keys => simp [interleave, ih (by simpa using front)]

@[simp] theorem interleave_single (part : List κ) : interleave [part] [] = part := by simp [interleave]

@[simp] theorem interleave_pair (first second : List κ) (key : κ) :
    interleave [first, second] [key] = first ++ key :: second := by simp [interleave]

theorem interleave_key {first second : List (List κ)} {firstKeys secondKeys : List κ} (key : κ)
    (same : first.length = firstKeys.length + 1) :
    interleave (first ++ second) (firstKeys ++ key :: secondKeys) =
      interleave first firstKeys ++ key :: interleave second secondKeys := by
  induction first generalizing firstKeys with
  | nil => cases same
  | cons part rest ih =>
    cases firstKeys with
    | nil =>
      obtain rfl : rest = [] := List.length_eq_zero_iff.mp (by simpa using same)
      simp [interleave]
    | cons head keys => simp [interleave, ih (by simpa using same)]

theorem keys_sublist {parts : List (List κ)} {keys : List κ} (count : parts.length = keys.length + 1) :
    keys.Sublist (interleave parts keys) := by
  induction keys generalizing parts with
  | nil => exact List.nil_sublist _
  | cons key keys ih =>
    cases parts with
    | nil => cases count
    | cons part parts =>
      rw [interleave]
      exact ((ih (by simpa using count)).cons_cons key).trans (List.sublist_append_right _ _)

theorem interleave_cut {parts : List (List κ)} {keys : List κ} {index : Nat} {key : κ}
    (count : parts.length = keys.length + 1) (found : keys[index]? = some key) :
    interleave parts keys = interleave (parts.take (index + 1)) (keys.take index) ++
      key :: interleave (parts.drop (index + 1)) (keys.drop (index + 1)) := by
  obtain ⟨inside, value⟩ := List.getElem?_eq_some_iff.mp found
  have apart : keys = keys.take index ++ key :: keys.drop (index + 1) := by
    rw [← value, ← List.drop_eq_getElem_cons inside, List.take_append_drop]
  conv_lhs => rw [apart, ← List.take_append_drop (index + 1) parts]
  refine interleave_key key ?_
  simp only [List.length_take]
  omega

theorem window_keys_sublist {left middle right : List (List κ)} {leftKeys keys rightKeys : List κ}
    (front : left.length = leftKeys.length) (count : middle.length = keys.length + 1)
    (behind : right.length = rightKeys.length) :
    (leftKeys ++ (keys ++ rightKeys)).Sublist (fronts left leftKeys ++ interleave middle keys ++ backs rightKeys right) := by
  rw [← interleave_window front count behind]
  refine keys_sublist ?_
  simp only [List.length_append]
  omega

section Order

variable [LT κ]

theorem forall_fronts {holds : κ → Prop} (down : ∀ low high, low < high → holds high → holds low)
    {parts : List (List κ)} {keys : List κ} (sorted : (fronts parts keys).Pairwise (· < ·))
    (each : ∀ key ∈ keys, holds key) : ∀ item ∈ fronts parts keys, holds item := by
  induction parts generalizing keys with
  | nil => simp
  | cons part parts ih =>
    cases keys with
    | nil => simp [fronts]
    | cons key keys =>
      rw [fronts_cons] at sorted ⊢
      obtain ⟨-, later, across⟩ := List.pairwise_append.mp sorted
      intro item member
      rcases List.mem_append.mp member with inside | behind
      · exact down item key (across item inside key List.mem_cons_self) (each key List.mem_cons_self)
      · rcases List.mem_cons.mp behind with rfl | behind
        · exact each item List.mem_cons_self
        · exact ih (List.pairwise_cons.mp later).2 (fun key member => each key (List.mem_cons_of_mem _ member)) item behind

theorem forall_backs {holds : κ → Prop} (up : ∀ low high, low < high → holds low → holds high)
    {keys : List κ} {parts : List (List κ)} (sorted : (backs keys parts).Pairwise (· < ·))
    (each : ∀ key ∈ keys, holds key) : ∀ item ∈ backs keys parts, holds item := by
  induction keys generalizing parts with
  | nil => simp
  | cons key keys ih =>
    cases parts with
    | nil => simp [backs]
    | cons part parts =>
      rw [backs_cons] at sorted ⊢
      obtain ⟨first, later, -⟩ := List.pairwise_append.mp sorted
      intro item member
      rcases List.mem_append.mp member with inside | behind
      · rcases List.mem_cons.mp inside with rfl | inside
        · exact each item List.mem_cons_self
        · exact up key item ((List.pairwise_cons.mp first).1 item inside) (each key List.mem_cons_self)
      · exact ih later (fun key member => each key (List.mem_cons_of_mem _ member)) item behind

end Order

def inorder (heap : ι → Option (Node ι κ)) : Nat → ι → List κ
  | 0, id => match heap id with
    | some (.leaf keys) => keys
    | _ => []
  | height + 1, id => match heap id with
    | some (.branch keys children) => interleave (children.map (inorder heap height)) keys
    | _ => []

def ids (heap : ι → Option (Node ι κ)) : Nat → ι → List ι
  | 0, id => [id]
  | height + 1, id => match heap id with
    | some (.branch _ children) => id :: children.flatMap (ids heap height)
    | _ => [id]

section Reading

variable {heap : ι → Option (Node ι κ)} {height : Nat} {id : ι} {keys : List κ} {children : List ι}

theorem tree_leaf (found : heap id = some (.leaf keys)) : Tree heap 0 id := ⟨keys, found⟩

theorem inorder_leaf (found : heap id = some (.leaf keys)) : inorder heap 0 id = keys := by
  simp [inorder, found]

theorem tree_branch (found : heap id = some (.branch keys children)) :
    Tree heap (height + 1) id ↔ children.length = keys.length + 1 ∧ ∀ child ∈ children, Tree heap height child := by
  constructor
  · rintro ⟨keys', children', same, whole⟩
    cases found.symm.trans same
    exact whole
  · exact fun whole => ⟨keys, children, found, whole⟩

theorem inorder_branch (found : heap id = some (.branch keys children)) :
    inorder heap (height + 1) id = interleave (children.map (inorder heap height)) keys := by
  simp [inorder, found]

theorem ids_branch (found : heap id = some (.branch keys children)) :
    ids heap (height + 1) id = id :: children.flatMap (ids heap height) := by
  simp [ids, found]

theorem mem_ids (heap : ι → Option (Node ι κ)) (height : Nat) (id : ι) : id ∈ ids heap height id := by
  cases height with
  | zero => simp [ids]
  | succ height =>
    rw [ids]
    split <;> simp

theorem Tree.stands (tree : Tree heap height id) : ∀ other ∈ ids heap height id, (heap other).isSome := by
  induction height generalizing id with
  | zero =>
    obtain ⟨keys, found⟩ := tree
    simp [ids, found]
  | succ height ih =>
    obtain ⟨keys, children, found, -, below⟩ := tree
    rw [ids_branch found]
    intro other member
    rcases List.mem_cons.mp member with rfl | member
    · simp [found]
    · obtain ⟨child, inside, member⟩ := List.mem_flatMap.mp member
      exact ih (below child inside) other member

/-- A heap with the same nodes holds the same tree. -/
theorem Tree.frame (tree : Tree heap height id) (heap' : ι → Option (Node ι κ))
    (same : ∀ other ∈ ids heap height id, heap' other = heap other) :
    Tree heap' height id ∧ ids heap' height id = ids heap height id ∧ inorder heap' height id = inorder heap height id := by
  induction height generalizing id with
  | zero =>
    obtain ⟨keys, found⟩ := tree
    have found' : heap' id = some (.leaf keys) := (same id (mem_ids heap 0 id)).trans found
    exact ⟨tree_leaf found', rfl, (inorder_leaf found').trans (inorder_leaf found).symm⟩
  | succ height ih =>
    obtain ⟨keys, children, found, count, below⟩ := tree
    rw [ids_branch found] at same
    have found' : heap' id = some (.branch keys children) := (same id List.mem_cons_self).trans found
    have kept := fun child (inside : child ∈ children) => ih (below child inside) fun other member =>
      same other (List.mem_cons_of_mem _ (List.mem_flatMap.mpr ⟨child, inside, member⟩))
    refine ⟨(tree_branch found').mpr ⟨count, fun child inside => (kept child inside).1⟩, ?_, ?_⟩
    · rw [ids_branch found', ids_branch found]
      congr 1
      exact List.flatMap_congr fun child inside => (kept child inside).2.1
    · rw [inorder_branch found', inorder_branch found]
      congr 1
      exact List.map_congr_left fun child inside => (kept child inside).2.2

/-- The same for a row of trees. -/
theorem forest_frame (trees : ∀ child ∈ children, Tree heap height child) {heap' : ι → Option (Node ι κ)}
    (same : ∀ other ∈ children.flatMap (ids heap height), heap' other = heap other) :
    (∀ child ∈ children, Tree heap' height child) ∧
      children.flatMap (ids heap' height) = children.flatMap (ids heap height) ∧
      children.map (inorder heap' height) = children.map (inorder heap height) := by
  have kept := fun child (inside : child ∈ children) => (trees child inside).frame heap' fun other member =>
    same other (List.mem_flatMap.mpr ⟨child, inside, member⟩)
  exact ⟨fun child inside => (kept child inside).1, List.flatMap_congr fun child inside => (kept child inside).2.1,
    List.map_congr_left fun child inside => (kept child inside).2.2⟩

/-- A branch written above a row of trees that stay. -/
theorem branch_above {heap' : ι → Option (Node ι κ)} (found : heap' id = some (.branch keys children))
    (count : children.length = keys.length + 1) (trees : ∀ child ∈ children, Tree heap height child)
    (same : ∀ other ∈ children.flatMap (ids heap height), heap' other = heap other) :
    Tree heap' (height + 1) id ∧
      inorder heap' (height + 1) id = interleave (children.map (inorder heap height)) keys ∧
      ids heap' (height + 1) id = id :: children.flatMap (ids heap height) := by
  obtain ⟨kept, nodes, orders⟩ := forest_frame trees same
  exact ⟨(tree_branch found).mpr ⟨count, kept⟩, by rw [inorder_branch found, orders], by rw [ids_branch found, nodes]⟩

/-- Two branches written above the halves of a row of trees that stay. -/
theorem branches_above {heap' : ι → Option (Node ι κ)} {first second : ι} {index : Nat} {key : κ}
    (cut : keys[index]? = some key) (count : children.length = keys.length + 1)
    (firstFound : heap' first = some (.branch (keys.take index) (children.take (index + 1))))
    (secondFound : heap' second = some (.branch (keys.drop (index + 1)) (children.drop (index + 1))))
    (trees : ∀ child ∈ children, Tree heap height child)
    (same : ∀ other ∈ children.flatMap (ids heap height), heap' other = heap other) :
    Tree heap' (height + 1) first ∧ Tree heap' (height + 1) second ∧
      inorder heap' (height + 1) first ++ key :: inorder heap' (height + 1) second =
        interleave (children.map (inorder heap height)) keys ∧
      (ids heap' (height + 1) first ++ ids heap' (height + 1) second).Perm
        (first :: second :: children.flatMap (ids heap height)) := by
  have inside := (List.getElem?_eq_some_iff.mp cut).1
  obtain ⟨firstTree, firstOrder, firstIds⟩ := branch_above firstFound
    (by simp only [List.length_take]; omega) (fun child member => trees child (List.mem_of_mem_take member))
    fun other member => by
      obtain ⟨child, taken, deep⟩ := List.mem_flatMap.mp member
      exact same other (List.mem_flatMap.mpr ⟨child, List.mem_of_mem_take taken, deep⟩)
  obtain ⟨secondTree, secondOrder, secondIds⟩ := branch_above secondFound
    (by simp only [List.length_drop]; omega) (fun child member => trees child (List.mem_of_mem_drop member))
    fun other member => by
      obtain ⟨child, dropped, deep⟩ := List.mem_flatMap.mp member
      exact same other (List.mem_flatMap.mpr ⟨child, List.mem_of_mem_drop dropped, deep⟩)
  refine ⟨firstTree, secondTree, ?_, ?_⟩
  · rw [firstOrder, secondOrder, interleave_cut (by simpa using count) cut, List.map_take, List.map_drop]
  · rw [firstIds, secondIds, List.cons_append]
    refine List.Perm.cons _ (List.perm_middle.trans (List.Perm.cons _ ?_))
    rw [← List.flatMap_append, List.take_append_drop]

/-- A node is the root of trees of one height only. -/
theorem Tree.height_unique {other : Nat} (tree : Tree heap height id) (same : Tree heap other id) : height = other := by
  induction height generalizing other id with
  | zero =>
    obtain ⟨keys, found⟩ := tree
    cases other with
    | zero => rfl
    | succ other =>
      obtain ⟨keys, children, branch, -⟩ := same
      cases found.symm.trans branch
  | succ height ih =>
    obtain ⟨keys, children, found, count, below⟩ := tree
    cases other with
    | zero =>
      obtain ⟨keys, leaf⟩ := same
      cases found.symm.trans leaf
    | succ other =>
      obtain ⟨-, trees⟩ := (tree_branch found).mp same
      cases children with
      | nil => simp at count
      | cons child rest => rw [ih (below child List.mem_cons_self) (trees child List.mem_cons_self)]

theorem Tree.spine (tree : Tree heap height id) :
    ∃ nodes : List ι, nodes.length = height ∧ nodes.Nodup ∧
      ∀ node ∈ nodes, (∃ inner ≤ height, Tree heap inner node) ∧
        ∃ keys children, heap node = some (.branch keys children) := by
  induction height generalizing id with
  | zero => exact ⟨[], rfl, List.nodup_nil, by simp⟩
  | succ height ih =>
    have whole := tree
    obtain ⟨keys, children, found, count, below⟩ := tree
    cases children with
    | nil => simp at count
    | cons child rest =>
      obtain ⟨nodes, length, distinct, branches⟩ := ih (below child List.mem_cons_self)
      have above : id ∉ nodes := fun member => by
        obtain ⟨⟨inner, low, same⟩, -⟩ := branches id member
        have := whole.height_unique same
        omega
      refine ⟨id :: nodes, by simp [length], List.nodup_cons.mpr ⟨above, distinct⟩, fun node member => ?_⟩
      rcases List.mem_cons.mp member with rfl | member
      · exact ⟨⟨_, Nat.le_refl _, whole⟩, keys, _, found⟩
      · obtain ⟨⟨inner, low, stands⟩, branch⟩ := branches node member
        exact ⟨⟨inner, Nat.le_succ_of_le low, stands⟩, branch⟩

end Reading

def leafKeys (heap : ι → Option (Node ι κ)) : Nat → ι → List κ
  | 0, id => inorder heap 0 id
  | height + 1, id => match heap id with
    | some (.branch _ children) => children.flatMap (leafKeys heap height)
    | _ => []

def separators (heap : ι → Option (Node ι κ)) : Nat → ι → List κ
  | 0, _ => []
  | height + 1, id => match heap id with
    | some (.branch keys children) => keys ++ children.flatMap (separators heap height)
    | _ => []

section Parts

variable {heap : ι → Option (Node ι κ)} {height : Nat} {id : ι} {keys : List κ} {children : List ι}

theorem leafKeys_branch (found : heap id = some (.branch keys children)) :
    leafKeys heap (height + 1) id = children.flatMap (leafKeys heap height) := by
  simp [leafKeys, found]

theorem separators_branch (found : heap id = some (.branch keys children)) :
    separators heap (height + 1) id = keys ++ children.flatMap (separators heap height) := by
  simp [separators, found]

theorem interleave_perm {parts : List (List κ)} {keys : List κ} (count : parts.length = keys.length + 1) :
    (interleave parts keys).Perm (parts.flatten ++ keys) := by
  induction keys generalizing parts with
  | nil =>
    obtain ⟨part, rfl⟩ := List.length_eq_one_iff.mp count
    simp
  | cons key keys ih =>
    cases parts with
    | nil => cases count
    | cons part parts =>
      rw [interleave, List.flatten_cons, List.append_assoc]
      exact ((ih (by simpa using count)).cons key |>.trans List.perm_middle.symm).append_left part

/-- Every key stands in a leaf or in a branch. -/
theorem Tree.parts (tree : Tree heap height id) :
    (inorder heap height id).Perm (leafKeys heap height id ++ separators heap height id) := by
  induction height generalizing id with
  | zero => simp [leafKeys, separators]
  | succ height ih =>
    obtain ⟨keys, children, found, count, below⟩ := tree
    rw [inorder_branch found, leafKeys_branch found, separators_branch found]
    refine (interleave_perm (by simpa using count)).trans ?_
    have each : (children.flatMap (inorder heap height)).Perm
        (children.flatMap (leafKeys heap height) ++ children.flatMap (separators heap height)) := by
      clear found count
      induction children with
      | nil => simp
      | cons child rest inner =>
        simp only [List.flatMap_cons]
        refine ((ih (below child List.mem_cons_self)).append
          (inner fun other member => below other (List.mem_cons_of_mem _ member))).trans ?_
        rw [List.append_assoc, List.append_assoc]
        exact (List.perm_append_comm_assoc _ _ _).append_left _
    rw [List.flatMap_def] at each
    refine (each.append_right keys).trans ?_
    rw [List.append_assoc]
    exact List.perm_append_comm.append_left _

/-- A tree without separators has all its keys in one leaf. -/
theorem Tree.single (tree : Tree heap height id) (none : separators heap height id = []) :
    ∃ leaf keys, heap leaf = some (.leaf keys) ∧ inorder heap height id = keys := by
  induction height generalizing id with
  | zero =>
    obtain ⟨keys, found⟩ := tree
    exact ⟨id, keys, found, inorder_leaf found⟩
  | succ height ih =>
    obtain ⟨keys, children, found, count, below⟩ := tree
    rw [separators_branch found, List.append_eq_nil_iff] at none
    obtain ⟨rfl, none⟩ := none
    obtain ⟨child, rfl⟩ := List.length_eq_one_iff.mp count
    obtain ⟨leaf, keys, standing, order⟩ := ih (below child (by simp)) (by simpa using none)
    exact ⟨leaf, keys, standing, by rw [inorder_branch found, List.map_singleton, interleave_single, order]⟩

end Parts

/-- A subtree at the end of a path, with the keys before it, the keys after it and the
nodes around it. -/
inductive Within (heap : ι → Option (Node ι κ)) (top : Nat) (root : ι) :
    List (ι × Nat) → Nat → ι → List κ → List κ → List ι → Prop
  | whole : Within heap top root [] top root [] [] []
  | child {path : List (ι × Nat)} {height : Nat} {parent id : ι} {before after leftKeys rightKeys : List κ}
      {outside left right : List ι} (above : Within heap top root path (height + 1) parent before after outside)
      (found : heap parent = some (.branch (leftKeys ++ rightKeys) (left ++ id :: right)))
      (front : left.length = leftKeys.length) (behind : right.length = rightKeys.length)
      (siblings : ∀ other ∈ left ++ right, Tree heap height other) :
      Within heap top root ((parent, left.length) :: path) height id
        (before ++ fronts (left.map (inorder heap height)) leftKeys)
        (backs rightKeys (right.map (inorder heap height)) ++ after)
        (parent :: (left ++ right).flatMap (ids heap height) ++ outside)

section Places

variable {heap : ι → Option (Node ι κ)} {top height : Nat} {root id parent : ι} {path : List (ι × Nat)}
  {before after leftKeys rightKeys : List κ} {outside left right : List ι}

/-- A branch around a window on its children. -/
theorem branch_around {keys : List κ} {children : List ι}
    (found : heap parent = some (.branch (leftKeys ++ (keys ++ rightKeys)) (left ++ (children ++ right))))
    (front : left.length = leftKeys.length) (count : children.length = keys.length + 1)
    (behind : right.length = rightKeys.length) (siblings : ∀ other ∈ left ++ right, Tree heap height other)
    (trees : ∀ child ∈ children, Tree heap height child) :
    Tree heap (height + 1) parent ∧
      inorder heap (height + 1) parent = fronts (left.map (inorder heap height)) leftKeys ++
        interleave (children.map (inorder heap height)) keys ++ backs rightKeys (right.map (inorder heap height)) ∧
      (ids heap (height + 1) parent).Perm
        (children.flatMap (ids heap height) ++ parent :: (left ++ right).flatMap (ids heap height)) := by
  refine ⟨(tree_branch found).mpr ⟨?_, ?_⟩, ?_, ?_⟩
  · simp only [List.length_append, front, count, behind]
    omega
  · intro child member
    rcases List.mem_append.mp member with member | member
    · exact siblings child (List.mem_append_left _ member)
    · rcases List.mem_append.mp member with member | member
      · exact trees child member
      · exact siblings child (List.mem_append_right _ member)
  · rw [inorder_branch found, List.map_append, List.map_append]
    exact interleave_window (by simpa using front) (by simpa using count) (by simpa using behind)
  · rw [ids_branch found, List.flatMap_append, List.flatMap_append, List.flatMap_append]
    refine (List.Perm.cons _ ?_).trans List.perm_middle.symm
    rw [← List.append_assoc, ← List.append_assoc]
    exact List.perm_append_comm.append_right _

/-- The whole is the subtree with what lies around it. -/
theorem Within.plug (within : Within heap top root path height id before after outside)
    (tree : Tree heap height id) :
    Tree heap top root ∧ inorder heap top root = before ++ inorder heap height id ++ after ∧
      (ids heap top root).Perm (ids heap height id ++ outside) := by
  induction within with
  | whole => exact ⟨tree, by simp, by simp⟩
  | child above found front behind siblings ih =>
    obtain ⟨branch, keys, nodes⟩ :=
      @branch_around _ _ _ _ _ _ _ _ _ [] [_] found front rfl behind siblings (by simpa using tree)
    obtain ⟨whole, order, all⟩ := ih branch
    simp only [List.map_cons, List.map_nil, interleave_single, List.flatMap_singleton] at keys nodes
    refine ⟨whole, ?_, all.trans ?_⟩
    · simp only [order, keys, List.append_assoc]
    · rw [List.cons_append, ← List.cons_append, ← List.append_assoc]
      exact nodes.append_right _

theorem Within.stands (within : Within heap top root path height id before after outside) (tree : Tree heap height id) :
    ∀ other ∈ outside, (heap other).isSome := by
  obtain ⟨whole, -, nodes⟩ := within.plug tree
  exact fun other member => whole.stands other (nodes.mem_iff.mpr (List.mem_append_right _ member))

theorem Within.leafKeys_subset (within : Within heap top root path height id before after outside) :
    leafKeys heap height id ⊆ leafKeys heap top root := by
  induction within with
  | whole => exact List.Subset.refl _
  | child above found front behind siblings ih =>
    refine List.Subset.trans (fun key member => ?_) ih
    rw [leafKeys_branch found]
    exact List.mem_flatMap.mpr ⟨_, by simp, member⟩

/-- A place stays where it is when the nodes around it stay. -/
theorem Within.frame {heap' : ι → Option (Node ι κ)}
    (within : Within heap top root path height id before after outside)
    (same : ∀ other ∈ outside, heap' other = heap other) :
    Within heap' top root path height id before after outside := by
  induction within with
  | whole => exact .whole
  | @child path height parent id before after leftKeys rightKeys outside left right above found front behind siblings ih =>
    obtain ⟨trees, nodes, orders⟩ := forest_frame siblings fun other member =>
      same other (List.mem_append_left _ (List.mem_cons_of_mem _ member))
    rw [List.map_append, List.map_append] at orders
    obtain ⟨lefts, rights⟩ := List.append_inj orders (by simp)
    have found' := (same parent (List.mem_append_left _ List.mem_cons_self)).trans found
    have place := Within.child (ih fun other member => same other (List.mem_append_right _ member)) found' front behind
      trees
    rw [lefts, rights, nodes] at place
    exact place

/-- The branch right above a place. -/
theorem Within.up {index : Nat}
    (within : Within heap top root ((parent, index) :: path) height id before after outside) :
    ∃ before' after' leftKeys rightKeys outside' left right,
      Within heap top root path (height + 1) parent before' after' outside' ∧
      heap parent = some (.branch (leftKeys ++ rightKeys) (left ++ id :: right)) ∧
      left.length = leftKeys.length ∧ right.length = rightKeys.length ∧ left.length = index ∧
      (∀ other ∈ left ++ right, Tree heap height other) ∧
      before = before' ++ fronts (left.map (inorder heap height)) leftKeys ∧
      after = backs rightKeys (right.map (inorder heap height)) ++ after' ∧
      outside = parent :: (left ++ right).flatMap (ids heap height) ++ outside' := by
  cases within with
  | child above found front behind siblings =>
    exact ⟨_, _, _, _, _, _, _, above, found, front, behind, rfl, siblings, rfl, rfl, rfl⟩

/-- A branch that gets other children in a window, at its place. -/
theorem Within.rewrite {heap' : ι → Option (Node ι κ)} {keys : List κ} {children : List ι}
    (above : Within heap top root path (height + 1) parent before after outside)
    (front : left.length = leftKeys.length) (behind : right.length = rightKeys.length)
    (siblings : ∀ other ∈ left ++ right, Tree heap height other)
    (found : heap' parent = some (.branch (leftKeys ++ (keys ++ rightKeys)) (left ++ (children ++ right))))
    (count : children.length = keys.length + 1) (trees : ∀ child ∈ children, Tree heap' height child)
    (same : ∀ other ∈ (left ++ right).flatMap (ids heap height) ++ outside, heap' other = heap other) :
    Within heap' top root path (height + 1) parent before after outside ∧ Tree heap' (height + 1) parent ∧
      inorder heap' (height + 1) parent = fronts (left.map (inorder heap height)) leftKeys ++
        interleave (children.map (inorder heap' height)) keys ++ backs rightKeys (right.map (inorder heap height)) ∧
      (ids heap' (height + 1) parent).Perm
        (children.flatMap (ids heap' height) ++ parent :: (left ++ right).flatMap (ids heap height)) := by
  obtain ⟨kept, nodes, orders⟩ := forest_frame siblings fun other member => same other (List.mem_append_left _ member)
  rw [List.map_append, List.map_append] at orders
  obtain ⟨lefts, rights⟩ := List.append_inj orders (by simp)
  obtain ⟨branch, order, around⟩ := branch_around found front count behind kept trees
  rw [lefts, rights] at order
  rw [nodes] at around
  exact ⟨above.frame fun other member => same other (List.mem_append_right _ member), branch, order, around⟩

/-- A branch that gets other children in a window fits into what lies around it. -/
theorem Within.refill {heap' : ι → Option (Node ι κ)} {keys : List κ} {children : List ι}
    (above : Within heap top root path (height + 1) parent before after outside)
    (front : left.length = leftKeys.length) (behind : right.length = rightKeys.length)
    (siblings : ∀ other ∈ left ++ right, Tree heap height other)
    (found : heap' parent = some (.branch (leftKeys ++ (keys ++ rightKeys)) (left ++ (children ++ right))))
    (count : children.length = keys.length + 1) (trees : ∀ child ∈ children, Tree heap' height child)
    (same : ∀ other ∈ (left ++ right).flatMap (ids heap height) ++ outside, heap' other = heap other) :
    Tree heap' top root ∧
      inorder heap' top root = before ++ fronts (left.map (inorder heap height)) leftKeys ++
        interleave (children.map (inorder heap' height)) keys ++
        (backs rightKeys (right.map (inorder heap height)) ++ after) ∧
      (ids heap' top root).Perm (children.flatMap (ids heap' height) ++
        (parent :: (left ++ right).flatMap (ids heap height) ++ outside)) := by
  obtain ⟨place, branch, order, around⟩ := above.rewrite front behind siblings found count trees same
  obtain ⟨whole, all, places⟩ := place.plug branch
  refine ⟨whole, ?_, places.trans ?_⟩
  · rw [all, order]
    simp only [List.append_assoc]
  · rw [← List.append_assoc]
    exact around.append_right _

end Places

/-- Two neighbours below a branch at the end of a path, with the key between them. -/
structure Pair (heap : ι → Option (Node ι κ)) (top : Nat) (root : ι) (path : List (ι × Nat)) (height : Nat) (parent : ι)
    (index : Nat) (first second : ι) (separator : κ) (leftKeys rightKeys before after : List κ)
    (left right outside : List ι) : Prop where
  above : Within heap top root path (height + 1) parent before after outside
  found : heap parent = some (.branch (leftKeys ++ ([separator] ++ rightKeys)) (left ++ ([first, second] ++ right)))
  front : left.length = leftKeys.length
  behind : right.length = rightKeys.length
  index : left.length = index
  siblings : ∀ other ∈ left ++ right, Tree heap height other
  first : Tree heap height first
  second : Tree heap height second

section Neighbours

variable {heap heap' : ι → Option (Node ι κ)} {top height index : Nat} {root parent id first second : ι}
  {path : List (ι × Nat)} {separator : κ} {leftKeys rightKeys before after : List κ} {left right outside : List ι}

/-- The branch above a subtree, with the subtree at its place. -/
theorem Within.branch (within : Within heap top root ((parent, index) :: path) height id before after outside)
    (tree : Tree heap height id) :
    ∃ keys children before after outside, Within heap top root path (height + 1) parent before after outside ∧
      heap parent = some (.branch keys children) ∧ Tree heap (height + 1) parent ∧ children[index]? = some id := by
  obtain ⟨before, after, leftKeys, rightKeys, outside, left, right, above, found, front, behind, rfl, siblings, -⟩ := within.up
  refine ⟨_, _, before, after, outside, above, found,
    (tree_branch found).mpr ⟨by simp [front, behind, Nat.add_assoc], fun child member => ?_⟩, by simp⟩
  rcases List.mem_append.mp member with member | member
  · exact siblings child (List.mem_append_left _ member)
  · rcases List.mem_cons.mp member with rfl | member
    · exact tree
    · exact siblings child (List.mem_append_right _ member)

/-- The two children around a key of a branch. -/
theorem Within.pair (above : Within heap top root path (height + 1) parent before after outside)
    (tree : Tree heap (height + 1) parent) {keys : List κ} {children : List ι} (found : heap parent = some (.branch keys children))
    (between : keys[index]? = some separator) :
    ∃ first second leftKeys rightKeys left right, Pair heap top root path height parent index first second separator leftKeys
      rightKeys before after left right outside ∧ children[index]? = some first ∧ children[index + 1]? = some second := by
  obtain ⟨count, trees⟩ := (tree_branch found).mp tree
  obtain ⟨leftKeys, rightKeys, rfl, rfl⟩ := split_at between
  simp only [List.length_append, List.length_cons] at count
  obtain ⟨left, rest, rfl, front⟩ : ∃ left rest, children = left ++ rest ∧ left.length = leftKeys.length :=
    ⟨children.take leftKeys.length, children.drop leftKeys.length, (List.take_append_drop _ _).symm,
      List.length_take_of_le (by omega)⟩
  obtain ⟨first, _, rfl⟩ := List.exists_cons_of_length_pos (show 0 < rest.length by simp at count; omega)
  rename_i rest
  obtain ⟨second, right, rfl⟩ := List.exists_cons_of_length_pos (show 0 < rest.length by simp at count; omega)
  refine ⟨first, second, leftKeys, rightKeys, left, right, ⟨above, found, front, by simp at count; omega, front, ?_,
    trees first (by simp), trees second (by simp)⟩, by simp [← front], by rw [← front]; simp⟩
  intro other member
  exact trees other (by rcases List.mem_append.mp member with member | member <;> simp [member])

variable (pair : Pair heap top root path height parent index first second separator leftKeys rightKeys before after left
  right outside)
include pair

/-- The whole around two neighbours. -/
theorem Pair.plug :
    inorder heap top root = before ++ fronts (left.map (inorder heap height)) leftKeys ++
        (inorder heap height first ++ separator :: inorder heap height second) ++
        (backs rightKeys (right.map (inorder heap height)) ++ after) ∧
      (ids heap top root).Perm (ids heap height first ++ ids heap height second ++
        (parent :: (left ++ right).flatMap (ids heap height) ++ outside)) := by
  obtain ⟨-, order, nodes⟩ := pair.above.refill pair.front pair.behind pair.siblings pair.found rfl
    (by simpa using ⟨pair.first, pair.second⟩) fun _ _ => rfl
  exact ⟨by simpa using order, by simpa using nodes⟩

/-- What lies around two neighbours is none of the three nodes. -/
theorem Pair.apart (distinct : (ids heap top root).Nodup)
    (off : ∀ other, other ≠ parent → other ≠ first → other ≠ second → heap' other = heap other) :
    ∀ other ∈ (left ++ right).flatMap (ids heap height) ++ outside, heap' other = heap other := by
  have nodup := pair.plug.2.nodup_iff.mp distinct
  rw [List.cons_append, List.nodup_append] at nodup
  obtain ⟨-, rest, across⟩ := nodup
  intro other member
  refine off other ?_ ?_ ?_
  · exact ne_of_mem_of_not_mem member (List.nodup_cons.mp rest).1
  · exact (across first (List.mem_append_left _ (mem_ids _ _ _)) other (List.mem_cons_of_mem _ member)).symm
  · exact (across second (List.mem_append_right _ (mem_ids _ _ _)) other (List.mem_cons_of_mem _ member)).symm

/-- The three nodes of two neighbours are different, and apart from the nodes below. -/
theorem Pair.distinct (distinct : (ids heap top root).Nodup) :
    parent ∉ ids heap height first ++ ids heap height second ∧
      (ids heap height first ++ ids heap height second).Nodup := by
  have nodup := pair.plug.2.nodup_iff.mp distinct
  rw [List.nodup_append] at nodup
  exact ⟨fun member => nodup.2.2 parent member parent (by simp) rfl, nodup.1⟩

/-- Keys and nodes moved between two neighbours leave the whole as it was. -/
theorem Pair.rotate {separator' : κ} (distinct : (ids heap top root).Nodup)
    (off : ∀ other, other ≠ parent → other ≠ first → other ≠ second → heap' other = heap other)
    (found : heap' parent = some (.branch (leftKeys ++ ([separator'] ++ rightKeys)) (left ++ ([first, second] ++ right))))
    (firstTree : Tree heap' height first) (secondTree : Tree heap' height second)
    (order : inorder heap' height first ++ separator' :: inorder heap' height second =
      inorder heap height first ++ separator :: inorder heap height second)
    (nodes : (ids heap' height first ++ ids heap' height second).Perm
      (ids heap height first ++ ids heap height second)) :
    Tree heap' top root ∧ inorder heap' top root = inorder heap top root ∧
      (ids heap' top root).Perm (ids heap top root) := by
  obtain ⟨whole, order', nodes'⟩ := pair.above.refill pair.front pair.behind pair.siblings found rfl
    (by simpa using ⟨firstTree, secondTree⟩) (pair.apart distinct off)
  refine ⟨whole, ?_, nodes'.trans (List.Perm.trans ?_ pair.plug.2.symm)⟩
  · rw [order', pair.plug.1]
    simp [order]
  · simpa using nodes.append_right _

end Neighbours

section Rotations

variable {heap heap' : ι → Option (Node ι κ)} {top height index : Nat} {root parent id first second : ι}
  {path : List (ι × Nat)} {separator separator' : κ} {leftKeys rightKeys before after : List κ} {left right outside : List ι}
  {firstKeys secondKeys firstKeys' secondKeys' : List κ} {firstChildren secondChildren firstChildren' secondChildren' : List ι}

theorem Pair.different (pair : Pair heap top root path height parent index first second separator leftKeys rightKeys before after
    left right outside) (distinct : (ids heap top root).Nodup) : parent ≠ first ∧ parent ≠ second ∧ first ≠ second := by
  obtain ⟨apart, nodup⟩ := pair.distinct distinct
  refine ⟨?_, ?_, ?_⟩
  · rintro rfl
    exact apart (List.mem_append_left _ (mem_ids _ _ _))
  · rintro rfl
    exact apart (List.mem_append_right _ (mem_ids _ _ _))
  · rintro rfl
    exact (List.nodup_append.mp nodup).2.2 _ (mem_ids _ _ _) _ (mem_ids _ _ _) rfl

theorem Pair.rotate_leaves (pair : Pair heap top root path 0 parent index first second separator leftKeys rightKeys
      before after left right outside) (distinct : (ids heap top root).Nodup)
    (off : ∀ other, other ≠ parent → other ≠ first → other ≠ second → heap' other = heap other)
    (found : heap' parent = some (.branch (leftKeys ++ ([separator'] ++ rightKeys)) (left ++ ([first, second] ++ right))))
    (firstFound : heap first = some (.leaf firstKeys)) (secondFound : heap second = some (.leaf secondKeys))
    (firstFound' : heap' first = some (.leaf firstKeys')) (secondFound' : heap' second = some (.leaf secondKeys'))
    (same : firstKeys' ++ separator' :: secondKeys' = firstKeys ++ separator :: secondKeys) :
    Tree heap' top root ∧ inorder heap' top root = inorder heap top root ∧
      (ids heap' top root).Perm (ids heap top root) := by
  refine pair.rotate distinct off found (tree_leaf firstFound') (tree_leaf secondFound') ?_ (List.Perm.refl _)
  rw [inorder_leaf firstFound, inorder_leaf secondFound, inorder_leaf firstFound', inorder_leaf secondFound', same]

/-- Two branches beside each other have passed keys and children through their parent. -/
structure Turned (heap heap' : ι → Option (Node ι κ)) (parent first second : ι) (leftKeys rightKeys : List κ) (left right : List ι)
    (separator separator' : κ) (firstKeys secondKeys firstKeys' secondKeys' : List κ)
    (firstChildren secondChildren firstChildren' secondChildren' : List ι) : Prop where
  off : ∀ other, other ≠ parent → other ≠ first → other ≠ second → heap' other = heap other
  found : heap' parent = some (.branch (leftKeys ++ ([separator'] ++ rightKeys)) (left ++ ([first, second] ++ right)))
  firstBefore : heap first = some (.branch firstKeys firstChildren)
  secondBefore : heap second = some (.branch secondKeys secondChildren)
  firstAfter : heap' first = some (.branch firstKeys' firstChildren')
  secondAfter : heap' second = some (.branch secondKeys' secondChildren')
  firstCount : firstChildren'.length = firstKeys'.length + 1
  secondCount : secondChildren'.length = secondKeys'.length + 1
  same : firstKeys' ++ separator' :: secondKeys' = firstKeys ++ separator :: secondKeys
  row : firstChildren' ++ secondChildren' = firstChildren ++ secondChildren

theorem Pair.rotate_branches (pair : Pair heap top root path (height + 1) parent index first second separator leftKeys
      rightKeys before after left right outside) (distinct : (ids heap top root).Nodup)
    (turned : Turned heap heap' parent first second leftKeys rightKeys left right separator separator' firstKeys secondKeys
      firstKeys' secondKeys' firstChildren secondChildren firstChildren' secondChildren') :
    Tree heap' top root ∧ inorder heap' top root = inorder heap top root ∧
      (ids heap' top root).Perm (ids heap top root) := by
  obtain ⟨off, found, firstFound, secondFound, firstFound', secondFound', firstCount, secondCount, same, row⟩ := turned
  obtain ⟨firstCount₀, firstTrees⟩ := (tree_branch firstFound).mp pair.first
  obtain ⟨-, secondTrees⟩ := (tree_branch secondFound).mp pair.second
  have trees : ∀ child ∈ firstChildren' ++ secondChildren', Tree heap height child := by
    rw [row]
    exact fun child member => (List.mem_append.mp member).elim (firstTrees child) (secondTrees child)
  obtain ⟨parentApart, nodup⟩ := pair.distinct distinct
  rw [ids_branch firstFound, ids_branch secondFound] at parentApart nodup
  have below : ∀ other ∈ (firstChildren' ++ secondChildren').flatMap (ids heap height), heap' other = heap other := by
    have nodup' := ((List.Perm.cons first List.perm_middle).nodup_iff).mp nodup
    rw [← List.flatMap_append, ← row] at nodup'
    intro other member
    refine off other ?_ ?_ ?_
    · rintro rfl
      rw [row, List.flatMap_append] at member
      exact parentApart ((List.mem_append.mp member).elim (fun deep => List.mem_append_left _ (List.mem_cons_of_mem _ deep))
        fun deep => List.mem_append_right _ (List.mem_cons_of_mem _ deep))
    · rintro rfl
      exact (List.nodup_cons.mp nodup').1 (List.mem_cons_of_mem _ member)
    · rintro rfl
      exact (List.nodup_cons.mp (List.nodup_cons.mp nodup').2).1 member
  obtain ⟨firstTree, firstOrder, firstIds⟩ := branch_above firstFound' firstCount
    (fun child member => trees child (List.mem_append_left _ member))
    fun other member => below other (by rw [List.flatMap_append]; exact List.mem_append_left _ member)
  obtain ⟨secondTree, secondOrder, secondIds⟩ := branch_above secondFound' secondCount
    (fun child member => trees child (List.mem_append_right _ member))
    fun other member => below other (by rw [List.flatMap_append]; exact List.mem_append_right _ member)
  refine pair.rotate distinct off found firstTree secondTree ?_ ?_
  · rw [firstOrder, secondOrder, inorder_branch firstFound, inorder_branch secondFound,
      ← interleave_key _ (by simpa using firstCount), ← interleave_key _ (by simpa using firstCount₀), ← List.map_append,
      ← List.map_append, row, same]
  · rw [firstIds, secondIds, ids_branch firstFound, ids_branch secondFound]
    refine (List.Perm.cons first (List.perm_middle.trans (List.Perm.cons second ?_))).trans
      (List.Perm.cons first List.perm_middle.symm)
    rw [← List.flatMap_append, row, List.flatMap_append]

end Rotations
section Relabel

variable {ι κ μ : Type} {heap heap' : ι → Option (Node ι κ)} {items : ι → List κ → List μ} {label : κ → μ} {height : Nat} {id : ι}
  {keys : List κ} {children : List ι}

/-- Other items in the leaves and other names for the keys of the branches. -/
def relabel (items : ι → List κ → List μ) (label : κ → μ) (heap : ι → Option (Node ι κ)) (id : ι) : Option (Node ι μ) :=
  (heap id).map fun
    | .leaf keys => .leaf (items id keys)
    | .branch keys children => .branch (keys.map label) children

theorem relabel_leaf (found : heap id = some (.leaf keys)) : relabel items label heap id = some (.leaf (items id keys)) := by
  rw [relabel, found]
  rfl

theorem relabel_branch (found : heap id = some (.branch keys children)) :
    relabel items label heap id = some (.branch (keys.map label) children) := by
  rw [relabel, found]
  rfl

theorem of_relabel_branch {labels : List μ} (found : relabel items label heap id = some (.branch labels children)) :
    ∃ keys, heap id = some (.branch keys children) ∧ labels = keys.map label := by
  obtain ⟨node, here, marked⟩ := Option.map_eq_some_iff.mp found
  cases node with
  | leaf _ => cases marked
  | branch keys others =>
    cases marked
    exact ⟨keys, here, rfl⟩

theorem relabel_none (free : heap id = none) : relabel items label heap id = none := by rw [relabel, free]; rfl

theorem relabel_congr (same : heap' id = heap id) : relabel items label heap' id = relabel items label heap id := by
  rw [relabel, relabel, same]

theorem relabel_id (heap : ι → Option (Node ι κ)) : relabel (fun _ keys => keys) (fun key => key) heap = heap := by
  funext id
  rw [relabel]
  rcases heap id with _ | ⟨keys⟩ | ⟨keys, children⟩ <;> simp

theorem tree_relabel : Tree (relabel items label heap) height id ↔ Tree heap height id := by
  induction height generalizing id with
  | zero =>
    rw [Tree, Tree, relabel]
    rcases heap id with _ | ⟨keys⟩ | ⟨keys, children⟩ <;> simp
  | succ height ih =>
    constructor
    · rintro ⟨labels, children, marked, count, below⟩
      obtain ⟨keys, found, rfl⟩ := of_relabel_branch marked
      exact ⟨keys, children, found, by simpa using count, fun child member => ih.mp (below child member)⟩
    · rintro ⟨keys, children, found, count, below⟩
      exact ⟨_, children, relabel_branch found, by simpa using count, fun child member => ih.mpr (below child member)⟩

theorem ids_relabel (items : ι → List κ → List μ) (label : κ → μ) (heap : ι → Option (Node ι κ)) (height : Nat) (id : ι) :
    ids (relabel items label heap) height id = ids heap height id := by
  induction height generalizing id with
  | zero => rfl
  | succ height ih =>
    simp only [ids, relabel]
    rcases heap id with _ | ⟨keys⟩ | ⟨keys, children⟩
    · rfl
    · rfl
    · simp only [Option.map_some, funext ih]

theorem Within.relabel (items : ι → List κ → List μ) (label : κ → μ) {top : Nat} {root : ι} {path : List (ι × Nat)}
    {before after : List κ} {outside : List ι} (within : Within heap top root path height id before after outside) :
    ∃ before after, Within (relabel items label heap) top root path height id before after outside := by
  induction within with
  | whole => exact ⟨[], [], .whole⟩
  | @child _ height _ _ _ _ _ _ _ _ _ _ found front behind siblings ih =>
    obtain ⟨before, after, place⟩ := ih
    have marked := @relabel_branch _ _ _ heap items label _ _ _ found
    rw [List.map_append] at marked
    have below := place.child marked (by simpa using front) (by simpa using behind)
      fun other member => tree_relabel.mpr (siblings other member)
    rw [show ids (HeapTree.relabel items label heap) height = ids heap height from funext (ids_relabel items label heap height)] at below
    exact ⟨_, _, below⟩

theorem map_interleave (label : κ → μ) (parts : List (List κ)) (keys : List κ) :
    (interleave parts keys).map label = interleave (parts.map (List.map label)) (keys.map label) := by
  induction parts generalizing keys with
  | nil => cases keys <;> rfl
  | cons part parts ih =>
    cases keys with
    | nil => exact List.map_flatten
    | cons key keys => simp only [interleave, List.map_append, List.map_cons, ih]

/-- Names that can be taken back give the keys again. -/
theorem map_inorder_relabel {back : μ → κ} (leaf : ∀ id keys, (items id keys).map back = keys) (branch : ∀ key, back (label key) = key) :
    (inorder (relabel items label heap) height id).map back = inorder heap height id := by
  induction height generalizing id with
  | zero =>
    rw [inorder, inorder, relabel]
    rcases heap id with _ | ⟨keys⟩ | ⟨keys, children⟩
    · rfl
    · exact leaf id keys
    · rfl
  | succ height ih =>
    rw [inorder, inorder, relabel]
    rcases heap id with _ | ⟨keys⟩ | ⟨keys, children⟩
    · rfl
    · rfl
    · simp only [Option.map_some, map_interleave, List.map_map, Function.comp_def, branch, List.map_id', ih]

end Relabel

end HeapTree
