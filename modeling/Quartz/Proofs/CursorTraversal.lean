import Mathlib.Algebra.BigOperators.Group.List.Basic
import Quartz.Btree.Cursor
import Quartz.Proofs.ValidatedSearch

/-! Walking a tree with a cursor. A step across the edge of a leaf is right as long as the leaf
is a child of the root; below that the root is searched in vain and its first child is taken for
the one above the leaf. -/

namespace Quartz.Btree
open Storage Format BTree Fallible

variable {ω : Type}

namespace BTree

/-- The pages below a page, each in front of what is below it. -/
def pagesBelow (tree : BTree ω) : Nat → PageId → List PageId
  | 0, _ => []
  | fuel + 1, id =>
    if id ∈ tree.leaves then [id]
    else
      match tree.internals.lookup id with
      | none => [id]
      | some node => id :: node.children.flatMap fun child => pagesBelow tree fuel child.pageId

def pages (tree : BTree ω) : List PageId := tree.pagesBelow (tree.internals.keys.length + 1) tree.rootId

def leafOrder (tree : BTree ω) : List PageId := tree.pages.filter (· ∈ tree.leaves)

def leafEntries (tree : BTree ω) (id : PageId) : List (Key × PageReference) :=
  match tree.leaves.lookup id with
  | none => []
  | some leaf => leaf.keys.zip leaf.refs

def entries (tree : BTree ω) : List (Key × PageReference) := tree.leafOrder.flatMap tree.leafEntries

/-- A tree to walk through: it is accepted, no leaf is empty and no page occurs twice. -/
structure Walkable (tree : BTree ω) : Prop where
  live : tree.empty = false
  accepted : TreeValidator.validate tree = .ok ()
  filled : ∀ id ∈ tree.leafOrder, ∀ leaf, tree.leaves.lookup id = some leaf → leaf.keys ≠ []
  apart : ∀ id ∈ tree.leaves, id ∉ tree.internals
  once : tree.pages.Nodup

/-- One leaf, or nothing but leaves below the root. -/
def Shallow (tree : BTree ω) : Prop :=
  tree.leafOrder.length = 1 ∨
    ∀ node, tree.internals.lookup tree.rootId = some node → ∀ child ∈ node.children, child.pageId ∈ tree.leaves

/-- The leaves of a tree of some height from left to right. -/
def leafRow (tree : BTree ω) : Nat → PageId → List PageId
  | 0, id => [id]
  | height + 1, id =>
    match tree.internals.lookup id with
    | none => []
    | some node => node.children.flatMap fun child => leafRow tree height child.pageId

end BTree

namespace Cursor

def current (cursor : Cursor ω) : Option (Key × PageReference) :=
  match cursor.valid, cursor.currentKey, cursor.currentReference with
  | true, .ok key, .ok value => some (key, value)
  | _, _, _ => none

/-- One call of `next` after another visits these entries and then the end. -/
def Advances : Cursor ω → List (Key × PageReference) → Prop
  | cursor, [] => cursor.isEnd = true
  | cursor, entry :: rest => cursor.isEnd = false ∧ cursor.current = some entry ∧ Advances (next.run cursor).2 rest

instance Advances.decidable : (cursor : Cursor ω) → (entries : List (Key × PageReference)) → Decidable (Advances cursor entries)
  | _, [] => inferInstanceAs (Decidable (_ = true))
  | cursor, _ :: rest =>
    have := Advances.decidable (next.run cursor).2 rest
    inferInstanceAs (Decidable (_ ∧ _ ∧ _))

/-- One call of `previous` after another visits these entries and then fails. -/
def Retreats : Cursor ω → List (Key × PageReference) → Prop
  | cursor, [] => ∃ status, (previous.run cursor).1 = .error (.status status)
  | cursor, entry :: rest => (previous.run cursor).1 = .ok () ∧ (previous.run cursor).2.current = some entry ∧
      Retreats (previous.run cursor).2 rest

def standing (tree : BTree ω) (id : PageId) (index : Nat) : Cursor ω :=
  { mode := .tree tree, leafId := id, index := index, atEnd := false }

variable {tree : BTree ω} {id : PageId} {leaf : LeafNode} {index : Nat}

theorem current_standing (found : tree.leaves.lookup id = some leaf) (count : leaf.keyCount = leaf.keys.length)
    (refs : leaf.refs.length = leaf.keys.length) (inside : index < leaf.keys.length) :
    (standing tree id index).current = (leaf.keys.zip leaf.refs)[index]? := by
  have valid : (standing tree id index).valid = true := by simp [valid, standing, found, count, inside]
  have key : (standing tree id index).currentKey = .ok (leaf.keys[index]) := by
    simp [currentKey, standing, found, inside]
  have value : (standing tree id index).currentReference = .ok (leaf.refs[index]) := by
    simp [currentReference, standing, found, refs, inside]
  rw [current, valid, key, value, List.getElem?_eq_getElem (by simp [refs, inside]), List.getElem_zip]

theorem next_inside (found : tree.leaves.lookup id = some leaf) (inside : index + 1 < leaf.keyCount) :
    next.run (standing tree id index) = (.ok (), standing tree id (index + 1)) := by
  simp [next, run_bind, standing, found, inside]

section Edges

variable (live : tree.empty = false) {path : List SearchPathEntry} (placed : tree.pathToLeaf id = .ok path)
include live placed

theorem next_across (found : tree.leaves.lookup id = some leaf) (last : ¬ index + 1 < leaf.keyCount) {other : PageId}
    (following : tree.leafAfter path = .ok (some other)) :
    next.run (standing tree id index) = (.ok (), standing tree other 0) := by
  simp [next, advanceToNextLeaf, run_bind, standing, found, last, live, placed, following, ofExcept]

theorem next_last (found : tree.leaves.lookup id = some leaf) (last : ¬ index + 1 < leaf.keyCount)
    (following : tree.leafAfter path = .ok none) : (next.run (standing tree id index)).2.isEnd = true := by
  simp [next, advanceToNextLeaf, run_bind, standing, found, last, live, placed, following, ofExcept, stop, refuse, isEnd]

theorem previous_across {other : PageId} (preceding : tree.leafBefore path = .ok (some other)) {before : LeafNode}
    (found : tree.leaves.lookup other = some before) :
    previous.run (standing tree id 0) = (.ok (), standing tree other (before.keyCount - 1)) := by
  simp [previous, retreatToPreviousLeaf, run_bind, standing, live, placed, preceding, ofExcept, standAtLast, found]

theorem previous_first (preceding : tree.leafBefore path = .ok none) :
    ∃ status, (previous.run (standing tree id 0)).1 = .error (.status status) := by
  simp [previous, retreatToPreviousLeaf, run_bind, standing, live, placed, preceding, ofExcept, refuse]

end Edges

theorem previous_inside : previous.run (standing tree id (index + 1)) = (.ok (), standing tree id index) := by
  simp [previous, run_bind, standing]

theorem previous_end (live : tree.empty = false) {last : PageId} (reached : tree.rightmost tree.rootId = .ok last)
    (found : tree.leaves.lookup last = some leaf) :
    previous.run tree.endCursor = (.ok (), standing tree last (leaf.keyCount - 1)) := by
  simp [previous, run_bind, standing, endCursor, bindTree, live, reached, ofExcept, standAtLast, found]

theorem begin_standing (live : tree.empty = false) {first : PageId} (reached : tree.leftmost tree.rootId = .ok first) :
    tree.beginCursor = standing tree first 0 := by
  simp [beginCursor, seekBegin, run_bind, standing, bindTree, live, reached, ofExcept]

section Leaf

variable (found : tree.leaves.lookup id = some leaf) (count : leaf.keyCount = leaf.keys.length)
  (refs : leaf.refs.length = leaf.keys.length) {rest : List (Key × PageReference)}
include found count refs

theorem advances_leaf (inside : index < leaf.keys.length) :
    Advances (standing tree id index) ((leaf.keys.zip leaf.refs).drop index ++ rest) ↔
      Advances (next.run (standing tree id (leaf.keys.length - 1))).2 rest := by
  obtain ⟨left, total⟩ : ∃ left, leaf.keys.length = index + left + 1 := Nat.exists_eq_add_of_lt inside
  induction left generalizing index with
  | zero =>
    have here : index < (leaf.keys.zip leaf.refs).length := by simpa [refs] using inside
    have current := current_standing found count refs inside
    rw [List.drop_eq_getElem_cons here, List.drop_of_length_le (by simp [refs]; omega), List.cons_append, List.nil_append,
      Advances, current, List.getElem?_eq_getElem here, show leaf.keys.length - 1 = index by omega]
    simp [isEnd, standing]
  | succ left ih =>
    have here : index < (leaf.keys.zip leaf.refs).length := by simpa [refs] using inside
    have current := current_standing found count refs inside
    rw [← ih (show index + 1 < leaf.keys.length by omega) (by omega), List.drop_eq_getElem_cons here, List.cons_append,
      Advances, current, List.getElem?_eq_getElem here, next_inside found (by rw [count]; omega)]
    simp [isEnd, standing]

theorem retreats_leaf (inside : index < leaf.keys.length) (across : Retreats (standing tree id 0) rest) :
    Retreats (standing tree id index) (((leaf.keys.zip leaf.refs).take index).reverse ++ rest) := by
  induction index with
  | zero => exact across
  | succ index ih =>
    have here : index < (leaf.keys.zip leaf.refs).length := by simp [refs]; omega
    rw [List.take_succ_eq_append_getElem here, List.reverse_append, List.reverse_singleton, List.singleton_append, List.cons_append]
    refine ⟨?_, ?_, ?_⟩ <;> rw [previous_inside]
    · rw [current_standing found count refs (by omega), List.getElem?_eq_getElem here]
    · exact ih (by omega)

end Leaf
end Cursor

namespace TreeValidator

variable {tree : BTree ω} {height : Nat} {id : PageId} {low high : Option Key}

theorem Checked.pages_row (checked : Checked tree height id low high) {fuel : Nat} (enough : height < fuel) :
    (tree.pagesBelow fuel id).filter (· ∈ tree.leaves) = tree.leafRow height id := by
  induction height generalizing fuel id low high with
  | zero =>
    obtain ⟨fuel, rfl⟩ := Nat.exists_eq_add_of_lt enough
    obtain ⟨leaf, found, -⟩ := checked
    simp [pagesBelow, leafRow, mem_leaves found]
  | succ height ih =>
    obtain ⟨fuel, rfl⟩ : ∃ rest, fuel = rest + 1 := ⟨fuel - 1, by omega⟩
    obtain ⟨node, noLeaf, found, -, below⟩ := checked.branch
    simp only [pagesBelow, leafRow, found, List.filter_cons, noLeaf, decide_false, if_false_true, if_false, List.filter_flatMap]
    refine List.flatMap_congr fun child member => ?_
    obtain ⟨index, taken⟩ := List.mem_iff_getElem?.mp member
    exact ih (below index child taken).2.2 (by omega)

/-- Every leaf of the row was accepted. -/
theorem Checked.row_leaf (checked : Checked tree height id low high) :
    ∀ leafId ∈ tree.leafRow height id, ∃ leaf low' high', tree.leaves.lookup leafId = some leaf ∧ LeafChecked leaf low' high' := by
  induction height generalizing id low high with
  | zero =>
    obtain ⟨leaf, found, whole⟩ := checked
    simpa [leafRow, found] using ⟨low, high, whole⟩
  | succ height ih =>
    obtain ⟨node, noLeaf, found, -, below⟩ := checked.branch
    intro leafId member
    simp only [leafRow, found, List.mem_flatMap] at member
    obtain ⟨child, inside, deeper⟩ := member
    obtain ⟨index, taken⟩ := List.mem_iff_getElem?.mp inside
    exact ih (below index child taken).2.2 leafId deeper

section Sides

variable (apart : ∀ id ∈ tree.leaves, id ∉ tree.internals)
include apart

theorem Checked.leftmost (checked : Checked tree height id low high) {fuel : Nat} (enough : height < fuel) :
    ∃ first rest, tree.edge (fun _ => 0) fuel id = .ok first ∧ tree.leafRow height id = first :: rest := by
  induction height generalizing fuel id low high with
  | zero =>
    obtain ⟨fuel, rfl⟩ := Nat.exists_eq_add_of_lt enough
    obtain ⟨leaf, found, -⟩ := checked
    refine ⟨id, [], ?_, rfl⟩
    rw [Nat.zero_add, edge, AList.lookup_eq_none.mpr (apart id (mem_leaves found))]
  | succ height ih =>
    obtain ⟨fuel, rfl⟩ : ∃ rest, fuel = rest + 1 := ⟨fuel - 1, by omega⟩
    obtain ⟨node, noLeaf, found, inner, below⟩ := checked.branch
    obtain ⟨child, others, parts⟩ := List.exists_cons_of_length_eq_add_one inner.children
    have taken : node.children[0]? = some child := by simp [parts]
    obtain ⟨first, rest, walked, row⟩ := ih (below 0 child taken).2.2 (by omega : height < fuel)
    refine ⟨first, rest ++ others.flatMap fun other => tree.leafRow height other.pageId, ?_, ?_⟩
    · rw [edge, found]
      simp only [taken]
      exact walked
    · rw [leafRow, found]
      simp only [parts, List.flatMap_cons, row, List.cons_append]

theorem Checked.rightmost (checked : Checked tree height id low high) {fuel : Nat} (enough : height < fuel) :
    ∃ front last, tree.edge (·.keyCount) fuel id = .ok last ∧ tree.leafRow height id = front ++ [last] := by
  induction height generalizing fuel id low high with
  | zero =>
    obtain ⟨fuel, rfl⟩ := Nat.exists_eq_add_of_lt enough
    obtain ⟨leaf, found, -⟩ := checked
    refine ⟨[], id, ?_, rfl⟩
    rw [Nat.zero_add, edge, AList.lookup_eq_none.mpr (apart id (mem_leaves found))]
  | succ height ih =>
    obtain ⟨fuel, rfl⟩ : ∃ rest, fuel = rest + 1 := ⟨fuel - 1, by omega⟩
    obtain ⟨node, noLeaf, found, inner, below⟩ := checked.branch
    have length := inner.children
    obtain ⟨others, child, parts⟩ : ∃ others child, node.children = others ++ [child] := by
      rcases List.eq_nil_or_concat' node.children with none | some
      · simp [none] at length
      · exact some
    have place : others.length = node.keyCount := by
      rw [parts, List.length_append, List.length_singleton] at length
      rw [inner.count]
      omega
    have taken : node.children[node.keyCount]? = some child := by simp [parts, ← place]
    obtain ⟨front, last, walked, row⟩ := ih (below _ child taken).2.2 (by omega : height < fuel)
    refine ⟨(others.flatMap fun other => tree.leafRow height other.pageId) ++ front, last, ?_, ?_⟩
    · rw [edge, found]
      simp only [taken]
      exact walked
    · rw [leafRow, found]
      simp only [parts, List.flatMap_append, List.flatMap_singleton, row, ← List.append_assoc]

end Sides
end TreeValidator

namespace BTree
open Cursor

variable {tree : BTree ω} {node : InternalNode} {id : PageId}

theorem childIndex_found {left right : List PageReference} {child : PageReference} (parts : node.children = left ++ child :: right)
    (once : (node.children.map (·.pageId)).Nodup) {place remaining : Nat} (before : place ≤ left.length)
    (enough : left.length < place + remaining) : childIndex node child.pageId remaining place = .ok left.length := by
  have new : ∀ other ∈ left, other.pageId ≠ child.pageId := by
    intro other member same
    rw [parts, List.map_append, List.map_cons] at once
    exact (List.nodup_append.mp once).2.2 _ (List.mem_map_of_mem member) _ List.mem_cons_self same
  induction remaining generalizing place with
  | zero => omega
  | succ remaining ih =>
    rw [childIndex]
    rcases Nat.lt_or_eq_of_le before with short | rfl
    · have other : node.children[place]? = some (left[place]) := by
        rw [parts, List.getElem?_append_left short, List.getElem?_eq_getElem]
      simp only [other, if_neg (new _ (List.getElem_mem short))]
      exact ih short (by omega)
    · simp [parts]

theorem childIndex_absent (absent : ∀ child ∈ node.children, child.pageId ≠ id) {place remaining : Nat}
    (inside : place + remaining ≤ node.children.length) : childIndex node id remaining place = .ok 0 := by
  induction remaining generalizing place with
  | zero => rfl
  | succ remaining ih =>
    have here : place < node.children.length := by omega
    rw [childIndex, List.getElem?_eq_getElem here]
    simp only [if_neg (absent _ (List.getElem_mem here))]
    exact ih (by omega)

/-- Below a root without leaves of its own every leaf is looked for at the first place. -/
theorem pathToLeaf_deep (noLeaf : tree.rootId ∉ tree.leaves) (found : tree.internals.lookup tree.rootId = some node)
    (internal : ∀ child ∈ node.children, child.pageId ∉ tree.leaves) (count : node.children.length = node.keyCount + 1)
    (leaf : id ∈ tree.leaves) : tree.pathToLeaf id = .ok [⟨tree.rootId, 0⟩] := by
  have root : tree.rootId ≠ id := fun same => noLeaf (same ▸ leaf)
  have index : childIndex node id (node.keyCount + 1) 0 = .ok 0 :=
    childIndex_absent (fun child member same => internal child member (same ▸ leaf)) (by omega)
  simp [pathToLeaf, root, found, index]

/-- What is not empty and accepted was checked, and its leaves are in a row. -/
theorem checked_row (live : tree.empty = false) (accepted : TreeValidator.validate tree = .ok ()) :
    ∃ height, TreeValidator.Checked tree height tree.rootId none none ∧ height < tree.internals.keys.length + 1 ∧
      tree.leafOrder = tree.leafRow height tree.rootId := by
  rcases TreeValidator.validate_sound accepted with empty | ⟨height, checked⟩
  · simp [live] at empty
  · have enough : height < tree.internals.keys.length + 1 := Nat.lt_succ_of_le (height_le checked.grown)
    exact ⟨height, checked, enough, checked.pages_row enough⟩

/-- From every leaf the neighbours are found. -/
def Linked (tree : BTree ω) : Prop :=
  ∀ before id after, tree.leafOrder = before ++ id :: after →
    ∃ path, tree.pathToLeaf id = .ok path ∧ tree.leafAfter path = .ok after.head? ∧
      tree.leafBefore path = .ok before.getLast?

namespace Walkable

variable (walkable : tree.Walkable)
include walkable

theorem leaf (member : id ∈ tree.leafOrder) : ∃ leaf, tree.leaves.lookup id = some leaf ∧
    leaf.keyCount = leaf.keys.length ∧ leaf.refs.length = leaf.keys.length ∧ 0 < leaf.keys.length ∧
    tree.leafEntries id = leaf.keys.zip leaf.refs := by
  obtain ⟨height, checked, -, row⟩ := checked_row walkable.live walkable.accepted
  obtain ⟨leaf, low', high', found, whole⟩ := checked.row_leaf id (row ▸ member)
  refine ⟨leaf, found, whole.count, whole.refs, ?_, by rw [leafEntries, found]⟩
  exact List.length_pos_iff.mpr (walkable.filled id member leaf found)

theorem advances_row (linked : tree.Linked) {before after : List PageId} (order : tree.leafOrder = before ++ id :: after) :
    Advances (standing tree id 0) ((id :: after).flatMap tree.leafEntries) := by
  induction after generalizing before id with
  | nil =>
    obtain ⟨leaf, found, count, refs, filled, entries⟩ := walkable.leaf (show id ∈ tree.leafOrder by simp [order])
    obtain ⟨path, placed, following, -⟩ := linked before id [] order
    rw [List.flatMap_cons, entries]
    exact (advances_leaf found count refs filled).mpr (next_last walkable.live placed found (by omega) following)
  | cons other after ih =>
    obtain ⟨leaf, found, count, refs, filled, entries⟩ := walkable.leaf (show id ∈ tree.leafOrder by simp [order])
    obtain ⟨path, placed, following, -⟩ := linked before id (other :: after) order
    have across : next.run (standing tree id (leaf.keys.length - 1)) = (.ok (), standing tree other 0) :=
      next_across walkable.live placed found (by omega) following
    have rest := @ih other (before ++ [id]) (by simp [order])
    rw [List.flatMap_cons, entries]
    refine (advances_leaf found count refs filled).mpr ?_
    rw [across]
    exact rest

theorem retreats_from {cursor : Cursor ω} {rest : List (Key × PageReference)} {leaf : LeafNode}
    (found : tree.leaves.lookup id = some leaf) (member : id ∈ tree.leafOrder)
    (came : previous.run cursor = (.ok (), standing tree id (leaf.keyCount - 1)))
    (behind : Retreats (standing tree id 0) rest) : Retreats cursor ((tree.leafEntries id).reverse ++ rest) := by
  obtain ⟨other, same, count, refs, filled, entries⟩ := walkable.leaf member
  obtain rfl := Option.some.inj (found.symm.trans same)
  have last : leaf.keys.length - 1 < (leaf.keys.zip leaf.refs).length := by simp [refs]; omega
  have whole : leaf.keys.zip leaf.refs = (leaf.keys.zip leaf.refs).take (leaf.keys.length - 1) ++
      [(leaf.keys.zip leaf.refs)[leaf.keys.length - 1]] := by
    rw [← List.take_succ_eq_append_getElem last, List.take_of_length_le (by simp [refs]; omega)]
  rw [entries, whole, List.reverse_append, List.reverse_singleton, List.singleton_append, List.cons_append]
  rw [count] at came
  refine ⟨?_, ?_, ?_⟩ <;> rw [came]
  · rw [current_standing found count refs (by omega), List.getElem?_eq_getElem last]
  · exact retreats_leaf found count refs (by omega) behind

theorem retreats_row (linked : tree.Linked) {before after : List PageId} (order : tree.leafOrder = before ++ id :: after) :
    Retreats (standing tree id 0) (before.flatMap tree.leafEntries).reverse := by
  induction before using List.reverseRecOn generalizing id after with
  | nil =>
    obtain ⟨path, placed, -, preceding⟩ := linked [] id after order
    exact previous_first walkable.live placed preceding
  | append_singleton before other ih =>
    obtain ⟨path, placed, -, preceding⟩ := linked (before ++ [other]) id after order
    rw [List.getLast?_concat] at preceding
    have member : other ∈ tree.leafOrder := by simp [order]
    obtain ⟨leaf, found, -⟩ := walkable.leaf member
    rw [List.flatMap_append, List.flatMap_singleton, List.reverse_append]
    exact walkable.retreats_from found member (previous_across walkable.live placed preceding found)
      (@ih other (id :: after) (by simp [order]))

theorem traverses (linked : tree.Linked) :
    Advances tree.beginCursor tree.entries ∧ Retreats tree.endCursor tree.entries.reverse := by
  obtain ⟨height, checked, enough, row⟩ := checked_row walkable.live walkable.accepted
  obtain ⟨first, others, leftmost, starts⟩ := checked.leftmost walkable.apart enough
  obtain ⟨front, last, rightmost, ends⟩ := checked.rightmost walkable.apart enough
  rw [← row] at starts ends
  have member : last ∈ tree.leafOrder := by simp [ends]
  obtain ⟨leaf, found, -⟩ := walkable.leaf member
  constructor
  · rw [begin_standing walkable.live leftmost, entries, starts]
    have order : tree.leafOrder = [] ++ first :: others := starts
    exact walkable.advances_row linked order
  · have behind : Retreats (standing tree last 0) (front.flatMap tree.leafEntries).reverse :=
      walkable.retreats_row linked ends
    have came := previous_end walkable.live rightmost found
    rw [entries]
    conv => rw [ends, List.flatMap_append, List.flatMap_singleton, List.reverse_append]
    exact walkable.retreats_from found member came behind

theorem linked_single (single : tree.leafOrder.length = 1) : tree.Linked := by
  intro before id after order
  have none : before = [] ∧ after = [] := by
    rw [order] at single
    simp only [List.length_append, List.length_cons] at single
    exact ⟨List.length_eq_zero_iff.mp (by omega), List.length_eq_zero_iff.mp (by omega)⟩
  obtain ⟨rfl, rfl⟩ := none
  by_cases root : tree.rootId = id
  · exact ⟨[], by rw [pathToLeaf, if_pos root], rfl, rfl⟩
  obtain ⟨height, checked, -, row⟩ := checked_row walkable.live walkable.accepted
  cases height with
  | zero =>
    rw [row] at order
    exact absurd (List.cons.inj order).1 root
  | succ height =>
    obtain ⟨node, noLeaf, found, inner, below⟩ := checked.branch
    have short : node.children.length ≤ 1 := by
      have many := @List.length_le_sum_of_one_le (node.children.map fun child => (tree.leafRow height child.pageId).length) ?_
      · rw [row, leafRow, found] at single
        simp only [List.length_flatMap] at single
        rw [List.length_map] at many
        omega
      · intro length member
        obtain ⟨child, inside, rfl⟩ := List.mem_map.mp member
        obtain ⟨index, taken⟩ := List.mem_iff_getElem?.mp inside
        obtain ⟨first, rest, -, starts⟩ := (below index child taken).2.2.leftmost walkable.apart (Nat.lt_succ_self height)
        simp [starts]
    have bare : node.keyCount = 0 := by
      have children := inner.children
      rw [inner.count]
      omega
    have index : childIndex node id (node.keyCount + 1) 0 = .ok 0 := by
      obtain ⟨child, only⟩ := List.length_eq_one_iff.mp (show node.children.length = 1 by rw [inner.children] at short ⊢; omega)
      simp [bare, childIndex, only]
    refine ⟨[⟨tree.rootId, 0⟩], by simp [pathToLeaf, root, found, index], ?_, ?_⟩
    · simp [leafAfter, found, bare]
    · simp [leafBefore]

omit walkable in
theorem edge_leaf (apart : ∀ id ∈ tree.leaves, id ∉ tree.internals) (side : InternalNode → Nat) (fuel : Nat)
    (leaf : id ∈ tree.leaves) : tree.edge side (fuel + 1) id = .ok id := by
  rw [edge, AList.lookup_eq_none.mpr (apart id leaf)]

theorem order_children {node : InternalNode} (found : tree.internals.lookup tree.rootId = some node)
    (leaves : ∀ child ∈ node.children, child.pageId ∈ tree.leaves) :
    tree.leafOrder = node.children.map (·.pageId) ∧ node.keyCount + 1 = node.children.length := by
  obtain ⟨height, checked, -, row⟩ := checked_row walkable.live walkable.accepted
  cases height with
  | zero =>
    obtain ⟨leaf, standing, -⟩ := checked
    exact absurd (AList.lookup_isSome.mp (by simp [found])) (walkable.apart _ (mem_leaves standing))
  | succ height =>
    obtain ⟨other, noLeaf, same, inner, below⟩ := checked.branch
    obtain rfl := Option.some.inj (found.symm.trans same)
    refine ⟨?_, by rw [inner.children, inner.count]⟩
    rw [row, leafRow, found, ← List.flatMap_pure_eq_map]
    refine List.flatMap_congr fun child member => ?_
    obtain ⟨index, taken⟩ := List.mem_iff_getElem?.mp member
    have deeper := (below index child taken).2.2
    cases height with
    | zero => rfl
    | succ height => exact absurd (leaves child member) deeper.1

theorem linked_children {node : InternalNode} (found : tree.internals.lookup tree.rootId = some node)
    (leaves : ∀ child ∈ node.children, child.pageId ∈ tree.leaves) : tree.Linked := by
  obtain ⟨row, count⟩ := walkable.order_children found leaves
  have distinct : tree.leafOrder.Nodup := walkable.once.sublist List.filter_sublist
  intro before id after order
  rw [row] at order distinct
  obtain ⟨left, behind, parts, rfl, rest⟩ := List.map_eq_append_iff.mp order
  obtain ⟨child, right, rfl, rfl, rfl⟩ := List.map_eq_cons_iff.mp rest
  have length : node.keyCount = left.length + right.length := by
    rw [parts, List.length_append, List.length_cons] at count
    omega
  have root : tree.rootId ≠ child.pageId := fun same =>
    walkable.apart _ (leaves child (by simp [parts])) (same ▸ AList.lookup_isSome.mp (by simp [found]))
  have index := childIndex_found parts distinct (Nat.zero_le _) (show left.length < 0 + (node.keyCount + 1) by omega)
  refine ⟨[⟨tree.rootId, left.length⟩], by simp [pathToLeaf, root, found, index], ?_, ?_⟩
  · rw [leafAfter, found]
    cases right with
    | nil => simp [length, leafAfter]
    | cons next others =>
      have taken : node.children[left.length + 1]? = some next := by simp [parts]
      have leaf := edge_leaf walkable.apart (fun _ => 0) tree.internals.keys.length (leaves next (by simp [parts]))
      simp [length, taken, leftmost, leaf, Except.map]
  · rw [leafBefore]
    rcases List.eq_nil_or_concat' left with rfl | ⟨others, last, rfl⟩
    · simp [leafBefore]
    · have taken : node.children[others.length]? = some last := by simp [parts]
      have leaf := edge_leaf walkable.apart (·.keyCount) tree.internals.keys.length (leaves last (by simp [parts]))
      simp [found, taken, rightmost, leaf, Except.map]

theorem linked_of_shallow (shallow : tree.Shallow) : tree.Linked := by
  rcases shallow with single | children
  · exact walkable.linked_single single
  · obtain ⟨height, checked, -, row⟩ := checked_row walkable.live walkable.accepted
    cases height with
    | zero => exact walkable.linked_single (by rw [row]; rfl)
    | succ height =>
      obtain ⟨node, noLeaf, found, -⟩ := checked.branch
      exact walkable.linked_children found (children node found)

theorem never_ends (member : id ∈ tree.leafOrder) {path : List SearchPathEntry} (placed : tree.pathToLeaf id = .ok path)
    (following : tree.leafAfter path = .ok (some id)) {leaf : LeafNode} (found : tree.leaves.lookup id = some leaf)
    {index : Nat} (inside : index < leaf.keys.length) (rest : List (Key × PageReference)) :
    ¬ Advances (standing tree id index) rest := by
  obtain ⟨other, same, count, -, filled, -⟩ := walkable.leaf member
  obtain rfl := Option.some.inj (found.symm.trans same)
  induction rest generalizing index with
  | nil => simp [Advances, isEnd, standing]
  | cons entry rest ih =>
    rintro ⟨-, -, advances⟩
    by_cases last : index + 1 < leaf.keyCount
    · rw [next_inside found last] at advances
      exact ih (by omega) advances
    · rw [next_across walkable.live placed found last following] at advances
      exact ih filled advances

theorem path_deep (deep : ¬ tree.Shallow) : ∃ node, tree.internals.lookup tree.rootId = some node ∧
    (∀ leafId ∈ tree.leaves, tree.pathToLeaf leafId = .ok [⟨tree.rootId, 0⟩]) ∧
    (tree.leafAfter [⟨tree.rootId, 0⟩] = .ok none ∨
      ∃ other ∈ tree.leafOrder, tree.leafAfter [⟨tree.rootId, 0⟩] = .ok (some other)) := by
  obtain ⟨height, checked, enough, row⟩ := checked_row walkable.live walkable.accepted
  rcases height with _ | _ | height
  · exact absurd (.inl (by rw [row]; rfl)) deep
  · obtain ⟨node, noLeaf, found, inner, below⟩ := checked.branch
    refine absurd (.inr fun other same child member => ?_) deep
    obtain rfl := Option.some.inj (found.symm.trans same)
    obtain ⟨index, taken⟩ := List.mem_iff_getElem?.mp member
    obtain ⟨leaf, standing, -⟩ := (below index child taken).2.2
    exact mem_leaves standing
  · obtain ⟨node, noLeaf, found, inner, below⟩ := checked.branch
    have internal : ∀ child ∈ node.children, child.pageId ∉ tree.leaves := fun child member => by
      obtain ⟨index, taken⟩ := List.mem_iff_getElem?.mp member
      exact (below index child taken).2.2.1
    have count : node.children.length = node.keyCount + 1 := by rw [inner.children, inner.count]
    refine ⟨node, found, fun _ => pathToLeaf_deep noLeaf found internal count, ?_⟩
    by_cases many : 0 + 1 ≤ node.keyCount
    · have inside : 1 < node.children.length := by omega
      have taken : node.children[1]? = some (node.children[1]) := List.getElem?_eq_getElem inside
      obtain ⟨other, others, walked, starts⟩ := (below 1 _ taken).2.2.leftmost walkable.apart
        (show height + 1 < tree.internals.keys.length + 1 by omega)
      refine .inr ⟨other, ?_, ?_⟩
      · rw [row, leafRow, found]
        exact List.mem_flatMap.mpr ⟨_, List.getElem_mem inside, by rw [starts]; exact List.mem_cons_self⟩
      · rw [leafAfter, found]
        simp only [many, if_true, Nat.zero_add, taken, leftmost, walked]
        rfl
    · left
      simp [leafAfter, found, many]

theorem not_advances (deep : ¬ tree.Shallow) : ¬ Advances tree.beginCursor tree.entries := by
  obtain ⟨height, checked, enough, row⟩ := checked_row walkable.live walkable.accepted
  obtain ⟨first, others, leftmost, starts⟩ := checked.leftmost walkable.apart enough
  obtain ⟨node, -, placed, following⟩ := walkable.path_deep deep
  rw [← row] at starts
  have inOrder : ∀ {leafId}, leafId ∈ tree.leafOrder → leafId ∈ tree.leaves := fun member => by
    simpa using (List.mem_filter.mp member).2
  obtain ⟨second, later, rfl⟩ : ∃ second later, others = second :: later := by
    refine List.exists_cons_of_ne_nil fun none => deep (.inl ?_)
    simp [starts, none]
  have firstIn : first ∈ tree.leafOrder := by simp [starts]
  obtain ⟨leaf, found, count, refs, filled, entries⟩ := walkable.leaf firstIn
  obtain ⟨next, -, -, pairs, more, nextEntries⟩ := walkable.leaf (show second ∈ tree.leafOrder by simp [starts])
  rw [begin_standing walkable.live leftmost, BTree.entries, starts, List.flatMap_cons, entries]
  refine fun advances => ?_
  have crossed := (advances_leaf found count refs filled).mp advances
  have last : ¬ leaf.keys.length - 1 + 1 < leaf.keyCount := by omega
  rcases following with ended | ⟨other, member, again⟩
  · have stopped := next_last walkable.live (placed first (inOrder firstIn)) found last ended
    obtain ⟨entry, rest, some⟩ : ∃ entry rest, (second :: later).flatMap tree.leafEntries = entry :: rest := by
      refine List.exists_cons_of_ne_nil fun none => ?_
      rw [List.flatMap_cons, nextEntries, List.append_eq_nil_iff] at none
      have length := congrArg List.length none.1
      rw [List.length_zip, pairs, List.length_nil] at length
      omega
    rw [some] at crossed
    rw [crossed.1] at stopped
    cases stopped
  · rw [next_across walkable.live (placed first (inOrder firstIn)) found last again] at crossed
    obtain ⟨leaf, found, -, -, filled, -⟩ := walkable.leaf member
    exact walkable.never_ends member (placed other (inOrder member)) again found filled _ crossed

end Walkable

/-- A walk in either direction is right exactly when the leaves are near the root. -/
theorem traversal_iff_shallow (tree : BTree ω) (walkable : tree.Walkable) :
    (Advances tree.beginCursor tree.entries ∧ Retreats tree.endCursor tree.entries.reverse) ↔ tree.Shallow := by
  constructor
  · rintro ⟨advances, -⟩
    by_contra deep
    exact walkable.not_advances deep advances
  · exact fun shallow => walkable.traverses (walkable.linked_of_shallow shallow)

theorem walkable_of (live : tree.empty = false) (accepted : TreeValidator.validate tree = .ok ())
    (filled : ∀ entry ∈ tree.leaves.entries, entry.2.keys ≠ []) (apart : ∀ entry ∈ tree.leaves.entries, entry.1 ∉ tree.internals)
    (once : tree.pages.Nodup) : tree.Walkable := by
  refine ⟨live, accepted, fun _ _ _ found => filled _ (AList.mem_lookup_iff.mp found), fun id member => ?_, once⟩
  obtain ⟨leaf, found⟩ := Option.isSome_iff_exists.mp (AList.lookup_isSome.mpr member)
  exact apart ⟨id, leaf⟩ (AList.mem_lookup_iff.mp found)

theorem traversal_iff_shallow_pair :
    (pair (.uint32 4) [.uint32 1, .uint32 2] [.uint32 5]).Walkable ∧
      ((Advances (pair (.uint32 4) [.uint32 1, .uint32 2] [.uint32 5]).beginCursor
            (pair (.uint32 4) [.uint32 1, .uint32 2] [.uint32 5]).entries ∧
          Retreats (pair (.uint32 4) [.uint32 1, .uint32 2] [.uint32 5]).endCursor
            (pair (.uint32 4) [.uint32 1, .uint32 2] [.uint32 5]).entries.reverse) ↔
        (pair (.uint32 4) [.uint32 1, .uint32 2] [.uint32 5]).Shallow) := by
  have walkable : (pair (.uint32 4) [.uint32 1, .uint32 2] [.uint32 5]).Walkable :=
    walkable_of (by decide +kernel) (by decide +kernel) (by decide +kernel) (by decide +kernel) (by decide +kernel)
  exact ⟨walkable, traversal_iff_shallow _ walkable⟩

def internalOf (id : PageId) (keys : List Key) (children : List PageId) : InternalNode :=
  ((InternalNode.create id { keyType := .uint32, level := 1 }).assignEntries keys (children.map makeIndexRef)).2

def threeLevels : BTree Empty where
  space := Space.SpaceManager.withPolicy .firstFit
  rootId := 13
  height := 3
  leaves := ((AList.singleton 8 (leafOf 8 [.uint32 1])).insert 9 (leafOf 9 [.uint32 15])).insert 10 (leafOf 10 [.uint32 35])
  internals := ((AList.singleton 11 (internalOf 11 [.uint32 10] [8, 9])).insert 12 (internalOf 12 [] [10])).insert 13
    (internalOf 13 [.uint32 30] [11, 12])

/-- The second leaf is passed over, and the third is never left. -/
theorem second_leaf_is_passed :
    threeLevels.Walkable ∧ ¬ Cursor.Advances threeLevels.beginCursor threeLevels.entries :=
  ⟨walkable_of (by decide +kernel) (by decide +kernel) (by decide +kernel) (by decide +kernel) (by decide +kernel),
    by decide +kernel⟩

end BTree
end Quartz.Btree
