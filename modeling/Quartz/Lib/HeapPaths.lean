import Mathlib.Data.List.Nodup
import Quartz.Lib.HeapTree

/-! Paths from the root of a tree in a heap: the places among the children on the way. A tree
without repeated nodes has one path to each of its nodes, and its keys are those of its
nodes, whatever the order the nodes are listed in. -/

namespace HeapTree

variable {ι κ : Type}

/-- A way down, by the place of the child taken at each branch. -/
inductive Path (heap : ι → Option (Node ι κ)) : ι → List Nat → ι → Prop
  | here (id : ι) : Path heap id [] id
  | child {id next target : ι} {keys : List κ} {children : List ι} {index : Nat} {path : List Nat}
      (found : heap id = some (.branch keys children)) (taken : children[index]? = some next)
      (rest : Path heap next path target) : Path heap id (index :: path) target

def nodeKeys (heap : ι → Option (Node ι κ)) (id : ι) : List κ :=
  match heap id with
  | some (.leaf keys) => keys
  | some (.branch keys _) => keys
  | none => []

variable {heap : ι → Option (Node ι κ)} {height : Nat} {id target : ι} {keys : List κ} {path : List Nat}

theorem Tree.path_of_mem (tree : Tree heap height id) (member : target ∈ ids heap height id) :
    ∃ path, Path heap id path target := by
  induction height generalizing id with
  | zero =>
    obtain rfl := List.mem_singleton.mp member
    exact ⟨[], .here target⟩
  | succ height ih =>
    obtain ⟨keys, children, found, -, below⟩ := tree
    rw [ids_branch found] at member
    rcases List.mem_cons.mp member with rfl | member
    · exact ⟨[], .here target⟩
    · obtain ⟨next, inside, member⟩ := List.mem_flatMap.mp member
      obtain ⟨index, taken⟩ := List.mem_iff_getElem?.mp inside
      obtain ⟨path, rest⟩ := ih (below next inside) member
      exact ⟨index :: path, .child found taken rest⟩

theorem Path.mem_ids (way : Path heap id path target) (tree : Tree heap height id) : target ∈ ids heap height id := by
  induction way generalizing height with
  | here id => exact HeapTree.mem_ids heap height id
  | child found taken rest ih =>
    cases height with
    | zero =>
      obtain ⟨keys, leaf⟩ := tree
      cases found.symm.trans leaf
    | succ height =>
      obtain ⟨-, below⟩ := (tree_branch found).mp tree
      have inside := List.mem_of_getElem? taken
      rw [ids_branch found]
      exact List.mem_cons_of_mem _ (List.mem_flatMap.mpr ⟨_, inside, ih (below _ inside)⟩)

theorem part_unique {α : Type} {target : α} {parts : ι → List α} {items : List ι}
    (distinct : (items.flatMap parts).Nodup) {first second : Nat} {left right : ι}
    (atFirst : items[first]? = some left) (atSecond : items[second]? = some right)
    (inLeft : target ∈ parts left) (inRight : target ∈ parts right) : first = second := by
  obtain ⟨low, rfl⟩ := List.getElem?_eq_some_iff.mp atFirst
  obtain ⟨high, rfl⟩ := List.getElem?_eq_some_iff.mp atSecond
  obtain ⟨-, apart⟩ := List.nodup_flatMap.mp distinct
  have ordered := List.pairwise_iff_getElem.mp apart
  rcases Nat.lt_trichotomy first second with less | same | more
  · exact absurd inRight (ordered first second low high less inLeft)
  · exact same
  · exact absurd inLeft (ordered second first high low more inRight)

theorem Path.unique {other : List Nat} (way : Path heap id path target) (again : Path heap id other target)
    (tree : Tree heap height id) (distinct : (ids heap height id).Nodup) : path = other := by
  induction way generalizing height other with
  | here id =>
    cases again with
    | here => rfl
    | child found taken rest =>
      -- a way back to the start would make it one of its own descendants
      cases height with
      | zero =>
        obtain ⟨keys, leaf⟩ := tree
        cases found.symm.trans leaf
      | succ height =>
        obtain ⟨-, below⟩ := (tree_branch found).mp tree
        have inside := List.mem_of_getElem? taken
        rw [ids_branch found] at distinct
        exact absurd (List.mem_flatMap.mpr ⟨_, inside, rest.mem_ids (below _ inside)⟩) (List.nodup_cons.mp distinct).1
  | child found taken rest ih =>
    cases height with
    | zero =>
      obtain ⟨keys, leaf⟩ := tree
      cases found.symm.trans leaf
    | succ height =>
      obtain ⟨-, below⟩ := (tree_branch found).mp tree
      have inside := below _ (List.mem_of_getElem? taken)
      rw [ids_branch found] at distinct
      obtain ⟨fresh, distinct⟩ := List.nodup_cons.mp distinct
      cases again with
      | here => exact absurd (List.mem_flatMap.mpr ⟨_, List.mem_of_getElem? taken, rest.mem_ids inside⟩) fresh
      | child found' taken' rest' =>
        cases found.symm.trans found'
        obtain rfl := part_unique distinct taken taken' (rest.mem_ids inside)
          (rest'.mem_ids (below _ (List.mem_of_getElem? taken')))
        cases taken.symm.trans taken'
        rw [ih rest' inside ((List.nodup_flatMap.mp distinct).1 _ (List.mem_of_getElem? taken))]

theorem Path.length_leaf (way : Path heap id path target) (tree : Tree heap height id)
    (leaf : heap target = some (.leaf keys)) : path.length = height := by
  induction way generalizing height with
  | here id =>
    cases height with
    | zero => rfl
    | succ height =>
      obtain ⟨_, _, found, -⟩ := tree
      cases found.symm.trans leaf
  | child found taken rest ih =>
    cases height with
    | zero =>
      obtain ⟨_, alone⟩ := tree
      cases found.symm.trans alone
    | succ height =>
      obtain ⟨-, below⟩ := (tree_branch found).mp tree
      rw [List.length_cons, ih (below _ (List.mem_of_getElem? taken)) leaf]

/-- The keys of a tree are those of its nodes. -/
theorem Tree.keys_perm (tree : Tree heap height id) :
    (inorder heap height id).Perm ((ids heap height id).flatMap (nodeKeys heap)) := by
  induction height generalizing id with
  | zero =>
    obtain ⟨keys, found⟩ := tree
    simp [ids, inorder_leaf found, nodeKeys, found]
  | succ height ih =>
    obtain ⟨keys, children, found, count, below⟩ := tree
    have own : nodeKeys heap id = keys := by simp [nodeKeys, found]
    have deeper : (children.map (inorder heap height)).flatten.Perm
        ((children.flatMap (ids heap height)).flatMap (nodeKeys heap)) := by
      rw [← List.flatMap_def, List.flatMap_assoc]
      exact List.Perm.flatMap_left _ fun child inside => ih (below child inside)
    rw [inorder_branch found, ids_branch found, List.flatMap_cons, own]
    exact (interleave_perm (by simpa using count)).trans ((deeper.append_right keys).trans List.perm_append_comm)

end HeapTree
