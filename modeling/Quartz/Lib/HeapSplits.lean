import Mathlib.Data.List.InsertIdx
import Quartz.Lib.HeapTree

/-! A node that has fallen into two: the key between the halves goes into the branch above, which takes it or falls into
two itself, up to a new root. The keys from left to right stay the same all the way. -/

namespace HeapTree

variable {ι κ : Type}

/-- Two trees stand where one was, with a key between them that is still to be placed above. -/
structure Twin (heap : ι → Option (Node ι κ)) (top : Nat) (root : ι) (path : List (ι × Nat)) (height : Nat) (first second : ι)
    (key : κ) (before after : List κ) (outside : List ι) (order : List κ) : Prop where
  within : Within heap top root path height first before after outside
  left : Tree heap height first
  right : Tree heap height second
  distinct : (ids heap height first ++ ids heap height second ++ outside).Nodup
  keys : before ++ (inorder heap height first ++ key :: inorder heap height second) ++ after = order

theorem insertIdx_between {α : Type} {index : Nat} {front back : List α} (length : front.length = index) (item : α) :
    (front ++ back).insertIdx index item = front ++ item :: back := by
  subst length
  induction front with
  | nil => rfl
  | cons first rest ih => exact congrArg (first :: ·) ih

/-- The nodes of a path are around its end. -/
theorem Within.around {heap : ι → Option (Node ι κ)} {top height : Nat} {root id : ι} {path : List (ι × Nat)}
    {before after : List κ} {outside : List ι} (within : Within heap top root path height id before after outside) :
    ∀ place ∈ path, place.1 ∈ outside := by
  induction within with
  | whole => simp
  | child above found front behind siblings ih =>
    intro place member
    rcases List.mem_cons.mp member with rfl | member
    · exact List.mem_append_left _ List.mem_cons_self
    · exact List.mem_append_right _ (ih place member)

namespace Twin

variable {heap : ι → Option (Node ι κ)} {top height index : Nat} {root parent sibling first second : ι}
  {path : List (ι × Nat)} {key promoted : κ} {keys before after order : List κ} {children outside : List ι}

theorem stands (twin : Twin heap top root path height first second key before after outside order) :
    ∀ other ∈ ids heap height first ++ ids heap height second ++ outside, (heap other).isSome := by
  intro other member
  rcases List.mem_append.mp member with member | member
  · exact (List.mem_append.mp member).elim (twin.left.stands other) (twin.right.stands other)
  · exact twin.within.stands twin.left other member

/-- A root above the two trees, when one of them was the whole. -/
theorem newRoot (twin : Twin heap top root [] height first second key before after outside order) {id : ι}
    (free : heap id = none) (heap' : ι → Option (Node ι κ)) (written : heap' id = some (.branch [key] [first, second]))
    (same : ∀ other, other ≠ id → heap' other = heap other) :
    Tree heap' (top + 1) id ∧ inorder heap' (top + 1) id = order ∧
      ids heap' (top + 1) id = id :: (ids heap height first ++ ids heap height second ++ outside) := by
  have stands := twin.stands
  obtain ⟨within, left, right, distinct, rfl⟩ := twin
  cases within
  have new : ∀ other ∈ [root, second].flatMap (ids heap top), other ≠ id := by
    rintro other member rfl
    have standing := stands other (by simpa using member)
    simp [free] at standing
  obtain ⟨whole, keys, nodes⟩ := branch_above written rfl (by simpa using ⟨left, right⟩)
    fun other member => same other (new other member)
  exact ⟨whole, keys.trans (by simp), nodes.trans (by simp)⟩

theorem found (twin : Twin heap top root ((parent, index) :: path) height first second key before after outside order) :
    ∃ keys children, heap parent = some (.branch keys children) := by
  obtain ⟨_, _, _, _, _, _, _, _, found, _⟩ := twin.within.up
  exact ⟨_, _, found⟩

private theorem above (twin : Twin heap top root ((parent, index) :: path) height first second key before after outside order)
    (found : heap parent = some (.branch keys children)) :
    ∃ before' after' leftKeys rightKeys outside' lefts rights,
      Within heap top root path (height + 1) parent before' after' outside' ∧
      keys = leftKeys ++ rightKeys ∧ children = lefts ++ first :: rights ∧
      keys.insertIdx index key = leftKeys ++ ([key] ++ rightKeys) ∧
      children.insertIdx (index + 1) second = lefts ++ ([first, second] ++ rights) ∧
      lefts.length = leftKeys.length ∧ rights.length = rightKeys.length ∧ lefts.length = index ∧
      (∀ other ∈ lefts ++ rights, Tree heap height other) ∧
      before = before' ++ fronts (lefts.map (inorder heap height)) leftKeys ∧
      after = backs rightKeys (rights.map (inorder heap height)) ++ after' ∧
      outside = parent :: (lefts ++ rights).flatMap (ids heap height) ++ outside' := by
  obtain ⟨before', after', leftKeys, rightKeys, outside', lefts, rights, above, same, front, behind, place, siblings, rfl, rfl,
    rfl⟩ := twin.within.up
  cases found.symm.trans same
  refine ⟨before', after', leftKeys, rightKeys, outside', lefts, rights, above, rfl, rfl, ?_, ?_, front, behind, place, siblings,
    rfl, rfl, rfl⟩
  · exact insertIdx_between (front.symm.trans place) key
  · rw [List.append_cons, insertIdx_between (by simp [place])]
    simp

/-- The place of the two trees in the branch above, and the keys around the new one. -/
theorem place (twin : Twin heap top root ((parent, index) :: path) height first second key before after outside order)
    (found : heap parent = some (.branch keys children)) :
    index ≤ keys.length ∧ parent ∈ outside ∧ (keys.insertIdx index key).Sublist order := by
  obtain ⟨before', after', leftKeys, rightKeys, outside', lefts, rights, -, rfl, rfl, more, -, front, behind, place, -, rfl, rfl,
    rfl⟩ := twin.above found
  refine ⟨?_, ?_, ?_⟩
  · rw [List.length_append]
    omega
  · simp
  · rw [more, ← twin.keys]
    refine (@window_keys_sublist _ (lefts.map (inorder heap height)) [inorder heap height first, inorder heap height second]
      (rights.map (inorder heap height)) leftKeys [key] rightKeys (by simpa using front) rfl (by simpa using behind)).trans ?_
    simp

/-- The branch above takes the key and the second tree. -/
theorem take (twin : Twin heap top root ((parent, index) :: path) height first second key before after outside order)
    (found : heap parent = some (.branch keys children)) (heap' : ι → Option (Node ι κ))
    (written : heap' parent = some (.branch (keys.insertIdx index key) (children.insertIdx (index + 1) second)))
    (same : ∀ other, other ≠ parent → heap' other = heap other) :
    Tree heap' top root ∧ inorder heap' top root = order ∧
      (ids heap' top root).Perm (ids heap height first ++ ids heap height second ++ outside) := by
  obtain ⟨before', after', leftKeys, rightKeys, outside', lefts, rights, above, -, -, more, wider, front, behind, -, siblings, rfl,
    rfl, rfl⟩ := twin.above found
  obtain ⟨-, left, right, distinct, rfl⟩ := twin
  rw [more, wider] at written
  have apart := (List.nodup_cons.mp (List.perm_middle.nodup_iff.mp distinct)).1
  have kept : ∀ other ∈ ids heap height first ++ ids heap height second ++
      ((lefts ++ rights).flatMap (ids heap height) ++ outside'), heap' other = heap other :=
    fun other member => same other (ne_of_mem_of_not_mem member apart)
  have leftKept := left.frame heap' fun other member =>
    kept other (List.mem_append_left _ (List.mem_append_left _ member))
  have rightKept := right.frame heap' fun other member =>
    kept other (List.mem_append_left _ (List.mem_append_right _ member))
  obtain ⟨whole, keys, nodes⟩ := above.refill front behind siblings written rfl (by simpa using ⟨leftKept.1, rightKept.1⟩)
    fun other member => kept other (List.mem_append_right _ member)
  refine ⟨whole, ?_, ?_⟩
  · rw [keys]
    simp [leftKept.2.2, rightKept.2.2]
  · simpa [leftKept.2.1, rightKept.2.1] using nodes

/-- The branch above falls into two around one of its keys. -/
theorem split (twin : Twin heap top root ((parent, index) :: path) height first second key before after outside order)
    (found : heap parent = some (.branch keys children)) (free : heap sibling = none) {middle : Nat}
    (goesUp : (keys.insertIdx index key)[middle]? = some promoted) (heap' : ι → Option (Node ι κ))
    (leftHalf : heap' parent = some (.branch ((keys.insertIdx index key).take middle)
      ((children.insertIdx (index + 1) second).take (middle + 1))))
    (rightHalf : heap' sibling = some (.branch ((keys.insertIdx index key).drop (middle + 1))
      ((children.insertIdx (index + 1) second).drop (middle + 1))))
    (same : ∀ other, other ≠ parent → other ≠ sibling → heap' other = heap other) :
    ∃ before' after' outside',
      Twin heap' top root path (height + 1) parent sibling promoted before' after' outside' order ∧
      (ids heap' (height + 1) parent ++ ids heap' (height + 1) sibling ++ outside').Perm
        (sibling :: (ids heap height first ++ ids heap height second ++ outside)) := by
  have stands := twin.stands
  obtain ⟨before', after', leftKeys, rightKeys, outside', lefts, rights, above, -, -, more, wider, front, behind, -, siblings, rfl,
    rfl, rfl⟩ := twin.above found
  obtain ⟨-, left, right, distinct, rfl⟩ := twin
  rw [more] at goesUp leftHalf rightHalf
  rw [wider] at leftHalf rightHalf
  have apart := (List.nodup_cons.mp (List.perm_middle.nodup_iff.mp distinct)).1
  have new : ∀ other, (heap other).isSome → other ≠ sibling := by
    rintro other standing rfl
    simp [free] at standing
  have kept : ∀ other ∈ ids heap height first ++ ids heap height second ++
      ((lefts ++ rights).flatMap (ids heap height) ++ outside'), heap' other = heap other := by
    intro other member
    refine same other (ne_of_mem_of_not_mem member apart) (new other (stands other ?_))
    exact List.perm_middle.mem_iff.mpr (List.mem_cons_of_mem _ member)
  have row : ((lefts ++ ([first, second] ++ rights)).flatMap (ids heap height)).Perm
      (ids heap height first ++ ids heap height second ++ (lefts ++ rights).flatMap (ids heap height)) := by
    simp only [List.flatMap_append, List.flatMap_cons, List.flatMap_nil, List.append_nil]
    exact List.perm_append_comm_assoc _ _ _
  have trees : ∀ child ∈ lefts ++ ([first, second] ++ rights), Tree heap height child := by
    intro child member
    simp only [List.mem_append, List.mem_cons, List.not_mem_nil, or_false] at member
    rcases member with member | (rfl | rfl) | member
    · exact siblings child (List.mem_append_left _ member)
    · exact left
    · exact right
    · exact siblings child (List.mem_append_right _ member)
  obtain ⟨leftTree, rightTree, order, nodes⟩ := branches_above goesUp
    (by simp only [List.length_append, List.length_cons, List.length_nil]; omega) leftHalf rightHalf trees
    fun other member => kept other (by
      rw [← List.append_assoc]
      exact List.mem_append_left _ (row.mem_iff.mp member))
  rw [List.map_append, List.map_append, interleave_window (by simpa using front) rfl (by simpa using behind)] at order
  simp only [List.map_cons, List.map_nil, interleave_pair] at order
  have all : (ids heap' (height + 1) parent ++ ids heap' (height + 1) sibling ++ outside').Perm
      (sibling :: (ids heap height first ++ ids heap height second ++
        (parent :: (lefts ++ rights).flatMap (ids heap height) ++ outside'))) := by
    refine (nodes.append_right _).trans ((List.Perm.swap _ _ _).trans (List.Perm.cons _ ?_))
    refine (List.Perm.cons _ ((row.append_right _).trans ?_)).trans List.perm_middle.symm
    exact List.Perm.of_eq (by simp only [List.append_assoc]; rfl)
  refine ⟨before', after', outside', ⟨?_, leftTree, rightTree, ?_, ?_⟩, all⟩
  · exact above.frame fun other member => kept other (List.mem_append_right _ (List.mem_append_right _ member))
  · exact all.nodup_iff.mpr (List.nodup_cons.mpr ⟨fun member => new sibling (stands sibling member) rfl, distinct⟩)
  · rw [order]
    simp only [List.append_assoc]

end Twin
end HeapTree
