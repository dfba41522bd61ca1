import Mathlib.Order.Defs.PartialOrder
import Mathlib.Order.Defs.Unbundled
import Quartz.Lib.HeapTree

/-! Trees in a heap whose keys are in order from left to right. What divides the keys of a tree at a branch divides its
nodes too: where every leaf has an item of its own, no node occurs twice. -/

namespace HeapTree

variable {ι κ μ : Type}

/-- Items in order between two bounds, where there are any. -/
structure Bounded (R : κ → κ → Prop) (low high : Option κ) (items : List κ) : Prop where
  sorted : items.Pairwise R
  above : ∀ bound ∈ low, ∀ item ∈ items, R bound item
  under : ∀ bound ∈ high, ∀ item ∈ items, R item bound

/-- The bounds of parts with keys between them. -/
def windows (low high : Option κ) (keys : List κ) : List (Option κ × Option κ) :=
  (low :: keys.map some).zip (keys.map some ++ [high])

section Bounded

variable {R : κ → κ → Prop} {low high : Option κ} {items others : List κ} {key : κ}

theorem bounded_append [IsTrans κ R] : Bounded R low high (items ++ key :: others) ↔
    (∀ bound ∈ low, R bound key) ∧ (∀ bound ∈ high, R key bound) ∧
      Bounded R low (some key) items ∧ Bounded R (some key) high others := by
  constructor
  · rintro ⟨sorted, above, under⟩
    obtain ⟨first, second, across⟩ := List.pairwise_append.mp sorted
    obtain ⟨least, second⟩ := List.pairwise_cons.mp second
    refine ⟨fun bound member => above bound member key (by simp), fun bound member => under bound member key (by simp),
      ⟨first, fun bound member item inside => above bound member item (by simp [inside]), ?_⟩,
      ⟨second, ?_, fun bound member item inside => under bound member item (by simp [inside])⟩⟩
    · rintro _ ⟨⟩ item inside
      exact across item inside key List.mem_cons_self
    · rintro _ ⟨⟩
      exact least
  · rintro ⟨overLow, underHigh, ⟨first, above, close⟩, ⟨second, least, under⟩⟩
    refine ⟨List.pairwise_append.mpr ⟨first, List.pairwise_cons.mpr ⟨least key rfl, second⟩, ?_⟩, ?_, ?_⟩
    · intro item inside other behind
      rcases List.mem_cons.mp behind with rfl | behind
      · exact close _ rfl item inside
      · exact Trans.trans (close key rfl item inside) (least key rfl other behind)
    · intro bound member item inside
      rcases List.mem_append.mp inside with inside | inside
      · exact above bound member item inside
      · rcases List.mem_cons.mp inside with rfl | inside
        · exact overLow bound member
        · exact Trans.trans (overLow bound member) (least key rfl item inside)
    · intro bound member item inside
      rcases List.mem_append.mp inside with inside | inside
      · exact Trans.trans (close key rfl item inside) (underHigh bound member)
      · rcases List.mem_cons.mp inside with rfl | inside
        · exact underHigh bound member
        · exact under bound member item inside

theorem bounded_interleave [IsTrans κ R] {parts : List (List κ)} {keys : List κ} (count : parts.length = keys.length + 1) :
    Bounded R low high (interleave parts keys) ↔
      Bounded R low high keys ∧ ∀ entry ∈ parts.zip (windows low high keys), Bounded R entry.2.1 entry.2.2 entry.1 := by
  induction keys generalizing parts low with
  | nil =>
    obtain ⟨part, rfl⟩ := List.length_eq_one_iff.mp count
    simp only [interleave_single, windows, List.map_nil, List.nil_append, List.zip_cons_cons, List.zip_nil_left,
      List.mem_singleton, forall_eq]
    exact ⟨fun bounded => ⟨⟨.nil, by simp, by simp⟩, bounded⟩, fun both => both.2⟩
  | cons key rest ih =>
    obtain ⟨part, others, rfl⟩ := List.exists_cons_of_length_eq_add_one count
    have bounds : windows low high (key :: rest) = (low, some key) :: windows (some key) high rest := rfl
    have first := @bounded_append _ R low high [] rest key _
    rw [List.nil_append] at first
    rw [interleave, bounded_append, ih (by simpa using count), first, bounds, List.zip_cons_cons, List.forall_mem_cons]
    constructor
    · rintro ⟨overLow, underHigh, here, below, each⟩
      exact ⟨⟨overLow, underHigh, ⟨.nil, by simp, by simp⟩, below⟩, here, each⟩
    · rintro ⟨⟨overLow, underHigh, -, below⟩, here, each⟩
      exact ⟨overLow, underHigh, here, below, each⟩

end Bounded

theorem windows_map (label : κ → μ) (low high : Option κ) (keys : List κ) :
    windows (low.map label) (high.map label) (keys.map label) =
      (windows low high keys).map (Prod.map (Option.map label) (Option.map label)) := by
  simp only [windows, ← List.zip_map, List.map_cons, List.map_append, List.map_map, List.map_nil]
  rfl

section Order

variable {heap : ι → Option (Node ι κ)} {height : Nat} {id : ι} {keys : List κ} {children : List ι}
  {own : κ → Prop}

/-- A node below has a tree of its own, with a part of the keys. -/
theorem part_sublist {parts : List (List κ)} {part : List κ} (member : part ∈ parts) : part.Sublist (interleave parts keys) := by
  induction parts generalizing keys with
  | nil => cases member
  | cons first parts ih =>
    cases keys with
    | nil => exact List.sublist_flatten_of_mem member
    | cons key keys =>
      rw [interleave]
      rcases List.mem_cons.mp member with rfl | later
      · exact List.sublist_append_left _ _
      · exact ((ih later).cons key).trans (List.sublist_append_right _ _)

theorem child_sublist (found : heap id = some (.branch keys children)) {child : ι} (member : child ∈ children) :
    (inorder heap height child).Sublist (inorder heap (height + 1) id) := by
  rw [inorder_branch found]
  exact part_sublist (List.mem_map_of_mem member)

/-- A node below has a tree of its own, with a part of the keys. -/
theorem Tree.below (tree : Tree heap height id) {other : ι} (member : other ∈ ids heap height id) :
    ∃ inner, Tree heap inner other ∧ (inorder heap inner other).Sublist (inorder heap height id) ∧
      ids heap inner other ⊆ ids heap height id ∧ (other = id ∨ inner < height) := by
  induction height generalizing id with
  | zero =>
    obtain rfl := List.mem_singleton.mp member
    exact ⟨0, tree, List.Sublist.refl _, List.Subset.refl _, .inl rfl⟩
  | succ height ih =>
    have whole := tree
    obtain ⟨keys, children, found, count, trees⟩ := tree
    rw [ids_branch found] at member
    rcases List.mem_cons.mp member with rfl | deeper
    · exact ⟨height + 1, whole, List.Sublist.refl _, List.Subset.refl _, .inl rfl⟩
    obtain ⟨child, listed, inside⟩ := List.mem_flatMap.mp deeper
    obtain ⟨inner, stands, items, nodes, lower⟩ := ih (trees child listed) inside
    refine ⟨inner, stands, items.trans (child_sublist found listed), fun node held => ?_, .inr ?_⟩
    · rw [ids_branch found]
      exact List.mem_cons_of_mem _ (List.mem_flatMap.mpr ⟨child, listed, nodes held⟩)
    · rcases lower with rfl | lower
      · rw [stands.height_unique (trees other listed)]
        exact Nat.lt_succ_self _
      · omega

theorem Tree.leaf_sublist (tree : Tree heap height id) {other : ι} (member : other ∈ ids heap height id)
    (found : heap other = some (.leaf keys)) : keys.Sublist (inorder heap height id) := by
  obtain ⟨inner, stands, items, -⟩ := tree.below member
  cases inner with
  | zero => rwa [inorder_leaf found] at items
  | succ inner =>
    obtain ⟨_, _, branch, -⟩ := stands
    cases found.symm.trans branch

theorem Tree.branch_sublist (tree : Tree heap height id) {other : ι} (member : other ∈ ids heap height id)
    (found : heap other = some (.branch keys children)) :
    keys.Sublist (inorder heap height id) ∧ ∀ child ∈ children, (heap child).isSome := by
  obtain ⟨inner, stands, items, -⟩ := tree.below member
  cases inner with
  | zero =>
    obtain ⟨_, leaf⟩ := stands
    cases found.symm.trans leaf
  | succ inner =>
    obtain ⟨count, trees⟩ := (tree_branch found).mp stands
    rw [inorder_branch found] at items
    exact ⟨(keys_sublist (by simpa using count)).trans items, fun child member => (trees child member).stands child (mem_ids _ _ _)⟩

variable [PartialOrder κ]

end Order
end HeapTree
