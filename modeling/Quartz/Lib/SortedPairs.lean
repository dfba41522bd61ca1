import Mathlib.Data.List.Count
import Mathlib.Data.List.Sort
import Mathlib.Order.Defs.LinearOrder

/-! Lists of pairs sorted by key, in which a key may occur more than once. A new pair goes in
front of the others of its key and a removal takes the first of them, so that the values of
each key form a stack. -/

namespace SortedPairs

variable {α β : Type*} [LinearOrder α]

def Sorted (pairs : List (α × β)) : Prop := pairs.Pairwise fun first second => first.1 ≤ second.1

def push (key : α) (value : β) (pairs : List (α × β)) : List (α × β) :=
  pairs.orderedInsert (fun first second => first.1 ≤ second.1) (key, value)

def pop (key : α) (pairs : List (α × β)) : List (α × β) := pairs.eraseP fun pair => pair.1 = key

/-- The values of a key, the newest in front. -/
def stack (key : α) (pairs : List (α × β)) : List β := (pairs.filter fun pair => pair.1 = key).map Prod.snd

variable {key : α} {value : β} {pairs front back : List (α × β)}

theorem push_append (smaller : ∀ pair ∈ front, pair.1 < key) (larger : ∀ pair ∈ back, key ≤ pair.1) :
    push key value (front ++ back) = front ++ (key, value) :: back := by
  induction front with
  | nil =>
    cases back with
    | nil => rfl
    | cons first rest => exact List.orderedInsert_cons_of_le _ _ (larger first List.mem_cons_self)
  | cons first rest ih =>
    have below := smaller first List.mem_cons_self
    have later := ih fun pair member => smaller pair (List.mem_cons_of_mem _ member)
    rw [push] at later ⊢
    rw [List.cons_append, List.orderedInsert_cons, if_neg (not_le.mpr below), later]
    rfl

theorem pop_append (smaller : ∀ pair ∈ front, pair.1 < key) :
    pop key (front ++ (key, value) :: back) = front ++ back := by
  have absent : ∀ pair ∈ front, ¬ decide (pair.1 = key) = true := by
    intro pair member
    simpa using (smaller pair member).ne
  rw [pop, List.eraseP_append_right _ absent, List.eraseP_cons_of_pos (by simp)]

/-- A sorted list falls apart in front of the pairs of a key. -/
theorem Sorted.exists_append (sorted : Sorted pairs) (key : α) :
    ∃ front back, pairs = front ++ back ∧ (∀ pair ∈ front, pair.1 < key) ∧ ∀ pair ∈ back, key ≤ pair.1 := by
  induction pairs with
  | nil => exact ⟨[], [], rfl, by simp, by simp⟩
  | cons first rest ih =>
    obtain ⟨least, later⟩ := List.pairwise_cons.mp sorted
    by_cases below : first.1 < key
    · obtain ⟨front, back, rfl, smaller, larger⟩ := ih later
      exact ⟨first :: front, back, rfl, by simpa using ⟨below, fun a b => smaller (a, b)⟩, larger⟩
    · refine ⟨[], first :: rest, rfl, by simp, fun pair member => ?_⟩
      rcases List.mem_cons.mp member with rfl | inRest
      · exact not_lt.mp below
      · exact (not_lt.mp below).trans (least pair inRest)

theorem push_perm (key : α) (value : β) (pairs : List (α × β)) : (push key value pairs).Perm ((key, value) :: pairs) :=
  List.perm_orderedInsert _ _ _

theorem Sorted.push (sorted : Sorted pairs) (key : α) (value : β) : Sorted (push key value pairs) := by
  obtain ⟨front, back, rfl, smaller, larger⟩ := sorted.exists_append key
  rw [push_append smaller larger]
  obtain ⟨frontSorted, backSorted, across⟩ := List.pairwise_append.mp sorted
  refine List.pairwise_append.mpr ⟨frontSorted, List.pairwise_cons.mpr ⟨larger, backSorted⟩, fun pair member other => ?_⟩
  rintro (_ | ⟨_, inBack⟩)
  · exact (smaller pair member).le
  · exact across pair member other inBack

theorem stack_eq_nil : stack key pairs = [] ↔ ∀ pair ∈ pairs, pair.1 ≠ key := by
  rw [stack, List.map_eq_nil_iff, List.filter_eq_nil_iff]
  simp only [decide_eq_true_eq]

theorem stack_front (smaller : ∀ pair ∈ front, pair.1 < key) : stack key front = [] :=
  stack_eq_nil.mpr fun pair member => (smaller pair member).ne

@[simp] theorem stack_append (key : α) : stack key (front ++ back) = stack key front ++ stack key back := by
  simp [stack]

@[simp] theorem stack_cons_self : stack key ((key, value) :: pairs) = value :: stack key pairs := by
  simp [stack]

theorem Sorted.exists_first (sorted : Sorted pairs) {top : β} {rest : List β} (found : stack key pairs = top :: rest) :
    ∃ front back, pairs = front ++ (key, top) :: back ∧ (∀ pair ∈ front, pair.1 < key) ∧ (∀ pair ∈ back, key ≤ pair.1) ∧
      stack key back = rest := by
  obtain ⟨front, back, rfl, smaller, larger⟩ := sorted.exists_append key
  have none := stack_front smaller
  rw [stack_append, none, List.nil_append] at found
  cases back with
  | nil => cases found
  | cons first later =>
    obtain ⟨firstKey, firstValue⟩ := first
    by_cases same : firstKey = key
    · subst same
      rw [stack_cons_self] at found
      obtain ⟨rfl, left⟩ := List.cons.inj found
      exact ⟨front, later, rfl, smaller, fun pair member => larger pair (List.mem_cons_of_mem _ member), left⟩
    -- then the key is smaller than all that follow
    · have least : key < firstKey := lt_of_le_of_ne (larger _ List.mem_cons_self) (Ne.symm same)
      obtain ⟨-, backSorted, -⟩ := List.pairwise_append.mp sorted
      have absent : ∀ pair ∈ (firstKey, firstValue) :: later, pair.1 ≠ key := by
        intro pair member
        rcases List.mem_cons.mp member with rfl | inLater
        · exact same
        · exact (least.trans_le ((List.pairwise_cons.mp backSorted).1 pair inLater)).ne'
      rw [stack_eq_nil.mpr absent] at found
      cases found

end SortedPairs
