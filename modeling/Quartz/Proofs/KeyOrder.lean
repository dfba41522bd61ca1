import Mathlib.Data.List.Lex
import Mathlib.Order.Lex
import Quartz.Btree.Key

/-! The comparison of keys is that of a linear order, so a search over sorted keys splits
them at the key. -/

namespace Quartz.Btree
namespace Key

/-- A key as a word over the numbers: its type, then its value or its bytes. -/
def rank : Key → List Nat
  | .uint32 value => [1, value.toNat]
  | .uint64 value => [2, value.toNat]
  | .binary bytes _ => 3 :: bytes.map UInt8.toNat

theorem rank_injective : Function.Injective rank := by
  intro first second same
  cases first <;> cases second <;> simp [rank] at same
  · rw [UInt32.toNat_inj.mp same]
  · rw [UInt64.toNat_inj.mp same]
  · congr
    exact (List.map_injective_iff.mpr fun _ _ => UInt8.toNat_inj.mp) same

instance : LinearOrder Key where
  le first second := rank first ≤ rank second
  lt first second := rank first < rank second
  le_refl _ := le_refl _
  le_trans _ _ _ := le_trans
  lt_iff_le_not_ge _ _ := lt_iff_le_not_ge
  le_antisymm _ _ below above := rank_injective (le_antisymm below above)
  le_total _ _ := le_total _ _
  toDecidableLE first second := inferInstanceAs (Decidable (rank first ≤ rank second))
  toDecidableLT first second := inferInstanceAs (Decidable (rank first < rank second))
  toDecidableEq := inferInstance

/-- The sign of a comparison in a linear order. -/
def Signs (sign : Int) (first second : List Nat) : Prop :=
  (sign < 0 ↔ first < second) ∧ (sign = 0 ↔ first = second)

theorem signs_cons {sign : Int} {head : Nat} {first second : List Nat} :
    Signs sign (head :: first) (head :: second) ↔ Signs sign first second := by
  simp [Signs]

theorem signs_heads {first second : Nat} {firsts seconds : List Nat} {rest : Int}
    (later : first = second → Signs rest firsts seconds) :
    Signs (if first < second then -1 else if second < first then 1 else rest) (first :: firsts) (second :: seconds) := by
  rcases Nat.lt_trichotomy first second with less | rfl | more
  · simp [Signs, less, List.cons_lt_cons_iff, Nat.ne_of_lt less]
  · simpa [signs_cons] using later rfl
  · simp [Signs, more, Nat.not_lt_of_lt more, List.cons_lt_cons_iff, (Nat.ne_of_lt more).symm]

theorem signs_nil : Signs 0 [] [] := by simp [Signs]

theorem signs_compareBytes (first second : List UInt8) :
    Signs (compareBytes first second) (first.map UInt8.toNat) (second.map UInt8.toNat) := by
  induction first generalizing second with
  | nil => cases second <;> simp [compareBytes, Signs]
  | cons byte rest ih =>
    cases second with
    | nil => simp [compareBytes, Signs]
    | cons other others => exact signs_heads fun _ => ih others

theorem signs_compare (first second : Key) : Signs (first.compare second) first.rank second.rank := by
  cases first <;> cases second
  case uint32.uint32 => exact signs_cons.mpr (signs_heads fun _ => signs_nil)
  case uint64.uint64 => exact signs_cons.mpr (signs_heads fun _ => signs_nil)
  case binary.binary => exact signs_cons.mpr (signs_compareBytes _ _)
  all_goals simp [compare, rank, type, KeyType.byte, Signs, List.cons_lt_cons_iff]

variable {first second : Key}

theorem compare_lt_zero : first.compare second < 0 ↔ first < second := (signs_compare first second).1

theorem compare_eq_zero : first.compare second = 0 ↔ first = second :=
  (signs_compare first second).2.trans rank_injective.eq_iff

theorem compare_le_zero : first.compare second ≤ 0 ↔ first ≤ second := by
  rw [Int.le_iff_lt_or_eq, compare_lt_zero, compare_eq_zero, ← le_iff_lt_or_eq]

theorem compare_pos : 0 < first.compare second ↔ second < first := by
  rw [← not_le, compare_le_zero, not_le]

end Key

namespace KeyComparator

variable {first second : Key}

@[simp] theorem less_eq : less first second = decide (first < second) := by
  rw [less, decide_eq_decide]
  exact Key.compare_lt_zero

@[simp] theorem equal_eq : equal first second = decide (first = second) := by
  rw [Bool.eq_iff_iff, equal, beq_iff_eq, decide_eq_true_eq]
  exact Key.compare_eq_zero

@[simp] theorem greater_eq : greater first second = decide (second < first) := by
  rw [greater, decide_eq_decide]
  exact Key.compare_pos

@[simp] theorem lessEqual_eq : lessEqual first second = decide (first ≤ second) := by
  rw [lessEqual, decide_eq_decide]
  exact Key.compare_le_zero

theorem splits_less {keys : List Key} (sorted : keys.Pairwise (· ≤ ·)) (key : Key) :
    Search.Splits (fun item => less item key) keys := by
  refine sorted.imp fun {first second} ordered below => ?_
  simp only [less_eq, decide_eq_true_eq] at below ⊢
  exact ordered.trans_lt below

theorem splits_lessEqual {keys : List Key} (sorted : keys.Pairwise (· ≤ ·)) (key : Key) :
    Search.Splits (fun item => lessEqual item key) keys := by
  refine sorted.imp fun {first second} ordered below => ?_
  simp only [lessEqual_eq, decide_eq_true_eq] at below ⊢
  exact ordered.trans below

/-- Sorted keys fall apart at a key, and the search finds the place. -/
theorem lowerBound_splits {keys : List Key} (sorted : keys.Pairwise (· ≤ ·)) (key : Key) :
    ∃ front back, keys = front ++ back ∧ lowerBound keys key = front.length ∧ (∀ item ∈ front, item < key) ∧
      (∀ item ∈ back, key ≤ item) := by
  obtain ⟨front, back, rfl, inFront, behind⟩ := (splits_less sorted key).exists_append
  exact ⟨front, back, rfl, Search.lowerBound_append inFront behind, fun item member => by simpa using inFront item member,
    fun item member => by simpa using behind item member⟩

theorem upperBound_splits {keys : List Key} (sorted : keys.Pairwise (· ≤ ·)) (key : Key) :
    ∃ front back, keys = front ++ back ∧ upperBound keys key = front.length ∧ (∀ item ∈ front, item ≤ key) ∧
      (∀ item ∈ back, key < item) := by
  obtain ⟨front, back, rfl, inFront, behind⟩ := (splits_lessEqual sorted key).exists_append
  exact ⟨front, back, rfl, Search.lowerBound_append inFront behind, fun item member => by simpa using inFront item member,
    fun item member => by simpa using behind item member⟩

/-- A search over sorted keys, some of them equal: the first of the equal ones stands where the
key is found, or it is not there. -/
theorem find_cases {keys : List Key} (sorted : keys.Pairwise (· ≤ ·)) (key : Key) :
    (∃ front back, keys = front ++ key :: back ∧ find keys key = front.length ∧ ∀ item ∈ front, item < key) ∨
      key ∉ keys ∧ find keys key = keys.length := by
  obtain ⟨front, back, rfl, place, smaller, larger⟩ := lowerBound_splits sorted key
  cases back with
  | nil =>
    refine .inr ⟨fun member => ?_, ?_⟩
    · exact lt_irrefl key (smaller key (by simpa using member))
    · rw [find, place]
      simp
  | cons first rest =>
    by_cases same : first = key
    · subst same
      exact .inl ⟨front, rest, rfl, by simp [find, place], smaller⟩
    · refine .inr ⟨fun member => ?_, by simp [find, place, same]⟩
      have least : key < first := lt_of_le_of_ne (larger first List.mem_cons_self) (Ne.symm same)
      rcases List.mem_append.mp member with member | member
      · exact lt_irrefl key (smaller key member)
      · rcases List.mem_cons.mp member with rfl | member
        · exact same rfl
        · have ordered := (List.pairwise_cons.mp (List.pairwise_append.mp sorted).2.1).1 key member
          exact not_lt_of_ge ordered least

/-- A search over sorted keys: the key stands where it is found, or it is not there. -/
theorem find_splits {keys : List Key} (sorted : keys.Pairwise (· < ·)) (key : Key) :
    (∃ front back, keys = front ++ key :: back ∧ find keys key = front.length) ∨
      key ∉ keys ∧ find keys key = keys.length := by
  rcases find_cases (sorted.imp le_of_lt) key with ⟨front, back, parts, place, -⟩ | missing
  · exact .inl ⟨front, back, parts, place⟩
  · exact .inr missing

end KeyComparator
end Quartz.Btree
