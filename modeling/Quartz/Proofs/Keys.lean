import Quartz.Proofs.Decoding
import Quartz.Proofs.KeyOrder

/-! Keys on their own: the comparison is a total order that the hash respects, what is
written is read back, and the searches over sorted keys count them. The searches run on
64-bit positions and end after at most 64 tests with no read outside the keys. -/

namespace Quartz.Btree
open Serialization

namespace Key

theorem compare_opposite (first second : Key) : (first.compare second).sign = -(second.compare first).sign := by
  rcases lt_trichotomy first second with below | rfl | above
  · rw [Int.sign_eq_neg_one_of_neg (compare_lt_zero.mpr below), Int.sign_eq_one_of_pos (compare_pos.mpr below)]
  · rw [compare_eq_zero.mpr rfl]
    rfl
  · rw [Int.sign_eq_one_of_pos (compare_pos.mpr above), Int.sign_eq_neg_one_of_neg (compare_lt_zero.mpr above)]
    rfl

theorem binarySize_binary {bytes : List UInt8} (fits : bytes.length ≤ kMaxBinaryKeySize) :
    (binary bytes fits).binarySize.toNat = bytes.length :=
  UInt16.toNat_ofNat_of_lt' (Nat.lt_of_le_of_lt fits (by decide))

theorem length_serialize (key : Key) : key.serialize.length = key.serializedSize := by
  cases key with
  | uint32 value | uint64 value => simp [serialize, serializedSize]
  | binary bytes fits =>
    simp only [serialize, serializedSize, List.length_append, Bytes.encode_length, binarySize_binary fits]
    omega

theorem sized_of_binarySize {key : Key} {binaryKeySize : UInt16}
    (size : binaryKeySize = 0 ∨ binaryKeySize = key.binarySize) : key.sized binaryKeySize = true := by
  rcases size with rfl | rfl
  · exact key.sized_zero
  · cases key with
    | uint32 value => rfl
    | uint64 value => rfl
    | binary bytes fits => simp [sized, binarySize_binary fits]

/-- Keys are equal when their types and payloads are. -/
theorem key_order_and_wire_format :
    (∀ first second : Key, (first.compare second).sign = -(second.compare first).sign) ∧
      (∀ first second third : Key, first.compare second < 0 → second.compare third < 0 → first.compare third < 0) ∧
      (∀ first second : Key, first.compare second = 0 ↔ first = second) ∧
      (∀ first second : Key, first.compare second = 0 → first.hash = second.hash) ∧
      ∀ key : Key, key.serialize.length = key.serializedSize ∧
        ∀ (binaryKeySize : UInt16) (suffix : List UInt8), binaryKeySize = 0 ∨ binaryKeySize = key.binarySize →
          (key.serialize ++ suffix).length < sizeLimit →
          ∃ after, (deserialize binaryKeySize).run { view := key.serialize ++ suffix } = .ok (key, after) ∧
            after.view.drop after.offset = suffix := by
  refine ⟨compare_opposite, fun first second third => ?_, fun _ _ => compare_eq_zero, fun first second same => ?_,
    fun key => ⟨key.length_serialize, fun binaryKeySize suffix size bounded => ?_⟩⟩
  · simp only [compare_lt_zero]
    exact lt_trans
  · rw [compare_eq_zero.mp same]
  · have decoded := key.decodes_deserialize (sized_of_binarySize size) (key.serialize ++ suffix) 0 suffix rfl
      (Nat.zero_le _) bounded
    exact ⟨_, decoded, by simp⟩

end Key

namespace KeyComparator

variable {keys : List Key} {rounds : Nat}

theorem lowerBoundWord_eq (small : keys.length < 2 ^ 63) (enough : 64 ≤ rounds) (key : Key) :
    (lowerBoundWord rounds keys key).map UInt64.toNat = some (lowerBound keys key) :=
  Search.wordLowerBound_eq small _ enough

theorem upperBoundWord_eq (small : keys.length < 2 ^ 63) (enough : 64 ≤ rounds) (key : Key) :
    (upperBoundWord rounds keys key).map UInt64.toNat = some (upperBound keys key) :=
  Search.wordLowerBound_eq small _ enough

theorem findWord_eq (small : keys.length < 2 ^ 63) (enough : 64 ≤ rounds) (key : Key) :
    (findWord rounds keys key).map UInt64.toNat = some (find keys key) := by
  have length : (UInt64.ofNat keys.length).toNat = keys.length :=
    UInt64.toNat_ofNat_of_lt' (Nat.lt_trans small (by decide))
  obtain ⟨pos, found, place⟩ := Option.map_eq_some_iff.mp (lowerBoundWord_eq small enough key)
  by_cases inside : pos.toNat < keys.length
  · have less : pos < UInt64.ofNat keys.length := by rwa [UInt64.lt_iff_toNat_lt, length]
    simp only [findWord, found, Option.bind_eq_bind, Option.bind_some, less, if_true, List.getElem?_eq_getElem inside, find,
      ← place, Option.any_some]
    split
    · rfl
    · exact congrArg some length
  · have past : ¬ pos < UInt64.ofNat keys.length := by rwa [UInt64.lt_iff_toNat_lt, length]
    simp only [findWord, found, Option.bind_eq_bind, Option.bind_some, past, if_false, find, ← place,
      List.getElem?_eq_none (Nat.not_lt.mp inside), Option.any_none, Bool.false_eq_true]
    exact congrArg some length

theorem find_eq_findIdx (sorted : keys.Pairwise (· ≤ ·)) (key : Key) :
    find keys key = keys.findIdx fun item => equal item key := by
  rcases find_cases sorted key with ⟨front, back, rfl, place, smaller⟩ | ⟨missing, place⟩
  · have none : front.findIdx (fun item => equal item key) = front.length :=
      List.findIdx_eq_length_of_false fun item member => by simp [(smaller item member).ne]
    rw [place, List.findIdx_append, none, if_neg (Nat.lt_irrefl _)]
    simp [List.findIdx_cons]
  · rw [place, List.findIdx_eq_length_of_false]
    intro item member
    simp only [equal_eq, decide_eq_false_iff_not]
    rintro rfl
    exact missing member

/-- On sorted keys the three searches end with no read outside the keys: the first two with the
number of smaller keys and of keys not larger, the last with the first place of the key or
with the number of keys. -/
theorem binary_search_is_exact (keys : List Key) (sorted : keys.Pairwise fun first second => first.compare second ≤ 0)
    (small : keys.length < 2 ^ 63) (key : Key) (rounds : Nat) (enough : 64 ≤ rounds) :
    (lowerBoundWord rounds keys key).map UInt64.toNat = some (keys.countP fun item => item.compare key < 0) ∧
      (upperBoundWord rounds keys key).map UInt64.toNat = some (keys.countP fun item => item.compare key ≤ 0) ∧
      (findWord rounds keys key).map UInt64.toNat = some (keys.findIdx fun item => item.compare key == 0) := by
  have ordered : keys.Pairwise (· ≤ ·) := sorted.imp Key.compare_le_zero.mp
  refine ⟨?_, ?_, ?_⟩
  · rw [lowerBoundWord_eq small enough]
    exact congrArg some (splits_less ordered key).lowerBound_eq_countP
  · rw [upperBoundWord_eq small enough]
    exact congrArg some (splits_lessEqual ordered key).lowerBound_eq_countP
  · rw [findWord_eq small enough]
    exact congrArg some (find_eq_findIdx ordered key)

/-- Among equal keys and keys of two types. -/
theorem binary_search_is_exact_among_equals :
    let keys : List Key := [.uint32 3, .uint32 7, .uint32 7, .uint64 1]
    (lowerBoundWord 64 keys (.uint32 7)).map UInt64.toNat = some 1 ∧
      (upperBoundWord 64 keys (.uint32 7)).map UInt64.toNat = some 3 ∧
      (findWord 64 keys (.uint32 7)).map UInt64.toNat = some 1 :=
  binary_search_is_exact [.uint32 3, .uint32 7, .uint32 7, .uint64 1] (by decide) (by decide) (.uint32 7) 64 (by decide)

end KeyComparator
end Quartz.Btree
