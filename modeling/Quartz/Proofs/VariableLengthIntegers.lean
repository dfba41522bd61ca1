import Mathlib.Data.Nat.Bitwise
import Quartz.Lib.Groups
import Quartz.Serialization.VariableLengthInteger

/-! Integers of variable length: encoding, decoding and the size function all go by the groups of seven bits of the
number. The signed forms turn the sign bit into the lowest one with a shift of the unsigned value, which loses every
negative number. -/

namespace Quartz.Serialization.VarInt

variable {value : UInt64}

private theorem toNat_shiftRight_seven (value : UInt64) : (value >>> 7).toNat = value.toNat / 128 := by
  rw [UInt64.toNat_shiftRight, Nat.shiftRight_eq_div_pow]
  rfl

private theorem shiftRight_seven_ne_zero : value >>> 7 ≠ 0 ↔ 128 ≤ value.toNat := by
  rw [ne_eq, ← UInt64.toNat_inj, toNat_shiftRight_seven, UInt64.toNat_zero]
  omega

private theorem toNat_low (value : UInt64) : (value &&& 0x7F).toUInt8.toNat = value.toNat % 128 := by
  rw [UInt64.toNat_toUInt8, UInt64.toNat_and, show (0x7F : UInt64).toNat = 2 ^ 7 - 1 from rfl, Nat.and_two_pow_sub_one_eq_mod]
  omega

private theorem toNat_marked {byte : UInt8} (low : byte.toNat < 128) : (byte ||| 0x80).toNat = byte.toNat + 128 := by
  rw [UInt8.toNat_or, show (0x80 : UInt8).toNat = 2 ^ 7 * 1 from rfl, Nat.or_comm, ← Nat.two_pow_add_eq_or_of_lt low]
  omega

private theorem toNat_unmarked (byte : UInt8) : (byte &&& 0x7F).toNat = byte.toNat % 128 := by
  rw [UInt8.toNat_and, show (0x7F : UInt8).toNat = 2 ^ 7 - 1 from rfl, Nat.and_two_pow_sub_one_eq_mod]

private theorem mark_eq_zero {byte : UInt8} : byte &&& 0x80 = 0 ↔ byte.toNat < 128 := by
  have small := byte.toNat_lt
  rw [← UInt8.toNat_inj, UInt8.toNat_and, show (0x80 : UInt8).toNat = 2 ^ 7 from rfl, Nat.and_two_pow,
    Nat.testBit_eq_decide_div_mod_eq, UInt8.toNat_zero, Nat.mul_eq_zero, Bool.toNat_eq_zero, decide_eq_false_iff_not]
  omega

theorem encodeGroups_eq (left : Nat) (value : UInt64) :
    encodeGroups left value = if Groups.count value.toNat ≤ left then .ok (Groups.bytes value.toNat)
      else .error (Status.invalidArgument "VarInt: value too large for encoding") := by
  induction left generalizing value with
  | zero => rw [encodeGroups, if_neg (Nat.not_le.mpr (Groups.count_pos _))]
  | succ left ih =>
    rw [encodeGroups]
    split
    next more =>
      have large := shiftRight_seven_ne_zero.mp more
      have head : (value &&& 0x7F).toUInt8 ||| 0x80 = UInt8.ofNat (value.toNat % 128 + 128) := by
        rw [← UInt8.toNat_inj, toNat_marked (by rw [toNat_low]; omega), toNat_low, UInt8.toNat_ofNat']
        omega
      rw [ih, toNat_shiftRight_seven, Groups.count_more large, Groups.bytes_more large, head]
      simp only [Nat.add_le_add_iff_right]
      split <;> rfl
    next last =>
      have small : value.toNat < 128 := Nat.not_le.mp fun large => last (shiftRight_seven_ne_zero.mpr large)
      have head : (value &&& 0x7F).toUInt8 = UInt8.ofNat value.toNat := by
        rw [← UInt8.toNat_inj, toNat_low, UInt8.toNat_ofNat']
        omega
      rw [Groups.count_last small, Groups.bytes_last small, head, if_pos (by omega)]
      rfl

theorem countGroups_eq (value : UInt64) (count : Nat) : countGroups value count + 1 = count + Groups.count value.toNat := by
  induction value, count using countGroups.induct with
  | case1 value count large ih =>
    rw [countGroups, if_pos large, ih, toNat_shiftRight_seven, Groups.count_more (UInt64.le_iff_toNat_le.mp large)]
    omega
  | case2 value count small =>
    rw [countGroups, if_neg small, Groups.count_last (Nat.not_le.mp fun large => small (UInt64.le_iff_toNat_le.mpr large))]

theorem encodedSizeImpl_eq (value : UInt64) : encodedSizeImpl value = Groups.count value.toNat := by
  have counted := countGroups_eq value 1
  rw [encodedSizeImpl]
  omega

/-- The encoding succeeds when the number's groups are within the limit and there is room for them. -/
theorem encodeImpl_eq {maxBytes : Nat} (within : Groups.count value.toNat ≤ maxBytes) (out : List UInt8) :
    encodeImpl value out maxBytes =
      if Groups.count value.toNat ≤ out.length then
        (Status.success, Groups.bytes value.toNat ++ out.drop (Groups.count value.toNat), Groups.count value.toNat)
      else (Status.invalidArgument "VarInt: output buffer too small", out, 0) := by
  rw [encodeImpl, encodeGroups_eq, if_pos within]
  simp only [Groups.length_bytes, gt_iff_lt, ← Nat.not_le, ite_not]

section Decoding

variable {input : List UInt8} {left i shift sum : Nat} {byte : UInt8}

private theorem joined_eq (below : sum < 2 ^ shift) (narrow : shift < 64) :
    UInt64.ofNat sum ||| ((byte &&& 0x7F).toUInt64 <<< UInt64.ofNat shift) =
      UInt64.ofNat (sum + byte.toNat % 128 * 2 ^ shift) := by
  have amount : (UInt64.ofNat shift).toNat % 64 = shift := by
    rw [UInt64.toNat_ofNat']
    omega
  have group : (byte &&& 0x7F).toUInt64 <<< UInt64.ofNat shift = UInt64.ofNat (2 ^ shift * (byte.toNat % 128)) := by
    rw [← UInt64.toNat_inj, UInt64.toNat_shiftLeft, amount, UInt8.toNat_toUInt64, toNat_unmarked, Nat.shiftLeft_eq,
      Nat.mul_comm, UInt64.toNat_ofNat']
  rw [group, ← UInt64.ofNat_or, Nat.or_comm, ← Nat.two_pow_add_eq_or_of_lt below, Nat.add_comm, Nat.mul_comm]

private theorem decodeGroups_last (here : input[i]? = some byte) (last : byte.toNat < 128) (below : sum < 2 ^ shift)
    (narrow : shift < 64) :
    decodeGroups input (left + 1) i shift (UInt64.ofNat sum) =
      (Status.success, UInt64.ofNat (sum + byte.toNat % 128 * 2 ^ shift), i + 1) := by
  rw [decodeGroups, here]
  simp only [mark_eq_zero, last, if_true, joined_eq below narrow]

private theorem decodeGroups_more (here : input[i]? = some byte) (more : 128 ≤ byte.toNat) (below : sum < 2 ^ shift)
    (narrow : shift + 7 < 64) :
    decodeGroups input (left + 1) i shift (UInt64.ofNat sum) =
      decodeGroups input left (i + 1) (shift + 7) (UInt64.ofNat (sum + byte.toNat % 128 * 2 ^ shift)) := by
  rw [decodeGroups, here]
  simp only [mark_eq_zero, joined_eq below (by omega)]
  rw [if_neg (Nat.not_lt.mpr more), if_neg fun late => absurd late.1 (Nat.not_le.mpr narrow)]

theorem decodeGroups_numeral {bytes : List UInt8} (found : Groups.numeral (input.drop i) = some bytes)
    (room : bytes.length ≤ left) (below : sum < 2 ^ shift) (narrow : shift + 7 * left ≤ 70) :
    decodeGroups input left i shift (UInt64.ofNat sum) =
      (Status.success, UInt64.ofNat (sum + Groups.value bytes * 2 ^ shift), i + bytes.length) := by
  induction left generalizing i shift sum bytes with
  | zero =>
    obtain ⟨front, last, -, -, rfl, -⟩ := Groups.numeral_eq_some.mp found
    simp at room
  | succ left ih =>
    cases here : input.drop i with
    | nil =>
      rw [here] at found
      cases found
    | cons byte rest =>
      have at_i : input[i]? = some byte := by
        rw [← List.head?_drop, here]
        rfl
      rw [here] at found
      rcases Nat.lt_or_ge byte.toNat 128 with low | high
      · rw [Groups.numeral_last low] at found
        cases found
        rw [decodeGroups_last at_i low below (by omega), Groups.value, Groups.value]
        rfl
      · rw [Groups.numeral_more high, Option.map_eq_some_iff] at found
        obtain ⟨bytes, found, rfl⟩ := found
        obtain ⟨front, last, -, -, rfl, -⟩ := Groups.numeral_eq_some.mp found
        -- another byte follows, so its shift is below the width
        have more : 1 ≤ left := by
          simp only [List.length_cons, List.length_append] at room
          omega
        have below' : sum + byte.toNat % 128 * 2 ^ shift < 2 ^ (shift + 7) := by
          have : byte.toNat % 128 * 2 ^ shift ≤ 127 * 2 ^ shift := Nat.mul_le_mul_right _ (by omega)
          have step : 2 ^ (shift + 7) = 128 * 2 ^ shift := by ring
          omega
        rw [decodeGroups_more at_i high below (by omega), ih (by rw [← List.tail_drop, here, List.tail_cons]; exact found)
          (by simpa using room) below' (by omega), Groups.value]
        simp only [Prod.mk.injEq, true_and, List.length_cons]
        exact ⟨congrArg UInt64.ofNat (by ring), by omega⟩

theorem decodeGroups_ok {value : UInt64} (done : (decodeGroups input left i shift value).1.ok = true) :
    ∃ bytes, Groups.numeral (input.drop i) = some bytes ∧ bytes.length ≤ left := by
  induction left generalizing i shift value with
  | zero => cases done
  | succ left ih =>
    rw [decodeGroups] at done
    split at done
    · cases done
    next byte here =>
      obtain ⟨inside, rfl⟩ := List.getElem?_eq_some_iff.mp here
      rw [List.drop_eq_getElem_cons inside]
      simp only [mark_eq_zero] at done
      split at done
      next low => exact ⟨_, Groups.numeral_last low, by simp⟩
      next high =>
        split at done
        · cases done
        · obtain ⟨bytes, found, room⟩ := ih done
          refine ⟨input[i] :: bytes, ?_, Nat.succ_le_succ room⟩
          rw [Groups.numeral_more (Nat.not_lt.mp high), found]
          rfl

theorem decodeImpl_eq {maxBytes : Nat} (few : maxBytes ≤ 10) {bytes : List UInt8} (found : Groups.numeral input = some bytes)
    (room : bytes.length ≤ maxBytes) :
    decodeImpl input maxBytes = (Status.success, UInt64.ofNat (Groups.value bytes), bytes.length) := by
  have read := @decodeGroups_numeral input maxBytes 0 0 0 bytes found room (by decide) (by omega)
  simpa [decodeImpl] using read

theorem decodeImpl_ok_iff {maxBytes : Nat} (few : maxBytes ≤ 10) :
    (decodeImpl input maxBytes).1.ok = true ↔ ∃ bytes, Groups.numeral input = some bytes ∧ bytes.length ≤ maxBytes := by
  constructor
  · exact decodeGroups_ok
  · rintro ⟨bytes, found, room⟩
    rw [decodeImpl_eq few found room]
    rfl

theorem decodeImpl_bytes {maxBytes : Nat} (few : maxBytes ≤ 10) (within : Groups.count value.toNat ≤ maxBytes) (suffix : List UInt8) :
    decodeImpl (Groups.bytes value.toNat ++ suffix) maxBytes = (Status.success, value, Groups.count value.toNat) := by
  obtain ⟨found, number⟩ := Groups.numeral_bytes value.toNat suffix
  rw [decodeImpl_eq few found (by rwa [Groups.length_bytes]), number, UInt64.ofNat_toNat, Groups.length_bytes]

theorem decodeImpl_front {front : List UInt8} {number : Nat} (begins : front <+: Groups.bytes number)
    (proper : front ≠ Groups.bytes number) {maxBytes : Nat} (few : maxBytes ≤ 10) : (decodeImpl front maxBytes).1.ok = false := by
  refine Bool.eq_false_iff.mpr fun done => ?_
  obtain ⟨bytes, found, -⟩ := (decodeImpl_ok_iff few).mp done
  rw [Groups.numeral_high (Groups.high_of_prefix begins proper)] at found
  cases found

end Decoding

/-- What an encoder, a decoder and a size function of one type have to do together. A decoder is given the value that
it leaves when it fails. -/
structure Codes {α : Type} (encode : α → List UInt8 → Status × List UInt8 × Nat)
    (decode : List UInt8 → α → Status × α × Nat) (encodedSize : α → Nat) : Prop where
  ok_iff : ∀ value out, (encode value out).1.ok = true ↔ encodedSize value ≤ out.length
  written : ∀ value out, (encode value out).1.ok = true → ∃ bytes, bytes.length = encodedSize value ∧
    (encode value out).2 = (bytes ++ out.drop (encodedSize value), encodedSize value) ∧
    (∀ front, front <+: bytes → front ≠ bytes → ∀ old, (decode front old).1.ok = false) ∧
    ∀ suffix old, decode (bytes ++ suffix) old = (Status.success, value, encodedSize value)
  refused : ∀ value out, (encode value out).1.ok = false → (encode value out).2 = (out, 0)

/-- A type whose numbers are encoded by their groups. -/
theorem codes_of_groups {α : Type} {encode : α → List UInt8 → Status × List UInt8 × Nat}
    {decode : List UInt8 → α → Status × α × Nat} {encodedSize : α → Nat} (number : α → UInt64) (maxBytes : Nat) (few : maxBytes ≤ 10)
    (within : ∀ value, Groups.count (number value).toNat ≤ maxBytes)
    (encodes : ∀ value out, encode value out = encodeImpl (number value) out maxBytes)
    (sizes : ∀ value, encodedSize value = encodedSizeImpl (number value))
    (decodes : ∀ input value count old, decodeImpl input maxBytes = (Status.success, number value, count) →
      decode input old = (Status.success, value, count))
    (fails : ∀ input old, (decodeImpl input maxBytes).1.ok = false → (decode input old).1.ok = false) :
    Codes encode decode encodedSize := by
  have size : ∀ value, encodedSize value = Groups.count (number value).toNat := fun value => by
    rw [sizes, encodedSizeImpl_eq]
  have encoded := fun value out => (encodes value out).trans (encodeImpl_eq (within value) out)
  refine ⟨fun value out => ?_, fun value out done => ?_, fun value out failed => ?_⟩
  · rw [encoded, size]
    split
    next room => exact iff_of_true rfl room
    next full => exact iff_of_false Bool.false_ne_true full
  · rw [encoded] at done ⊢
    rw [size]
    split at done
    next room =>
      rw [if_pos room]
      refine ⟨Groups.bytes (number value).toNat, Groups.length_bytes _, rfl, fun front begins proper old => ?_, fun suffix old => ?_⟩
      · exact fails front old (decodeImpl_front begins proper few)
      · exact decodes _ value _ old (decodeImpl_bytes few (within value) suffix)
    next => cases done
  · rw [encoded] at failed ⊢
    split at failed
    next => cases failed
    next full => rw [if_neg full]

theorem count_le_five (value : UInt32) : Groups.count value.toUInt64.toNat ≤ kMaxVarInt32Bytes := by
  have small := value.toNat_lt
  rw [Groups.count_le_iff (by decide), UInt32.toNat_toUInt64]
  simp only [kMaxVarInt32Bytes]
  omega

theorem count_le_ten (value : UInt64) : Groups.count value.toNat ≤ kMaxVarInt64Bytes := by
  have small := value.toNat_lt
  rw [Groups.count_le_iff (by decide)]
  simp only [kMaxVarInt64Bytes]
  omega

theorem codesU32 : Codes encodeU32 decodeU32 encodedSizeU32 := by
  refine codes_of_groups UInt32.toUInt64 kMaxVarInt32Bytes (by decide) count_le_five (fun _ _ => rfl) (fun _ => rfl)
    (fun input value count old read => ?_) (fun input old failed => ?_)
  · have small : ¬ value.toUInt64 > 0xFFFFFFFF := by
      have := value.toNat_lt
      rw [gt_iff_lt, UInt64.lt_iff_toNat_lt, UInt32.toNat_toUInt64, show (0xFFFFFFFF : UInt64).toNat = 2 ^ 32 - 1 from rfl]
      omega
    simp [decodeU32, read, small]
  · simp [decodeU32, failed]

theorem codesU64 : Codes encodeU64 (fun input _ => decodeU64 input) encodedSizeU64 :=
  codes_of_groups id kMaxVarInt64Bytes (by decide) count_le_ten (fun _ _ => rfl) (fun _ => rfl) (fun _ _ _ _ read => read)
    fun _ _ failed => failed

/-- The unsigned encodings can be read back, and no beginning of one can. -/
theorem unsigned_round_trip :
    Codes encodeU32 decodeU32 encodedSizeU32 ∧ Codes encodeU64 (fun input _ => decodeU64 input) encodedSizeU64 :=
  ⟨codesU32, codesU64⟩

/-- The decoder succeeds exactly when a numeral of at most this many bytes and below the limit stands at the front,
and then it has read that number and its bytes. -/
structure ReadsExactly {α : Type} (toNat : α → Nat) (limit maxBytes : Nat) (input : List UInt8) (outcome : Status × α × Nat) :
    Prop where
  ok_iff : outcome.1.ok = true ↔
    ∃ bytes, Groups.numeral input = some bytes ∧ bytes.length ≤ maxBytes ∧ Groups.value bytes < limit
  value : outcome.1.ok = true → ∀ bytes, Groups.numeral input = some bytes → toNat outcome.2.1 = Groups.value bytes
  consumed : outcome.1.ok = true → ∀ bytes, Groups.numeral input = some bytes → outcome.2.2 = bytes.length

section Exactness

variable {α : Type} {toNat : α → Nat} {limit maxBytes : Nat} {input bytes : List UInt8}

theorem readsExactly_success (found : Groups.numeral input = some bytes) (few : bytes.length ≤ maxBytes)
    (fits : Groups.value bytes < limit) {value : α} (number : toNat value = Groups.value bytes) :
    ReadsExactly toNat limit maxBytes input (Status.success, value, bytes.length) := by
  refine ⟨iff_of_true rfl ⟨bytes, found, few, fits⟩, fun _ other same => ?_, fun _ other same => ?_⟩
  · cases found.symm.trans same
    exact number
  · cases found.symm.trans same
    rfl

theorem readsExactly_failure {outcome : Status × α × Nat} (failed : outcome.1.ok = false)
    (none : ∀ bytes, Groups.numeral input = some bytes → bytes.length ≤ maxBytes → limit ≤ Groups.value bytes) :
    ReadsExactly toNat limit maxBytes input outcome := by
  rw [← Bool.not_eq_true] at failed
  refine ⟨iff_of_false failed ?_, fun done => absurd done failed, fun done => absurd done failed⟩
  rintro ⟨bytes, found, few, fits⟩
  exact absurd (none bytes found few) (Nat.not_le.mpr fits)

theorem value_lt_of_length {count : Nat} (few : bytes.length ≤ count) : Groups.value bytes < 128 ^ count :=
  Nat.lt_of_lt_of_le (Groups.value_lt bytes) (Nat.pow_le_pow_right (by decide) few)

theorem decodeU32_exact (input : List UInt8) (old : UInt32) :
    ReadsExactly UInt32.toNat (2 ^ 32) kMaxVarInt32Bytes input (decodeU32 input old) := by
  by_cases some : ∃ bytes, Groups.numeral input = some bytes ∧ bytes.length ≤ kMaxVarInt32Bytes
  · obtain ⟨bytes, found, few⟩ := some
    have small : Groups.value bytes < 128 ^ 5 := value_lt_of_length few
    have number : (UInt64.ofNat (Groups.value bytes)).toNat = Groups.value bytes := by
      rw [UInt64.toNat_ofNat']
      omega
    have large : UInt64.ofNat (Groups.value bytes) > 0xFFFFFFFF ↔ 2 ^ 32 ≤ Groups.value bytes := by
      rw [gt_iff_lt, UInt64.lt_iff_toNat_lt, number, show (0xFFFFFFFF : UInt64).toNat = 2 ^ 32 - 1 from rfl]
      omega
    rw [decodeU32, decodeImpl_eq (by decide) found few]
    dsimp only
    rw [if_neg (by decide)]
    split
    next tooLarge =>
      refine readsExactly_failure rfl fun other same _ => ?_
      cases found.symm.trans same
      exact large.mp tooLarge
    next fits =>
      rw [large, Nat.not_le] at fits
      exact readsExactly_success found few fits (by rw [UInt64.toNat_toUInt32, number, Nat.mod_eq_of_lt fits])
  · have none := Bool.eq_false_iff.mpr fun done => some ((decodeImpl_ok_iff (by decide)).mp done)
    exact readsExactly_failure (by simp [decodeU32, none]) fun bytes found few => absurd ⟨bytes, found, few⟩ some

/-- The tenth byte is the last of a numeral and has more than the one bit that is left for it. -/
def Overflows (input : List UInt8) : Prop :=
  ∃ last, input[9]? = some last ∧ 2 ≤ last.toNat ∧ last.toNat < 128 ∧ ∀ byte ∈ input.take 9, 128 ≤ byte.toNat

theorem overflows_iff : Overflows input ↔
    ∃ bytes, Groups.numeral input = some bytes ∧ bytes.length ≤ kMaxVarInt64Bytes ∧ 2 ^ 64 ≤ Groups.value bytes := by
  constructor
  · rintro ⟨last, here, large, low, high⟩
    obtain ⟨inside, rfl⟩ := List.getElem?_eq_some_iff.mp here
    have length : (input.take 9).length = 9 := by simp; omega
    refine ⟨input.take 9 ++ [input[9]], Groups.numeral_eq_some.mpr ⟨input.take 9, input[9], input.drop 10, ?_, rfl, high, low⟩, ?_, ?_⟩
    · rw [← List.drop_eq_getElem_cons inside, List.take_append_drop]
    · simp [kMaxVarInt64Bytes]
    · rw [Groups.value_append, length, Groups.value, Groups.value]
      omega
  · rintro ⟨bytes, found, few, large⟩
    obtain ⟨front, last, suffix, rfl, rfl, high, low⟩ := Groups.numeral_eq_some.mp found
    simp only [kMaxVarInt64Bytes, List.length_append, List.length_singleton] at few
    have nine : front.length = 9 := by
      by_contra other
      have small : Groups.value (front ++ [last]) < 128 ^ 9 := value_lt_of_length (by simp; omega)
      omega
    have rest := Groups.value_lt front
    rw [Groups.value_append, nine, Groups.value, Groups.value] at large
    rw [nine] at rest
    refine ⟨last, by rw [← nine]; simp, by omega, low, ?_⟩
    rw [← nine, List.take_left']
    · exact high
    · rfl

/-- A number of 32 bits is always decoded exactly. A number of 64 bits is, exactly when the tenth byte does not end it
with more than one bit. -/
theorem decoding_is_exact_iff (input : List UInt8) :
    (∀ old, ReadsExactly UInt32.toNat (2 ^ 32) kMaxVarInt32Bytes input (decodeU32 input old)) ∧
      (ReadsExactly UInt64.toNat (2 ^ 64) kMaxVarInt64Bytes input (decodeU64 input) ↔ ¬ Overflows input) := by
  refine ⟨decodeU32_exact input, ?_⟩
  rw [overflows_iff]
  constructor
  · rintro exactly ⟨bytes, found, few, large⟩
    have done := (decodeImpl_ok_iff (by decide)).mpr ⟨bytes, found, few⟩
    obtain ⟨other, same, -, fits⟩ := exactly.ok_iff.mp done
    cases found.symm.trans same
    exact absurd fits (Nat.not_lt.mpr large)
  · intro fits
    by_cases some : ∃ bytes, Groups.numeral input = some bytes ∧ bytes.length ≤ kMaxVarInt64Bytes
    · obtain ⟨bytes, found, few⟩ := some
      have small : Groups.value bytes < 2 ^ 64 := Nat.not_le.mp fun large => fits ⟨bytes, found, few, large⟩
      rw [decodeU64, decodeImpl_eq (by decide) found few]
      exact readsExactly_success found few small (by rw [UInt64.toNat_ofNat', Nat.mod_eq_of_lt small])
    · have none := Bool.eq_false_iff.mpr fun done => some ((decodeImpl_ok_iff (by decide)).mp done)
      exact readsExactly_failure none fun bytes found few => absurd ⟨bytes, found, few⟩ some

/-- Nine bytes of zero bits and a tenth with the second bit are 2 to the power of 64, and decoded to zero. -/
theorem tenth_byte_is_cut_off :
    decodeU64 (List.replicate 9 0x80 ++ [2]) = (Status.success, 0, 10) ∧
      Groups.numeral (List.replicate 9 0x80 ++ [2]) = some (List.replicate 9 0x80 ++ [2]) ∧
      Groups.value (List.replicate 9 0x80 ++ [2]) = 2 ^ 64 ∧
      ¬ ReadsExactly UInt64.toNat (2 ^ 64) kMaxVarInt64Bytes (List.replicate 9 0x80 ++ [2])
        (decodeU64 (List.replicate 9 0x80 ++ [2])) := by
  have found : Groups.numeral (List.replicate 9 0x80 ++ [2]) = some (List.replicate 9 0x80 ++ [2]) := by decide
  have number : Groups.value (List.replicate 9 0x80 ++ [2]) = 2 ^ 64 := by decide
  have read : decodeU64 (List.replicate 9 0x80 ++ [2]) = (Status.success, 0, 10) := by decide +kernel
  refine ⟨read, found, number, fun exactly => ?_⟩
  rw [read] at exactly
  have wrong := exactly.value rfl _ found
  rw [number] at wrong
  cases wrong

end Exactness

/-! The signed forms, over bits of any width. -/

section ZigZag

variable {width : Nat} {bits : BitVec width}

def folded (bits : BitVec width) : BitVec width := (bits <<< 1) ^^^ (bits >>> (width - 1))

def unfolded (bits : BitVec width) : BitVec width := (bits >>> 1) ^^^ -(bits &&& 1)

private theorem folded_of_nonneg (nonneg : bits.msb = false) : folded bits = bits <<< 1 := by
  have none : bits >>> (width - 1) = 0 := by
    rw [← BitVec.toNat_inj, BitVec.toNat_ushiftRight, Nat.shiftRight_eq_div_pow]
    exact Nat.div_eq_of_lt (BitVec.toNat_lt_of_msb_false nonneg)
  rw [folded, none, BitVec.ofNat_eq_ofNat, BitVec.xor_zero]

theorem toNat_folded (nonneg : bits.msb = false) : (folded bits).toNat = 2 * bits.toNat := by
  have small := BitVec.msb_eq_false_iff_two_mul_lt.mp nonneg
  rw [folded_of_nonneg nonneg, BitVec.toNat_shiftLeft, Nat.shiftLeft_eq, Nat.pow_one, Nat.mul_comm, Nat.mod_eq_of_lt small]

private theorem getLsbD_unfolded_folded (wide : 1 < width) :
    (unfolded (folded bits)).getLsbD 0 = (bits.getLsbD 0 ^^ bits.msb) := by
  have sign : (folded bits).getLsbD 0 = bits.msb := by simp [folded, BitVec.msb_eq_getLsbD_last]
  have lowest : (folded bits).getLsbD 1 = bits.getLsbD 0 := by
    have above : bits.getLsbD (width - 1 + 1) = false := BitVec.getLsbD_of_ge _ _ (by omega)
    rw [folded, BitVec.getLsbD_xor, BitVec.getLsbD_shiftLeft, BitVec.getLsbD_ushiftRight, above]
    simp [wide]
  have some : 0 < width := by omega
  rw [unfolded, BitVec.getLsbD_xor, BitVec.getLsbD_ushiftRight, BitVec.getLsbD_neg, BitVec.getLsbD_and, sign, Nat.add_zero, lowest]
  simp [some]

theorem unfolded_folded_iff (wide : 1 < width) : unfolded (folded bits) = bits ↔ bits.msb = false := by
  constructor
  · intro same
    have lowest : (unfolded (folded bits)).getLsbD 0 = _ := getLsbD_unfolded_folded wide
    rw [same] at lowest
    revert lowest
    cases bits.msb <;> cases bits.getLsbD 0 <;> decide
  · intro nonneg
    have even : folded bits &&& 1 = 0 := by
      have one : (1 : BitVec width).toNat = 1 := Nat.mod_eq_of_lt (Nat.one_lt_two_pow (by omega))
      rw [← BitVec.toNat_inj, BitVec.toNat_and, toNat_folded nonneg, one, Nat.and_one_is_mod, Nat.mul_mod_right]
      rfl
    rw [unfolded, even, ← BitVec.toNat_inj]
    simp [toNat_folded nonneg, Nat.shiftRight_eq_div_pow]

end ZigZag

/-- The value is read back from what was written for it, which has the length that the size function says and not more
than the bytes that numbers of its magnitude are allowed. -/
structure RoundTrips {α : Type} (encode : α → List UInt8 → Status × List UInt8 × Nat)
    (decode : List UInt8 → α → Status × α × Nat) (encodedSize : α → Nat) (toInt : α → Int) (value : α) : Prop where
  ok_iff : ∀ out, (encode value out).1.ok = true ↔ encodedSize value ≤ out.length
  read : ∀ out, (encode value out).1.ok = true → ∀ suffix old,
    decode ((encode value out).2.1.take (encode value out).2.2 ++ suffix) old =
      (Status.success, value, (encode value out).2.2)
  length : ∀ out, (encode value out).1.ok = true → (encode value out).2.2 = encodedSize value
  bound : ∀ out, (encode value out).1.ok = true → ∀ k, 0 < k → -2 ^ (7 * k - 1) ≤ toInt value →
    toInt value < 2 ^ (7 * k - 1) → (encode value out).2.2 ≤ k

/-- A signed type that is encoded as an unsigned one. -/
theorem roundTrips_iff {α β : Type} {encode : α → List UInt8 → Status × List UInt8 × Nat}
    {decode : List UInt8 → α → Status × α × Nat} {encodedSize : α → Nat} {toInt : α → Int}
    {encodeU : β → List UInt8 → Status × List UInt8 × Nat} {decodeU : List UInt8 → β → Status × β × Nat}
    {encodedSizeU : β → Nat} (codes : Codes encodeU decodeU encodedSizeU) (zigzag : α → β) (unzigzag : β → α)
    (initial : β) (encodes : ∀ value out, encode value out = encodeU (zigzag value) out)
    (sizes : ∀ value, encodedSize value = encodedSizeU (zigzag value))
    (decodes : ∀ input old number count, decodeU input initial = (Status.success, number, count) →
      decode input old = (Status.success, unzigzag number, count))
    (value : α) (inverse : unzigzag (zigzag value) = value ↔ 0 ≤ toInt value)
    (magnitude : 0 ≤ toInt value → encodedSizeU (zigzag value) = Groups.count (2 * (toInt value).toNat)) :
    RoundTrips encode decode encodedSize toInt value ↔ 0 ≤ toInt value := by
  have ok : ∀ out, (encode value out).1.ok = true ↔ encodedSize value ≤ out.length := fun out => by
    rw [encodes, sizes, codes.ok_iff]
  have back : ∀ out, (encode value out).1.ok = true → (encode value out).2.2 = encodedSize value ∧ ∀ suffix old,
      decode ((encode value out).2.1.take (encode value out).2.2 ++ suffix) old =
        (Status.success, unzigzag (zigzag value), (encode value out).2.2) := by
    intro out done
    rw [encodes] at done
    obtain ⟨bytes, length, after, -, read⟩ := codes.written (zigzag value) out done
    rw [encodes, after, sizes]
    refine ⟨rfl, fun suffix old => ?_⟩
    simp only [List.take_left' length]
    exact decodes _ old _ _ (read suffix initial)
  constructor
  · intro trips
    have room := (ok (List.replicate (encodedSize value) 0)).mpr (by rw [List.length_replicate])
    have same := (back _ room).2 [] value
    rw [trips.read _ room] at same
    exact inverse.mp (Prod.mk.inj (Prod.mk.inj same).2).1.symm
  · intro nonneg
    refine ⟨ok, fun out done suffix old => ?_, fun out done => (back out done).1, fun out done k some _ below => ?_⟩
    · rw [(back out done).2, inverse.mpr nonneg]
    · rw [(back out done).1, sizes, magnitude nonneg, Groups.count_le_iff some]
      have doubled : 2 ^ (7 * k) = 2 * 2 ^ (7 * k - 1) := by
        rw [← Nat.pow_succ', Nat.succ_eq_add_one, Nat.sub_add_cancel (by omega)]
      rw [doubled]
      have half : (toInt value).toNat < 2 ^ (7 * k - 1) := (Int.toNat_lt nonneg).mpr (by exact_mod_cast below)
      omega

private theorem folded_bits {width : Nat} (wide : 1 < width) (bits : BitVec width) :
    (unfolded (folded bits) = bits ↔ 0 ≤ bits.toInt) ∧
      (0 ≤ bits.toInt → (folded bits).toNat = 2 * bits.toInt.toNat) := by
  have sign : bits.msb = false ↔ 0 ≤ bits.toInt := by
    rw [BitVec.msb_eq_toInt, decide_eq_false_iff_not, Int.not_lt]
  refine ⟨(unfolded_folded_iff wide).trans sign, fun nonneg => ?_⟩
  rw [toNat_folded (sign.mpr nonneg), BitVec.toInt_eq_toNat_of_msb (sign.mpr nonneg), Int.toNat_natCast]

private theorem toBitVec_zigzag32 (value : Int32) : (zigzag32 value).toBitVec = folded value.toBitVec := by
  simp [zigzag32, folded]

private theorem toBitVec_zigzag64 (value : Int64) : (zigzag64 value).toBitVec = folded value.toBitVec := by
  simp [zigzag64, folded]

/-- A signed value is read back exactly when it is not negative. -/
theorem signed_round_trip_iff (value : Int32) (wide : Int64) :
    (RoundTrips encodeS32 decodeS32 encodedSizeS32 Int32.toInt value ↔ 0 ≤ value.toInt) ∧
      (RoundTrips encodeS64 decodeS64 encodedSizeS64 Int64.toInt wide ↔ 0 ≤ wide.toInt) := by
  constructor
  · obtain ⟨inverse, magnitude⟩ := folded_bits (by decide) value.toBitVec
    refine roundTrips_iff codesU32 zigzag32
      (fun zigzag => ((zigzag >>> 1) ^^^ (-(zigzag &&& 1).toInt32).toUInt32).toInt32) 0 (fun _ _ => rfl) (fun _ => rfl)
      (fun input old number count read => by simp [decodeS32, read]) value ?_ fun nonneg => ?_
    · rw [← Int32.toBitVec_inj, ← Int32.toInt_toBitVec, ← inverse]
      simp [← toBitVec_zigzag32, unfolded]
    · rw [encodedSizeU32, encodedSizeImpl_eq, UInt32.toNat_toUInt64, ← Int32.toInt_toBitVec, ← magnitude nonneg,
        ← toBitVec_zigzag32, UInt32.toNat_toBitVec]
  · obtain ⟨inverse, magnitude⟩ := folded_bits (by decide) wide.toBitVec
    refine roundTrips_iff codesU64 zigzag64
      (fun zigzag => ((zigzag >>> 1) ^^^ (-(zigzag &&& 1).toInt64).toUInt64).toInt64) 0 (fun _ _ => rfl) (fun _ => rfl)
      (fun input old number count read => by simp [decodeS64, read]) wide ?_ fun nonneg => ?_
    · rw [← Int64.toBitVec_inj, ← Int64.toInt_toBitVec, ← inverse]
      simp [← toBitVec_zigzag64, unfolded]
    · rw [encodedSizeU64, encodedSizeImpl_eq, ← Int64.toInt_toBitVec, ← magnitude nonneg, ← toBitVec_zigzag64, UInt64.toNat_toBitVec]

/-- The number -1 is read back as the least number of its width. -/
theorem negative_number_is_not_read_back :
    (encodeS32 (-1) (List.replicate 5 0)).1.ok = true ∧
      decodeS32 ((encodeS32 (-1) (List.replicate 5 0)).2.1.take (encodeS32 (-1) (List.replicate 5 0)).2.2) 0 =
        (Status.success, -2147483648, 5) ∧
      (encodeS64 (-1) (List.replicate 10 0)).1.ok = true ∧
      decodeS64 ((encodeS64 (-1) (List.replicate 10 0)).2.1.take (encodeS64 (-1) (List.replicate 10 0)).2.2) 0 =
        (Status.success, -9223372036854775808, 10) := by
  decide +kernel

end Quartz.Serialization.VarInt
