import Mathlib.Data.Nat.Init
import Mathlib.Tactic.Ring

/-! Fixed-width little-endian words. A word of width `w` is a list of `w` bytes;
encoding truncates to that width and decoding is its left inverse. -/

namespace Bytes

/-- The `width` low bytes of a number, least significant first. -/
def encode : Nat → Nat → List UInt8
  | 0, _ => []
  | width + 1, value => UInt8.ofNat value :: encode width (value / 256)

def decode : List UInt8 → Nat
  | [] => 0
  | byte :: rest => byte.toNat + 256 * decode rest

@[simp] theorem encode_length (width value : Nat) : (encode width value).length = width := by
  induction width generalizing value with
  | zero => rfl
  | succ width ih => simp [encode, ih]

theorem decode_lt (bytes : List UInt8) : decode bytes < 256 ^ bytes.length := by
  induction bytes with
  | nil => simp [decode]
  | cons byte rest ih =>
    have small := byte.toNat_lt
    simp only [decode, List.length_cons, Nat.pow_succ]
    omega

theorem byte_ofNat (value : Nat) : (UInt8.ofNat value).toNat = value % 256 := by simp

theorem decode_encode (width value : Nat) : decode (encode width value) = value % 256 ^ width := by
  induction width generalizing value with
  | zero => simp [encode, decode, Nat.mod_one]
  | succ width ih =>
    rw [encode, decode, ih, byte_ofNat, Nat.pow_succ, Nat.mul_comm (256 ^ width) 256, Nat.mod_mul]

theorem decode_encode_of_lt {width value : Nat} (small : value < 256 ^ width) :
    decode (encode width value) = value := by
  rw [decode_encode, Nat.mod_eq_of_lt small]

theorem decode_append (first second : List UInt8) :
    decode (first ++ second) = decode first + 256 ^ first.length * decode second := by
  induction first with
  | nil => simp [decode]
  | cons byte rest ih =>
    simp only [List.cons_append, decode, ih, List.length_cons, Nat.pow_succ]
    ring

@[simp] theorem decode_zeros (count : Nat) : decode (List.replicate count 0) = 0 := by
  induction count with
  | zero => rfl
  | succ count ih => simp [List.replicate_succ, decode, ih]

theorem decode_take (bytes : List UInt8) (kept : Nat) : decode (bytes.take kept) = decode bytes % 256 ^ kept := by
  rcases Nat.le_total kept bytes.length with inside | outside
  · have length : (bytes.take kept).length = kept := by simp [inside]
    have small := decode_lt (bytes.take kept)
    have split := decode_append (bytes.take kept) (bytes.drop kept)
    rw [List.take_append_drop, length] at split
    rw [length] at small
    rw [split, Nat.add_mul_mod_self_left, Nat.mod_eq_of_lt small]
  · have small := Nat.lt_of_lt_of_le (decode_lt bytes) (Nat.pow_le_pow_right (by omega) outside)
    rw [List.take_of_length_le outside, Nat.mod_eq_of_lt small]

theorem encode_decode (bytes : List UInt8) : encode bytes.length (decode bytes) = bytes := by
  induction bytes with
  | nil => rfl
  | cons byte rest ih =>
    have small := byte.toNat_lt
    rw [List.length_cons, encode, decode]
    congr 1
    · rw [← UInt8.toNat_inj, byte_ofNat]
      omega
    · rw [show (byte.toNat + 256 * decode rest) / 256 = decode rest by omega, ih]

/-- The number at a place in a block of bytes. -/
def field (bytes : List UInt8) (start width : Nat) : Nat := decode ((bytes.drop start).take width)

theorem field_lt (bytes : List UInt8) (start width : Nat) : field bytes start width < 256 ^ width :=
  Nat.lt_of_lt_of_le (decode_lt _) (Nat.pow_le_pow_right (by omega) (List.length_take_le _ _))

@[simp] theorem field_drop (bytes : List UInt8) (skipped start width : Nat) :
    field (bytes.drop skipped) start width = field bytes (skipped + start) width := by
  rw [field, field, List.drop_drop]

theorem field_append_right {front rest : List UInt8} {start width : Nat} (past : front.length ≤ start) :
    field (front ++ rest) start width = field rest (start - front.length) width := by
  rw [field, field, List.drop_append, List.drop_of_length_le past, List.nil_append]

theorem field_append_left {front rest : List UInt8} {start width : Nat} (inside : start + width ≤ front.length) :
    field (front ++ rest) start width = field front start width := by
  rw [field, field, List.drop_append_of_le_length (by omega), List.take_append_of_le_length (by rw [List.length_drop]; omega)]

theorem field_encode (width value : Nat) (rest : List UInt8) :
    field (encode width value ++ rest) 0 width = value % 256 ^ width := by
  rw [field, List.drop_zero, List.take_append_of_le_length (by simp), List.take_of_length_le (by simp), decode_encode]

theorem encode_field {bytes : List UInt8} {start width : Nat} (inside : start + width ≤ bytes.length) :
    encode width (field bytes start width) = (bytes.drop start).take width := by
  have length : ((bytes.drop start).take width).length = width := by
    simp only [List.length_take, List.length_drop]
    omega
  calc encode width (field bytes start width)
      = encode ((bytes.drop start).take width).length (decode ((bytes.drop start).take width)) := by rw [length]; rfl
    _ = (bytes.drop start).take width := encode_decode _

theorem field_cut {bytes : List UInt8} {start width cut zeros : Nat} (inside : start + width ≤ bytes.length)
    (covered : start + width ≤ min cut bytes.length + zeros) :
    field (bytes.take cut ++ List.replicate zeros 0) start width = field bytes start width % 256 ^ (cut - start) := by
  have slice : ((bytes.take cut ++ List.replicate zeros (0 : UInt8)).drop start).take width =
      (((bytes.drop start).take width).take (cut - start)) ++ List.replicate (width - (cut - start)) 0 := by
    rw [List.drop_append, List.drop_take, List.take_append, List.take_take, List.take_take, Nat.min_comm,
      List.drop_replicate, List.take_replicate]
    congr 2
    simp only [List.length_take, List.length_drop]
    omega
  rw [field, slice, decode_append, decode_zeros, Nat.mul_zero, Nat.add_zero, decode_take]
  rfl

/-- A number that is not zero has such a byte. -/
theorem exists_byte_of_field {bytes : List UInt8} {start width : Nat} (positive : field bytes start width ≠ 0) :
    ∃ place, start ≤ place ∧ place < start + width ∧ bytes[place]?.getD 0 ≠ 0 := by
  by_contra none
  refine positive ?_
  have zeros : (bytes.drop start).take width = List.replicate ((bytes.drop start).take width).length 0 := by
    apply List.eq_replicate_of_mem
    intro byte member
    obtain ⟨index, inside, found⟩ := List.getElem_of_mem member
    by_contra nonzero
    rw [List.length_take, List.length_drop] at inside
    refine none ⟨start + index, Nat.le_add_right _ _, by omega, ?_⟩
    rw [List.getElem_take, List.getElem_drop] at found
    rw [List.getElem?_eq_getElem (by omega), Option.getD_some, found]
    exact nonzero
  rw [field, zeros, decode_zeros]

/-- The bytes above those a number needs are zero. -/
theorem encode_high {width value used place : Nat} (small : value < 256 ^ used) (high : used ≤ place) :
    (encode width value)[place]?.getD 0 = 0 := by
  induction width generalizing value used place with
  | zero => rfl
  | succ width ih =>
    cases place with
    | zero =>
      obtain rfl : used = 0 := Nat.le_zero.mp high
      obtain rfl : value = 0 := by simpa using small
      rfl
    | succ place =>
      rw [encode, List.getElem?_cons_succ]
      cases used with
      | zero =>
        have lower : value / 256 < 256 ^ 0 := by
          rw [Nat.pow_zero] at small ⊢
          omega
        exact ih lower (Nat.zero_le _)
      | succ used =>
        have lower : value / 256 < 256 ^ used := by
          rw [Nat.pow_succ] at small
          omega
        exact ih lower (Nat.le_of_succ_le_succ high)

end Bytes
