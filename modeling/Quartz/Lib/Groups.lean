import Mathlib.Data.List.Basic
import Mathlib.Tactic.Ring

/-! Numbers as groups of seven bits, least significant first, one group a byte. Every byte but the last has its high
bit set, so no beginning of a number's bytes is itself the bytes of a number. -/

namespace Groups

/-- How many groups a number has; zero has one. -/
def count (number : Nat) : Nat := if number < 128 then 1 else count (number / 128) + 1

def bytes (number : Nat) : List UInt8 :=
  if number < 128 then [UInt8.ofNat number] else UInt8.ofNat (number % 128 + 128) :: bytes (number / 128)

variable {number : Nat}

theorem bytes_last (small : number < 128) : bytes number = [UInt8.ofNat number] := by rw [bytes, if_pos small]

theorem bytes_more (large : 128 ≤ number) :
    bytes number = UInt8.ofNat (number % 128 + 128) :: bytes (number / 128) := by rw [bytes, if_neg (Nat.not_lt.mpr large)]

theorem count_last (small : number < 128) : count number = 1 := by rw [count, if_pos small]

theorem count_more (large : 128 ≤ number) : count number = count (number / 128) + 1 := by
  rw [count, if_neg (Nat.not_lt.mpr large)]

theorem count_pos (number : Nat) : 0 < count number := by
  rw [count]
  split <;> omega

@[simp] theorem length_bytes (number : Nat) : (bytes number).length = count number := by
  induction number using bytes.induct with
  | case1 number small => rw [bytes_last small, count_last small, List.length_singleton]
  | case2 number large ih =>
    rw [bytes_more (Nat.not_lt.mp large), count_more (Nat.not_lt.mp large), List.length_cons, ih]

theorem count_le_iff {groups : Nat} (some : 0 < groups) : count number ≤ groups ↔ number < 2 ^ (7 * groups) := by
  induction number using count.induct generalizing groups with
  | case1 number small =>
    have room : 2 ^ 7 ≤ 2 ^ (7 * groups) := Nat.pow_le_pow_right (by decide) (by omega)
    rw [count_last small]
    omega
  | case2 number large ih =>
    rw [count_more (Nat.not_lt.mp large)]
    cases groups with
    | zero => omega
    | succ fewer =>
      rcases Nat.eq_zero_or_pos fewer with rfl | more
      · have least := count_pos (number / 128)
        simp only [Nat.zero_add, Nat.mul_one]
        omega
      · have step : 2 ^ (7 * (fewer + 1)) = 128 * 2 ^ (7 * fewer) := by ring
        rw [Nat.add_le_add_iff_right, ih more, step, Nat.div_lt_iff_lt_mul (by decide), Nat.mul_comm]

theorem high_of_prefix {front : List UInt8} (begins : front <+: bytes number) (proper : front ≠ bytes number) :
    ∀ byte ∈ front, 128 ≤ byte.toNat := by
  induction number using bytes.induct generalizing front with
  | case1 number small =>
    rw [bytes_last small] at begins proper
    rcases List.prefix_cons_iff.mp begins with rfl | ⟨rest, rfl, ended⟩
    · simp
    · exact absurd (by rw [List.prefix_nil.mp ended]) proper
  | case2 number large ih =>
    rw [bytes_more (Nat.not_lt.mp large)] at begins proper
    rcases List.prefix_cons_iff.mp begins with rfl | ⟨rest, rfl, later⟩
    · simp
    · intro byte member
      rcases List.mem_cons.mp member with rfl | member
      · rw [UInt8.toNat_ofNat']
        omega
      · exact ih later (fun same => proper (by rw [same])) byte member

/-- The bytes up to and including the first one without the high bit. -/
def numeral : List UInt8 → Option (List UInt8)
  | [] => none
  | byte :: rest => if byte.toNat < 128 then some [byte] else (numeral rest).map (byte :: ·)

def value : List UInt8 → Nat
  | [] => 0
  | byte :: rest => byte.toNat % 128 + 128 * value rest

variable {byte : UInt8} {input rest : List UInt8}

theorem numeral_last (low : byte.toNat < 128) : numeral (byte :: rest) = some [byte] := by rw [numeral, if_pos low]

theorem numeral_more (high : 128 ≤ byte.toNat) : numeral (byte :: rest) = (numeral rest).map (byte :: ·) := by
  rw [numeral, if_neg (Nat.not_lt.mpr high)]

/-- A numeral consists of bytes with the high bit and a last one without it. -/
theorem numeral_eq_some : numeral input = some rest ↔
    ∃ front last suffix, input = front ++ last :: suffix ∧ rest = front ++ [last] ∧ (∀ byte ∈ front, 128 ≤ byte.toNat) ∧
      last.toNat < 128 := by
  induction input generalizing rest with
  | nil => simp [numeral]
  | cons byte input ih =>
    rcases Nat.lt_or_ge byte.toNat 128 with low | high
    · rw [numeral_last low, Option.some.injEq]
      constructor
      · rintro rfl
        exact ⟨[], byte, input, rfl, rfl, by simp, low⟩
      · rintro ⟨front, last, suffix, parts, rfl, high, -⟩
        cases front with
        | nil =>
          cases parts
          rfl
        | cons first front =>
          cases parts
          exact absurd (high byte List.mem_cons_self) (Nat.not_le.mpr low)
    · rw [numeral_more high, Option.map_eq_some_iff]
      constructor
      · rintro ⟨bytes, found, rfl⟩
        obtain ⟨front, last, suffix, rfl, rfl, above, below⟩ := ih.mp found
        exact ⟨byte :: front, last, suffix, rfl, rfl, List.forall_mem_cons.mpr ⟨high, above⟩, below⟩
      · rintro ⟨front, last, suffix, parts, rfl, above, below⟩
        cases front with
        | nil =>
          cases parts
          exact absurd below (Nat.not_lt.mpr high)
        | cons first front =>
          cases parts
          refine ⟨front ++ [last], ih.mpr ⟨front, last, suffix, rfl, rfl, ?_, below⟩, rfl⟩
          exact (List.forall_mem_cons.mp above).2

theorem numeral_high (high : ∀ byte ∈ input, 128 ≤ byte.toNat) : numeral input = none := by
  cases found : numeral input with
  | none => rfl
  | some bytes =>
    obtain ⟨front, last, suffix, rfl, -, -, low⟩ := numeral_eq_some.mp found
    exact absurd (high last (by simp)) (Nat.not_le.mpr low)

theorem numeral_bytes (number : Nat) (suffix : List UInt8) :
    numeral (bytes number ++ suffix) = some (bytes number) ∧ value (bytes number) = number := by
  induction number using bytes.induct with
  | case1 number small =>
    have low : (UInt8.ofNat number).toNat = number := by
      rw [UInt8.toNat_ofNat']
      omega
    rw [bytes_last small, List.singleton_append, numeral_last (by omega), value, value, low]
    exact ⟨rfl, by omega⟩
  | case2 number large ih =>
    have high : (UInt8.ofNat (number % 128 + 128)).toNat = number % 128 + 128 := by
      rw [UInt8.toNat_ofNat']
      omega
    rw [bytes_more (Nat.not_lt.mp large), List.cons_append, numeral_more (by omega), ih.1, value, ih.2, high]
    exact ⟨rfl, by omega⟩

theorem value_append (first second : List UInt8) :
    value (first ++ second) = value first + 128 ^ first.length * value second := by
  induction first with
  | nil => simp [value]
  | cons byte first ih =>
    simp only [List.cons_append, value, ih, List.length_cons, Nat.pow_succ]
    ring

theorem value_lt (bytes : List UInt8) : value bytes < 128 ^ bytes.length := by
  induction bytes with
  | nil => simp [value]
  | cons byte rest ih =>
    simp only [value, List.length_cons, Nat.pow_succ]
    omega

end Groups
