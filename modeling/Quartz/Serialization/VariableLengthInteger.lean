import Quartz.Status

/-! Integers of variable length. The buffers stand for a pointer and its size. -/

namespace Quartz.Serialization.VarInt

def kMaxVarInt32Bytes : Nat := 5

def kMaxVarInt64Bytes : Nat := 10

/-- The loop that fills `buf`, with the number of bytes it may still write. -/
def encodeGroups : Nat → UInt64 → Except Status (List UInt8)
  | 0, _ => .error (Status.invalidArgument "VarInt: value too large for encoding")
  | left + 1, value =>
    let byte := (value &&& 0x7F).toUInt8
    if value >>> 7 ≠ 0 then return (byte ||| 0x80) :: (← encodeGroups left (value >>> 7)) else return [byte]

/-- The status, the output and `bytesWritten`. -/
def encodeImpl (value : UInt64) (out : List UInt8) (maxBytes : Nat) : Status × List UInt8 × Nat :=
  match encodeGroups maxBytes value with
  | .error status => (status, out, 0)
  | .ok buf =>
    if buf.length > out.length then (Status.invalidArgument "VarInt: output buffer too small", out, 0)
    else (Status.success, buf ++ out.drop buf.length, buf.length)

/-- The loop of `decodeImpl`, with the number of rounds that are left. -/
def decodeGroups (input : List UInt8) : Nat → Nat → Nat → UInt64 → Status × UInt64 × Nat
  | 0, i, _, value => (Status.corruption "VarInt: malformed input", value, i)
  | left + 1, i, shift, value =>
    match input[i]? with
    | none => (Status.corruption "VarInt: unexpected end of input", value, i)
    | some byte =>
      let value := value ||| ((byte &&& 0x7F).toUInt64 <<< UInt64.ofNat shift)
      if byte &&& 0x80 = 0 then (Status.success, value, i + 1)
      else if shift + 7 ≥ 64 ∧ byte &&& 0x7F ≠ 0 then (Status.corruption "VarInt: overflow", value, i + 1)
      else decodeGroups input left (i + 1) (shift + 7) value

/-- The status, the value and `bytesConsumed`. -/
def decodeImpl (input : List UInt8) (maxBytes : Nat) : Status × UInt64 × Nat := decodeGroups input maxBytes 0 0 0

def countGroups (value : UInt64) (count : Nat) : Nat :=
  if value ≥ 0x80 then countGroups (value >>> 7) (count + 1) else count
termination_by value.toNat
decreasing_by
  have large : (0x80 : UInt64).toNat ≤ value.toNat := UInt64.le_iff_toNat_le.mp ‹value ≥ 0x80›
  rw [UInt64.toNat_shiftRight, Nat.shiftRight_eq_div_pow]
  exact Nat.div_lt_self (Nat.lt_of_lt_of_le (by decide) large) (by decide)

def encodedSizeImpl (value : UInt64) : Nat := countGroups value 1

def encodeU32 (value : UInt32) (out : List UInt8) : Status × List UInt8 × Nat :=
  encodeImpl value.toUInt64 out kMaxVarInt32Bytes

/-- The value is left as it was when the decoding fails. -/
def decodeU32 (input : List UInt8) (value : UInt32) : Status × UInt32 × Nat :=
  let (status, tmp, bytesConsumed) := decodeImpl input kMaxVarInt32Bytes
  if !status.ok then (status, value, bytesConsumed)
  else if tmp > 0xFFFFFFFF then (Status.corruption "VarInt: value too large for uint32", value, bytesConsumed)
  else (Status.success, tmp.toUInt32, bytesConsumed)

def encodeU64 (value : UInt64) (out : List UInt8) : Status × List UInt8 × Nat := encodeImpl value out kMaxVarInt64Bytes

def decodeU64 (input : List UInt8) : Status × UInt64 × Nat := decodeImpl input kMaxVarInt64Bytes

/-- Both shifts are shifts of the unsigned value. -/
def zigzag32 (value : Int32) : UInt32 := (value.toUInt32 <<< 1) ^^^ (value.toUInt32 >>> 31)

def encodeS32 (value : Int32) (out : List UInt8) : Status × List UInt8 × Nat := encodeU32 (zigzag32 value) out

def decodeS32 (input : List UInt8) (value : Int32) : Status × Int32 × Nat :=
  let (status, zigzag, bytesConsumed) := decodeU32 input 0
  if !status.ok then (status, value, bytesConsumed)
  else (Status.success, ((zigzag >>> 1) ^^^ (-(zigzag &&& 1).toInt32).toUInt32).toInt32, bytesConsumed)

def zigzag64 (value : Int64) : UInt64 := (value.toUInt64 <<< 1) ^^^ (value.toUInt64 >>> 63)

def encodeS64 (value : Int64) (out : List UInt8) : Status × List UInt8 × Nat := encodeU64 (zigzag64 value) out

def decodeS64 (input : List UInt8) (value : Int64) : Status × Int64 × Nat :=
  let (status, zigzag, bytesConsumed) := decodeU64 input
  if !status.ok then (status, value, bytesConsumed)
  else (Status.success, ((zigzag >>> 1) ^^^ (-(zigzag &&& 1).toInt64).toUInt64).toInt64, bytesConsumed)

def encodedSizeU32 (value : UInt32) : Nat := encodedSizeImpl value.toUInt64

def encodedSizeU64 (value : UInt64) : Nat := encodedSizeImpl value

def encodedSizeS32 (value : Int32) : Nat := encodedSizeImpl (zigzag32 value).toUInt64

def encodedSizeS64 (value : Int64) : Nat := encodedSizeImpl (zigzag64 value)

end Quartz.Serialization.VarInt
