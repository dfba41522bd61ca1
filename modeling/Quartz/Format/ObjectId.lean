import Quartz.Lib.Block
import Quartz.Status

/-! Object ids and their text form. A string is the list of its characters. -/

namespace Quartz.Format

structure ObjectId where
  bytes : Bytes.Block 16 := .zeros 16
  deriving DecidableEq, Repr

namespace ObjectId

/-- A character that is no hexadecimal digit has no value. -/
def hexToNybble (c : Char) : Option Nat :=
  if '0' ≤ c ∧ c ≤ '9' then some (c.toNat - '0'.toNat)
  else if 'a' ≤ c ∧ c ≤ 'f' then some (c.toNat - 'a'.toNat + 10)
  else if 'A' ≤ c ∧ c ≤ 'F' then some (c.toNat - 'A'.toNat + 10)
  else none

/-- The high half of a byte is assigned, the low half is added to it. -/
def put (id : ObjectId) (hexPos nybble : Nat) : ObjectId where
  bytes :=
    { bytes := id.bytes.bytes.modify (hexPos / 2) fun byte =>
        if hexPos % 2 = 0 then UInt8.ofNat (nybble <<< 4) else byte ||| UInt8.ofNat nybble
      sized := by rw [List.length_modify, id.bytes.sized] }

/-- The loop over the characters: the status, the number of digits, and the id so far. -/
def collect : List Char → Nat → Nat → ObjectId → Status × Nat × ObjectId
  | [], _, hexPos, out => (Status.success, hexPos, out)
  | c :: rest, i, hexPos, out =>
    if c = '-' then collect rest (i + 1) hexPos out
    else
      match hexToNybble c with
      | none =>
        (Status.invalidArgument ("ObjectId: invalid hex character at position " ++ Nat.repr i), hexPos, out)
      | some nybble => collect rest (i + 1) (hexPos + 1) (out.put hexPos nybble)

/-- What the caller's id holds after a failure is what was stored up to it. -/
def fromString (str : List Char) (out : ObjectId) : Status × ObjectId :=
  if str.length ≠ 36 then (Status.invalidArgument "ObjectId: invalid string length (expected 36)", out)
  else if str[8]? ≠ some '-' ∨ str[13]? ≠ some '-' ∨ str[18]? ≠ some '-' ∨ str[23]? ≠ some '-' then
    (Status.invalidArgument "ObjectId: invalid separator positions", out)
  else
    let (status, hexPos, out) := collect str 0 0 out
    if !status.ok then (status, out)
    else if hexPos ≠ 32 then (Status.corruption "ObjectId: unexpected hex digit count", out)
    else (Status.success, out)

def hex : List Char := ['0', '1', '2', '3', '4', '5', '6', '7', '8', '9', 'a', 'b', 'c', 'd', 'e', 'f']

def hexDigit (nybble : Nat) : Char := hex.getD nybble '-'

/-- The loop over the bytes, from the given byte and place in the result. -/
def print : List UInt8 → Nat → Nat → List Char → List Char
  | [], _, _, result => result
  | byte :: rest, i, outIdx, result =>
    let outIdx := if i = 4 ∨ i = 6 ∨ i = 8 ∨ i = 10 then outIdx + 1 else outIdx
    let result := result.set outIdx (hexDigit ((byte >>> 4) &&& 0x0F).toNat)
    let result := result.set (outIdx + 1) (hexDigit (byte &&& 0x0F).toNat)
    print rest (i + 1) (outIdx + 2) result

def toString (id : ObjectId) : List Char := print id.bytes.bytes 0 0 (List.replicate 36 '-')

end ObjectId
end Quartz.Format
