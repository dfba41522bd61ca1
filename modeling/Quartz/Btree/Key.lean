import Quartz.Lib.Search
import Quartz.Serialization.BinaryReader

/-! Keys: a tagged number or a short string of bytes, their three-way comparison, the
searches over sorted keys and the wire format. -/

namespace Quartz.Btree
open Serialization

def kMaxBinaryKeySize : Nat := 256

/-- A configuration read from a page may name a type that does not exist. -/
inductive KeyType where
  | uint32
  | uint64
  | binary
  | other (byte : UInt8)
  deriving DecidableEq, Repr

namespace KeyType

def byte : KeyType → UInt8
  | .uint32 => 1
  | .uint64 => 2
  | .binary => 3
  | .other byte => byte

def ofByte (byte : UInt8) : KeyType :=
  if byte = 1 then .uint32 else if byte = 2 then .uint64 else if byte = 3 then .binary else .other byte

end KeyType

/-- The storage of a key holds at most `kMaxBinaryKeySize` bytes. -/
inductive Key where
  | uint32 (value : UInt32)
  | uint64 (value : UInt64)
  | binary (bytes : List UInt8) (fits : bytes.length ≤ kMaxBinaryKeySize)
  deriving DecidableEq, Repr

namespace Key

def type : Key → KeyType
  | .uint32 _ => .uint32
  | .uint64 _ => .uint64
  | .binary _ _ => .binary

/-- The common bytes decide, then the lengths. -/
def compareBytes : List UInt8 → List UInt8 → Int
  | [], [] => 0
  | [], _ :: _ => -1
  | _ :: _, [] => 1
  | first :: firsts, second :: seconds =>
    if first < second then -1 else if first > second then 1 else compareBytes firsts seconds

def compare : Key → Key → Int
  | .uint32 first, .uint32 second => if first < second then -1 else if first > second then 1 else 0
  | .uint64 first, .uint64 second => if first < second then -1 else if first > second then 1 else 0
  | .binary first _, .binary second _ => compareBytes first second
  | first, second => if first.type.byte < second.type.byte then -1 else 1

def binarySize : Key → UInt16
  | .binary bytes _ => UInt16.ofNat bytes.length
  | _ => 0

def serializedSize : Key → Nat
  | .uint32 _ => 1 + 4
  | .uint64 _ => 1 + 8
  | .binary bytes fits => 1 + 2 + (binary bytes fits).binarySize.toNat

def mix (hash value : UInt64) : UInt64 :=
  hash ^^^ (value + (0x9e3779b9 : UInt64) + (hash <<< (6 : UInt64)) + (hash >>> (2 : UInt64)))

def hash (key : Key) : UInt64 :=
  match key with
  | .uint32 value => mix key.type.byte.toUInt64 value.toUInt64
  | .uint64 value => mix key.type.byte.toUInt64 value
  | .binary bytes _ => bytes.foldl (fun hash byte => mix hash byte.toUInt64) key.type.byte.toUInt64

/-- The bytes a key hands to its writer. -/
def serialize (key : Key) : List UInt8 :=
  Bytes.encode 1 key.type.byte.toNat ++
    match key with
    | .uint32 value => Bytes.encode 4 value.toNat
    | .uint64 value => Bytes.encode 8 value.toNat
    | .binary bytes _ => Bytes.encode 2 bytes.length ++ bytes

/-- The blocks these bytes are handed over in. -/
def blocks (key : Key) : List (List UInt8) :=
  Bytes.encode 1 key.type.byte.toNat ::
    match key with
    | .uint32 value => [Bytes.encode 4 value.toNat]
    | .uint64 value => [Bytes.encode 8 value.toNat]
    | .binary bytes _ => [Bytes.encode 2 bytes.length, bytes]

@[simp] theorem flatten_blocks (key : Key) : key.blocks.flatten = key.serialize := by
  cases key with
  | uint32 value => simp [blocks, serialize]
  | uint64 value => simp [blocks, serialize]
  | binary bytes fits => simp [blocks, serialize]

/-- The size of a binary key is checked against the configured one when that is set. -/
def deserialize (binaryKeySize : UInt16) : Decoder Key := do
  let typeByte ← BinaryReader.read 1
  match KeyType.ofByte (UInt8.ofNat typeByte) with
  | .uint32 => return .uint32 (UInt32.ofNat (← BinaryReader.read 4))
  | .uint64 => return .uint64 (UInt64.ofNat (← BinaryReader.read 8))
  | .binary =>
    let size ← BinaryReader.read 2
    if binaryKeySize > 0 && size != binaryKeySize.toNat then
      throw (Status.corruption "Key: binary key size mismatch")
    else if size > kMaxBinaryKeySize then throw (Status.corruption "Key: binary key exceeds maximum size")
    else
      let bytes ← BinaryReader.readBytes size
      return .binary (bytes.take kMaxBinaryKeySize) (List.length_take_le _ _)
  | .other _ => throw (Status.corruption "Key: unknown key type")

end Key

namespace KeyComparator

def equal (first second : Key) : Bool := first.compare second == 0
def less (first second : Key) : Bool := first.compare second < 0
def greater (first second : Key) : Bool := first.compare second > 0
def lessEqual (first second : Key) : Bool := first.compare second ≤ 0

def lowerBound (keys : List Key) (key : Key) : Nat := Search.lowerBound (fun item => less item key) keys

/-- The loop of the lower bound with the other comparison. -/
def upperBound (keys : List Key) (key : Key) : Nat := Search.lowerBound (fun item => lessEqual item key) keys

/-- The position of the key, or the number of keys. -/
def find (keys : List Key) (key : Key) : Nat :=
  if keys[lowerBound keys key]?.any (fun item => equal item key) then lowerBound keys key else keys.length

/-- The lower bound as it runs on 64-bit positions, for a number of tests of the loop's condition. -/
def lowerBoundWord (rounds : Nat) (keys : List Key) (key : Key) : Option UInt64 :=
  Search.wordLowerBound (fun item => less item key) keys rounds

def upperBoundWord (rounds : Nat) (keys : List Key) (key : Key) : Option UInt64 :=
  Search.wordLowerBound (fun item => lessEqual item key) keys rounds

def findWord (rounds : Nat) (keys : List Key) (key : Key) : Option UInt64 := do
  let pos ← lowerBoundWord rounds keys key
  if pos < UInt64.ofNat keys.length then
    let item ← keys[pos.toNat]?
    if equal item key then return pos else return UInt64.ofNat keys.length
  else return UInt64.ofNat keys.length

end KeyComparator
end Quartz.Btree
