import Quartz.Serialization.BinaryReader
import Quartz.Serialization.BinaryWriter

/-! Byte orders. The host keeps its words in one of the two orders; a word of any
width travels in a named order through one scratch word of 64 bits. -/

namespace Quartz

/-- The two byte orders, of a host and of a word that travels. -/
inductive Order where
  | little
  | big
  deriving DecidableEq, Repr

namespace Order

/-- The bytes of a word, as `std::memcpy` takes them from the memory of a host. -/
def bytes (order : Order) (width value : Nat) : List UInt8 :=
  match order with
  | .little => Bytes.encode width value
  | .big => (Bytes.encode width value).reverse

/-- The word that such bytes are, once they are copied over it. -/
def word (order : Order) (bytes : List UInt8) : Nat :=
  match order with
  | .little => Bytes.decode bytes
  | .big => Bytes.decode bytes.reverse

end Order

namespace Endian

def swap64 (value : Nat) : Nat := Bytes.decode (Bytes.encode 8 value).reverse

/-- The bytes at the pointer after a write: a host of another order swaps first. -/
def write64 (native order : Order) (value : Nat) : List UInt8 :=
  native.bytes 8 (if native = order then value else swap64 value)

def writeLE64 (native : Order) (value : Nat) : List UInt8 := write64 native .little value

def writeBE64 (native : Order) (value : Nat) : List UInt8 := write64 native .big value

def read64 (native order : Order) (pointer : List UInt8) : Nat :=
  let value := native.word (pointer.take 8)
  if native = order then value else swap64 value

def readLE64 (native : Order) (pointer : List UInt8) : Nat := read64 native .little pointer

def readBE64 (native : Order) (pointer : List UInt8) : Nat := read64 native .big pointer

/-- The memory of a scratch word that was zero, after bytes are copied to its start. -/
def scratch (bytes : List UInt8) : List UInt8 := bytes ++ List.replicate (8 - bytes.length) 0

end Endian

namespace Serialization
open Endian

/-- `writeLE` and `writeBE` differ in the function that writes the scratch word. -/
def BinaryWriter.writeThrough (native : Order) (write : Nat → List UInt8) (writer : BinaryWriter) (width value : Nat) :
    Option (Status × BinaryWriter) :=
  let raw := native.word (scratch (native.bytes width value))
  writer.writeBytes ((write raw).take width)

def BinaryWriter.writeLE (native : Order) : BinaryWriter → Nat → Nat → Option (Status × BinaryWriter) :=
  writeThrough native (writeLE64 native)

def BinaryWriter.writeBE (native : Order) : BinaryWriter → Nat → Nat → Option (Status × BinaryWriter) :=
  writeThrough native (writeBE64 native)

/-- The cast to the type that is read keeps the low bytes. -/
def BinaryReader.readThrough (read : List UInt8 → Nat) (width : Nat) : Decoder Nat := do
  let bytes ← readBytes width
  pure (read (scratch bytes) % 256 ^ width)

def BinaryReader.readLE (native : Order) : Nat → Decoder Nat := readThrough (readLE64 native)

def BinaryReader.readBE (native : Order) : Nat → Decoder Nat := readThrough (readBE64 native)

end Serialization
end Quartz
