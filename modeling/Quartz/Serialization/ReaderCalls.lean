import Quartz.Lib.Fallible
import Quartz.Serialization.BinaryReader
import Quartz.Serialization.VariableLengthInteger

/-! The methods of the reader one by one, with the reader that each of them leaves. Arguments are
`size_t`, and a sum with the offset is taken modulo their limit before it is compared. -/

namespace Quartz.Serialization

/-- A method that ends in a status, and the reader it leaves. -/
abbrev Cursor := Fallible BinaryReader Status

namespace Cursor
open Fallible

/-- What a decoder sees of a method: the reader is dropped with the status. -/
def toDecoder {α : Type} (method : Cursor α) : Decoder α := fun reader =>
  match method.run reader with
  | (.ok value, after) => .ok (value, after)
  | (.error status, _) => .error status

def seek (position : UInt64) : Cursor Unit := do
  let reader ← read
  if position.toNat > reader.view.length then
    fail (Status.invalidArgument "BinaryReader::seek: position out of range")
  else update fun reader => { reader with offset := position.toNat }

/-- The check and the move that the methods have in common. -/
def forward (message : String) (count : Nat) : Cursor Unit := do
  let reader ← read
  if (reader.offset + count) % sizeLimit > reader.view.length then fail (Status.corruption message)
  else update fun reader => { reader with offset := (reader.offset + count) % sizeLimit }

def skip (count : UInt64) : Cursor Unit := forward "BinaryReader::skip: unexpected end of input" count.toNat

def align (alignment : UInt64) : Cursor Unit := do
  let reader ← read
  if alignment = 0 then pure ()
  else if reader.offset % alignment.toNat ≠ 0 then skip (alignment - UInt64.ofNat (reader.offset % alignment.toNat))
  else pure ()

def readBytes (count : UInt64) : Cursor (List UInt8) := do
  let reader ← read
  if count = 0 then pure []
  else
    forward "BinaryReader: unexpected end of input" count.toNat
    pure ((reader.view.drop reader.offset).take count.toNat)

/-- The copy to the end of a buffer, which takes any number of bytes. -/
def readBytesInto (dest : List UInt8) (count : UInt64) : Cursor (List UInt8) := do
  let reader ← read
  forward "BinaryReader: unexpected end of input" count.toNat
  pure (dest ++ (reader.view.drop reader.offset).take count.toNat)

/-- The four methods that read an integer of variable length from what remains. -/
def readVar {α : Type} (decode : List UInt8 → Status × α × Nat) : Cursor α := do
  let reader ← read
  let (status, value, consumed) := decode (reader.view.drop reader.offset)
  if !status.ok then fail status
  else
    update fun reader => { reader with offset := (reader.offset + consumed) % sizeLimit }
    pure value

def readVarU32 (value : UInt32) : Cursor UInt32 := readVar fun input => VarInt.decodeU32 input value
def readVarU64 : Cursor UInt64 := readVar VarInt.decodeU64
def readVarS32 (value : Int32) : Cursor Int32 := readVar fun input => VarInt.decodeS32 input value
def readVarS64 (value : Int64) : Cursor Int64 := readVar fun input => VarInt.decodeS64 input value

def ensure (count : UInt64) : Cursor Unit := do
  let reader ← read
  if (reader.offset + count.toNat) % sizeLimit > reader.view.length then
    fail (Status.corruption "BinaryReader: unexpected end of input")
  else pure ()

theorem forward_run (message : String) (count : Nat) (reader : BinaryReader) :
    (forward message count).run reader =
      if (reader.offset + count) % sizeLimit > reader.view.length then (.error (Status.corruption message), reader)
      else (.ok (), { reader with offset := (reader.offset + count) % sizeLimit }) := by
  rw [forward, run_bind_ok run_read]
  split <;> rfl

theorem forward_bind_run {α : Type} (message : String) (count : Nat) (next : Cursor α) (reader : BinaryReader) :
    (forward message count >>= fun _ => next).run reader =
      if (reader.offset + count) % sizeLimit > reader.view.length then (.error (Status.corruption message), reader)
      else next.run { reader with offset := (reader.offset + count) % sizeLimit } := by
  rw [run_bind, forward_run]
  by_cases past : (reader.offset + count) % sizeLimit > reader.view.length
  · rw [if_pos past, if_pos past]
  · rw [if_neg past, if_neg past]

theorem toDecoder_skip (count : UInt64) : toDecoder (skip count) = BinaryReader.skip count.toNat := by
  funext reader
  rw [toDecoder, skip, forward_run, BinaryReader.skip]
  by_cases past : (reader.offset + count.toNat) % sizeLimit > reader.view.length
  · rw [if_pos past, if_pos past]
  · rw [if_neg past, if_neg past]

theorem toDecoder_readBytes (count : UInt64) : toDecoder (readBytes count) = BinaryReader.readBytes count.toNat := by
  funext reader
  have zero : count.toNat = 0 ↔ count = 0 := by rw [← UInt64.toNat_inj, UInt64.toNat_zero]
  rw [toDecoder, readBytes, run_bind_ok run_read, BinaryReader.readBytes]
  by_cases none : count = 0
  · rw [if_pos none, if_pos (zero.mpr none)]
    rfl
  · rw [if_neg none, if_neg (mt zero.mp none), forward_bind_run]
    by_cases past : (reader.offset + count.toNat) % sizeLimit > reader.view.length
    · rw [if_pos past, if_pos past]
      rfl
    · rw [if_neg past, if_neg past]
      rfl

end Cursor

def BinaryReader.remaining (reader : BinaryReader) : Nat := reader.view.length - reader.offset

/-- One call on a reader, with what its output holds before it. -/
inductive ReaderCall where
  | seek (position : UInt64)
  | skip (count : UInt64)
  | align (alignment : UInt64)
  | readBytes (count : UInt64)
  | readBytesInto (dest : List UInt8) (count : UInt64)
  | readVarU32 (value : UInt32)
  | readVarU64
  | readVarS32 (value : Int32)
  | readVarS64 (value : Int64)
  | ensure (count : UInt64)
  deriving DecidableEq

namespace ReaderCall
open Fallible

def perform : ReaderCall → Cursor Unit
  | .seek position => Cursor.seek position
  | .skip count => Cursor.skip count
  | .align alignment => Cursor.align alignment
  | .readBytes count => Cursor.readBytes count >>= fun _ => pure ()
  | .readBytesInto dest count => Cursor.readBytesInto dest count >>= fun _ => pure ()
  | .readVarU32 value => Cursor.readVarU32 value >>= fun _ => pure ()
  | .readVarU64 => Cursor.readVarU64 >>= fun _ => pure ()
  | .readVarS32 value => Cursor.readVarS32 value >>= fun _ => pure ()
  | .readVarS64 value => Cursor.readVarS64 value >>= fun _ => pure ()
  | .ensure count => Cursor.ensure count

def step (reader : BinaryReader) (call : ReaderCall) : BinaryReader := (call.perform.run reader).2

end ReaderCall
end Quartz.Serialization
