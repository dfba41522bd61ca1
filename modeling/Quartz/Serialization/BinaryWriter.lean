import Quartz.Serialization.Buffer

/-! The writer every encoder goes through: a cursor over a growable buffer. -/

namespace Quartz.Serialization

structure BinaryWriter where
  buffer : Buffer
  offset : Nat

namespace BinaryWriter

/-- The constructor starts behind the elements the buffer already has. -/
def startingOn (buffer : Buffer) : BinaryWriter where
  buffer := buffer
  offset := buffer.size

def tell (writer : BinaryWriter) : Nat := writer.offset

def seek (writer : BinaryWriter) (position : Nat) : Status × BinaryWriter :=
  if position > writer.buffer.size then
    (Status.invalidArgument "BinaryWriter::seek: position out of range", writer)
  else (Status.success, { writer with offset := position })

/-- The doubling loop. A capacity that wraps to zero doubles for ever, which the
fuel reports: every capacity it can return is reached within 64 doublings. -/
def doubleUntil (needed : Nat) : Nat → Nat → Option Nat
  | 0, _ => none
  | fuel + 1, newCapacity =>
    if newCapacity < needed then doubleUntil needed fuel (newCapacity * 2 % sizeLimit)
    else some newCapacity

def ensureCapacity (buffer : Buffer) (needed : Nat) : Option Buffer :=
  if needed ≤ buffer.capacity then some buffer
  else (doubleUntil needed 65 (max (buffer.capacity * 2 % sizeLimit) Buffer.kMinCapacity)).map buffer.reserve

/-- The common end of `skip` and `writeBytes`: the cursor moves, and a cursor past
the last element resizes the buffer up to it. -/
def advance (writer : BinaryWriter) (count : Nat) : BinaryWriter :=
  let offset := (writer.offset + count) % sizeLimit
  { buffer := if offset > writer.buffer.size then writer.buffer.resize offset else writer.buffer
    offset := offset }

def skip (writer : BinaryWriter) (count : Nat) : Option (Status × BinaryWriter) := do
  let buffer ← ensureCapacity writer.buffer ((writer.offset + count) % sizeLimit)
  return (Status.success, advance { writer with buffer := buffer } count)

def align (writer : BinaryWriter) (alignment : Nat) : Option (Status × BinaryWriter) :=
  if alignment = 0 then some (Status.success, writer)
  else if writer.offset % alignment ≠ 0 then writer.skip (alignment - writer.offset % alignment)
  else some (Status.success, writer)

def writeBytes (writer : BinaryWriter) (source : List UInt8) : Option (Status × BinaryWriter) :=
  if source.length = 0 then some (Status.success, writer)
  else do
    let buffer ← ensureCapacity writer.buffer ((writer.offset + source.length) % sizeLimit)
    -- the copy comes before the resize
    let buffer ← buffer.copyTo writer.offset source
    return (Status.success, advance { writer with buffer := buffer } source.length)

def overwriteAt (writer : BinaryWriter) (position : Nat) (source : List UInt8) :
    Option (Status × BinaryWriter) :=
  if (position + source.length) % sizeLimit > writer.buffer.size then
    some (Status.invalidArgument "BinaryWriter::overwriteAt: range out of bounds", writer)
  else do
    let buffer ← writer.buffer.copyTo position source
    return (Status.success, { writer with buffer := buffer })

/-- The writes of an encoder, up to the first that fails. -/
def writeBlocks (writer : BinaryWriter) : List (List UInt8) → Option (Status × BinaryWriter)
  | [] => some (Status.success, writer)
  | block :: rest => do
    let (status, writer) ← writer.writeBytes block
    if !status.ok then return (status, writer) else writer.writeBlocks rest

end BinaryWriter

/-- What a new buffer holds when an encoder has handed these blocks to its writer. -/
def Writing := List (List UInt8) → List UInt8

/-- A writer that appends what it is given. -/
def appending : Writing := List.flatten

/-- The writer as it is. Blocks for which it does not return do not fit into any memory. -/
def written : Writing := fun blocks =>
  (((BinaryWriter.startingOn .fresh).writeBlocks blocks).map fun outcome => outcome.2.buffer.contents).getD []

inductive WriterCall where
  | seek (position : Nat)
  | skip (count : Nat)
  | align (alignment : Nat)
  | writeBytes (source : List UInt8)
  | overwriteAt (position : Nat) (source : List UInt8)
  deriving DecidableEq, Repr

namespace BinaryWriter

/-- `none` when the call copies outside the allocation or never returns. -/
def call (writer : BinaryWriter) : WriterCall → Option (Status × BinaryWriter)
  | .seek position => some (writer.seek position)
  | .skip count => writer.skip count
  | .align alignment => writer.align alignment
  | .writeBytes source => writer.writeBytes source
  | .overwriteAt position source => writer.overwriteAt position source

end BinaryWriter
end Quartz.Serialization
