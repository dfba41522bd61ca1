import Quartz.Lib.Bytes
import Quartz.Serialization.Buffer

/-! The reader every decoder goes through: a cursor over a view. -/

namespace Quartz.Serialization

structure BinaryReader where
  view : List UInt8
  offset : Nat := 0
  deriving DecidableEq, Repr

/-- A decoder stops at the first status that is not OK. -/
abbrev Decoder := StateT BinaryReader (Except Status)

namespace BinaryReader

def endOfInput : Status := Status.corruption "BinaryReader: unexpected end of input"

def skip (count : Nat) : Decoder Unit := fun reader =>
  if (reader.offset + count) % sizeLimit > reader.view.length then
    .error (Status.corruption "BinaryReader::skip: unexpected end of input")
  else .ok ((), { reader with offset := (reader.offset + count) % sizeLimit })

def readBytes (count : Nat) : Decoder (List UInt8) := fun reader =>
  if count = 0 then .ok ([], reader)
  else if (reader.offset + count) % sizeLimit > reader.view.length then
    .error endOfInput
  else .ok ((reader.view.drop reader.offset).take count, { reader with offset := (reader.offset + count) % sizeLimit })

/-- A trivially copyable value of the given width, in the byte order of the machine. -/
def read (width : Nat) : Decoder Nat := Bytes.decode <$> readBytes width

variable {view : List UInt8} {offset : Nat}

theorem skip_run {count : Nat} (bounded : offset + count < sizeLimit) :
    (skip count).run ⟨view, offset⟩ =
      if offset + count ≤ view.length then .ok ((), ⟨view, offset + count⟩)
      else .error (Status.corruption "BinaryReader::skip: unexpected end of input") := by
  simp only [skip, StateT.run, Nat.mod_eq_of_lt bounded, gt_iff_lt, ← Nat.not_le, ite_not]

theorem readBytes_run {count : Nat} (inside : offset ≤ view.length) (bounded : offset + count < sizeLimit) :
    (readBytes count).run ⟨view, offset⟩ =
      if offset + count ≤ view.length then .ok ((view.drop offset).take count, ⟨view, offset + count⟩)
      else .error endOfInput := by
  by_cases none : count = 0
  · simp [readBytes, StateT.run, none, inside]
  · simp only [readBytes, StateT.run, none, if_false, Nat.mod_eq_of_lt bounded, gt_iff_lt, ← Nat.not_le, ite_not]

theorem read_run {width : Nat} (inside : offset ≤ view.length) (bounded : offset + width < sizeLimit) :
    (read width).run ⟨view, offset⟩ =
      if offset + width ≤ view.length then .ok (Bytes.field view offset width, ⟨view, offset + width⟩)
      else .error endOfInput := by
  rw [read, StateT.run_map, readBytes_run inside bounded]
  split <;> rfl

theorem read_bind {α : Type} {width : Nat} {next : Nat → Decoder α} (inside : offset ≤ view.length)
    (bounded : offset + width < sizeLimit) :
    (read width >>= next).run ⟨view, offset⟩ =
      if offset + width ≤ view.length then (next (Bytes.field view offset width)).run ⟨view, offset + width⟩
      else .error endOfInput := by
  rw [StateT.run_bind, read_run inside bounded]
  split <;> rfl

end BinaryReader
end Quartz.Serialization
