import Mathlib.Data.List.Basic

/-! Writing a block into a list at an offset, growing the list when the block ends
past it. A gap before the block is filled with a given value. -/

namespace Splice

variable {α : Type*} (fill : α)

def write (items : List α) (offset : Nat) (block : List α) : List α :=
  items.take offset ++ List.replicate (offset - items.length) fill ++ block ++ items.drop (offset + block.length)

variable {fill} {items block : List α} {offset : Nat}

@[simp] theorem length_write :
    (write fill items offset block).length = max items.length (offset + block.length) := by
  simp only [write, List.length_append, List.length_take, List.length_replicate, List.length_drop]
  omega

theorem write_inside (inside : offset ≤ items.length) :
    write fill items offset block = items.take offset ++ block ++ items.drop (offset + block.length) := by
  simp [write, Nat.sub_eq_zero_of_le inside]

theorem write_at_end : write fill items items.length block = items ++ block := by
  simp [write]

theorem read_write (fill : α) (items : List α) (offset : Nat) (block : List α) :
    ((write fill items offset block).drop offset).take block.length = block := by
  have front : (items.take offset ++ List.replicate (offset - items.length) fill).length = offset := by
    simp only [List.length_append, List.length_take, List.length_replicate]
    omega
  rw [write, List.append_assoc, List.drop_append_of_le_length (by omega), List.drop_of_length_le (by omega)]
  simp

theorem write_cancel {other : List α} (same : block.length = other.length)
    (equal : write fill items offset block = write fill items offset other) : block = other := by
  rw [← read_write fill items offset block, equal, same, read_write]

/-- Two blocks written one behind the other are one block. -/
theorem write_write {second : List α} :
    write fill (write fill items offset block) (offset + block.length) second =
      write fill items offset (block ++ second) := by
  have front : (items.take offset ++ List.replicate (offset - items.length) fill ++ block).length =
      offset + block.length := by
    simp only [List.length_append, List.length_take, List.length_replicate]
    omega
  have inside : offset + block.length ≤ (write fill items offset block).length := by
    rw [length_write]
    exact Nat.le_max_right _ _
  rw [write_inside inside, write, List.take_append_of_le_length (Nat.le_of_eq front.symm),
    List.take_of_length_le (Nat.le_of_eq front), List.drop_append, front,
    List.drop_of_length_le (by omega), List.drop_drop, write, List.length_append]
  rw [show offset + block.length + (offset + block.length + second.length - (offset + block.length)) =
    offset + (block.length + second.length) by omega]
  simp only [List.nil_append, List.append_assoc]

theorem take_write {count : Nat} (before : count ≤ offset) (inside : count ≤ items.length) :
    (write fill items offset block).take count = items.take count := by
  have front : count ≤ (items.take offset).length := by
    rw [List.length_take]
    omega
  rw [write, List.append_assoc, List.append_assoc, List.take_append_of_le_length front, List.take_take, Nat.min_eq_left before]

theorem drop_write {start : Nat} (behind : offset + block.length ≤ start) :
    (write fill items offset block).drop start = items.drop start := by
  have front : (items.take offset ++ List.replicate (offset - items.length) fill ++ block).length = offset + block.length := by
    simp only [List.length_append, List.length_take, List.length_replicate]
    omega
  rw [write, List.drop_append, List.drop_of_length_le (by omega), List.nil_append, List.drop_drop, front,
    Nat.add_sub_of_le behind]

theorem read_write_of_apart {start count : Nat} (inside : start + count ≤ items.length)
    (apart : start + count ≤ offset ∨ offset + block.length ≤ start) :
    ((write fill items offset block).drop start).take count = (items.drop start).take count := by
  rcases apart with before | behind
  · rw [List.take_drop, take_write before inside, ← List.take_drop]
  · rw [drop_write behind]

end Splice
