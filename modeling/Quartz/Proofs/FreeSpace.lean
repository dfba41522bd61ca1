import Quartz.Proofs.Policies

/-! The free space map of a space manager: its extents hold pages that the manager hands
out and no others. Every policy serves a request from within one of them. -/

namespace Quartz.Space
open Storage

namespace Extent

/-- A nonempty extent of pages that the space manager hands out. -/
structure Managed (extent : Extent) : Prop where
  nonempty : 0 < extent.length.toNat
  first : kFirstDataPageId.toNat ≤ extent.start.toNat
  last : extent.limit ≤ kMaxPageCount.toNat

variable {extent other : Extent}

theorem Managed.small (managed : extent.Managed) : extent.limit ≤ 1048576 := managed.last

theorem Managed.proper (managed : extent.Managed) : extent.Proper :=
  ⟨managed.nonempty, Nat.lt_of_le_of_lt managed.small (by decide)⟩

theorem Managed.isValid (managed : extent.Managed) : extent.isValid = true := managed.proper.isValid

theorem Managed.of_within (managed : other.Managed) (nonempty : 0 < extent.length.toNat)
    (within : extent.Within other) : extent.Managed :=
  ⟨nonempty, Nat.le_trans managed.first within.1, Nat.le_trans within.2 managed.last⟩

theorem Managed.covers (managed : extent.Managed) {page : Nat} (covers : extent.Covers page) :
    kFirstDataPageId.toNat ≤ page ∧ page < kMaxPageCount.toNat :=
  ⟨Nat.le_trans managed.first covers.1, Nat.lt_of_lt_of_le covers.2 managed.last⟩

theorem Managed.of_covers (nonempty : 0 < extent.length.toNat)
    (managed : ∀ page, extent.Covers page → kFirstDataPageId.toNat ≤ page ∧ page < kMaxPageCount.toNat) : extent.Managed := by
  have first := managed extent.start.toNat ⟨Nat.le_refl _, by simp only [limit]; omega⟩
  have last := managed (extent.limit - 1) (by simp only [Covers, limit]; omega)
  exact ⟨nonempty, first.1, by omega⟩

end Extent

namespace FreeSpaceMap

/-- Managed extents in increasing order with a page between any two of them. -/
structure Separated (extents : List Extent) : Prop where
  managed : ∀ extent ∈ extents, extent.Managed
  gaps : extents.Pairwise fun first second => first.limit < second.start.toNat

theorem Separated.spaced {extents : List Extent} (separated : Separated extents) : Spaced extents :=
  ⟨fun extent member => (separated.managed extent member).proper, separated.gaps⟩

theorem Separated.covered {extents : List Extent} (separated : Separated extents) {page : Nat}
    (covered : Covered extents page) : kFirstDataPageId.toNat ≤ page ∧ page < kMaxPageCount.toNat := by
  obtain ⟨extent, member, covers⟩ := covered
  exact (separated.managed extent member).covers covers

/-- A spaced list that covers managed pages only. -/
theorem Spaced.separated {extents : List Extent} (spaced : Spaced extents)
    (managed : ∀ page, Covered extents page → kFirstDataPageId.toNat ≤ page ∧ page < kMaxPageCount.toNat) :
    Separated extents :=
  ⟨fun extent member => .of_covers (spaced.proper extent member).nonempty fun page covers =>
    managed page ⟨extent, member, covers⟩, spaced.gaps⟩

variable {range current : Extent} {map : FreeSpaceMap}

/-- A range that is not a proper front of its extent leaves the managed pages separated. -/
theorem Separated.markAllocated_takes (separated : Separated map.extents) (member : current ∈ map.extents)
    (nonempty : 0 < range.length.toNat) (within : range.Within current)
    (carved : range.start = current.start → ¬ range.length < current.length) :
    ∃ after, map.markAllocated range = (Status.success, after) ∧ Separated after.extents ∧
      total after.extents + range.length.toNat = total map.extents ∧
      ∀ page, Covered after.extents page ↔ Covered map.extents page ∧ ¬ range.Covers page := by
  obtain ⟨after, marked, spaced, cover⟩ :=
    FreeSpaceMap.markAllocated_takes separated.spaced member nonempty within carved
  have inside : ∀ page, range.Covers page → Covered map.extents page := fun page covers =>
    ⟨current, member, Nat.le_trans within.1 covers.1, Nat.lt_of_lt_of_le covers.2 within.2⟩
  refine ⟨after, marked, spaced.separated fun page covered => separated.covered ((cover page).mp covered).1, ?_, cover⟩
  refine (total_eq separated.spaced spaced (fun page => ?_) fun page covers covered => ?_).symm
  · have := inside page
    rw [cover]
    tauto
  · exact ((cover page).mp covered).2 covers

/-- Freeing managed pages adds them to the free ones. -/
theorem Separated.markFree_covers (separated : Separated map.extents) (managed : range.Managed) :
    ∃ after, map.markFree range = (Status.success, after) ∧ Separated after.extents ∧
      ∀ page, Covered after.extents page ↔ Covered map.extents page ∨ range.Covers page := by
  obtain ⟨after, marked, spaced, cover⟩ := FreeSpaceMap.markFree_covers separated.spaced managed.proper
  refine ⟨after, marked, spaced.separated fun page covered => ?_, cover⟩
  rcases (cover page).mp covered with free | inRange
  · exact separated.covered free
  · exact managed.covers inRange

end FreeSpaceMap

namespace AllocationPolicy
open FreeSpaceMap

variable {map : FreeSpaceMap} {length : UInt32}

/-- What a policy may hand out: nothing, or a nonempty part of one free extent. -/
def Served (map : FreeSpaceMap) (extent : Extent) : Prop :=
  extent = {} ∨ 0 < extent.length.toNat ∧ ∃ current ∈ map.extents, extent.Within current

theorem allocate_served (policy : AllocationPolicy) (separated : Separated map.extents) (positive : 0 < length.toNat)
    (hints : AllocationHints) : Served map (policy.allocate map length hints).1 := by
  have answers := allocate_answers policy separated.spaced positive hints
  generalize (policy.allocate map length hints).1 = extent at answers ⊢
  cases answers with
  | missing => exact .inl rfl
  | found member fit exact within => exact .inr ⟨by rw [exact]; exact positive, _, member, within⟩

end AllocationPolicy
end Quartz.Space
