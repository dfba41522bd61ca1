import Mathlib.Data.Finset.Card
import Quartz.Proofs.Extents

/-! The free space map as a set of pages. Freeing a range adds its pages, and marking one takes them
out, unless the range is a proper front of a free extent. -/

namespace Quartz.Space
open Storage

def Extent.pageSet (extent : Extent) : Finset Nat := extent.pages.toFinset

namespace FreeSpaceMap

def freePages (map : FreeSpaceMap) : Finset Nat := (map.extents.flatMap Extent.pages).toFinset

variable {map : FreeSpaceMap} {range : Extent} {page : Nat}

@[simp] theorem mem_pageSet : page ∈ range.pageSet ↔ range.Covers page := by
  rw [Extent.pageSet, List.mem_toFinset, Extent.mem_pages]

@[simp] theorem mem_freePages : page ∈ map.freePages ↔ Covered map.extents page := by
  rw [freePages, List.mem_toFinset, mem_flatMap_pages]

/-- The pages of spaced extents are all different, so there are fewer than there are page numbers. -/
theorem Spaced.countFree (spaced : Spaced map.extents) : map.countFree.toNat = map.freePages.card := by
  have card : map.freePages.card = total map.extents := by
    rw [freePages, List.toFinset_card_of_nodup spaced.nodup, length_flatMap_pages]
  have bounded : map.freePages ⊆ Finset.range (2 ^ 32 - 1) := by
    intro page member
    obtain ⟨extent, inside, -, upper⟩ := mem_freePages.mp member
    have small := (spaced.proper extent inside).small
    exact Finset.mem_range.mpr (by omega)
  have few := Finset.card_le_card bounded
  rw [Finset.card_range] at few
  rw [countFree_toNat (by omega), card]

/-- Whatever a range has in common with the free extents, freeing it adds its pages to the free ones
and nothing else. -/
theorem markFree_is_union (map : FreeSpaceMap) (spaced : Spaced map.extents) (range : Extent) (valid : range.isValid = true)
    (fits : range.limit < 2 ^ 32) :
    (map.markFree range).1 = Status.success ∧
      (map.markFree range).2.freePages = map.freePages ∪ range.pageSet ∧
      (map.markFree range).2.countFree.toNat = map.countFree.toNat + (range.pageSet \ map.freePages).card := by
  obtain ⟨after, freed, afterSpaced, covers⟩ := markFree_covers spaced (.of_isValid valid fits)
  have union : after.freePages = map.freePages ∪ range.pageSet := by
    ext page
    rw [Finset.mem_union, mem_freePages, mem_freePages, mem_pageSet, covers]
  rw [freed]
  refine ⟨rfl, union, ?_⟩
  rw [afterSpaced.countFree, spaced.countFree, union, ← Finset.union_sdiff_self_eq_union,
    Finset.card_union_of_disjoint Finset.disjoint_sdiff]

/-- A range that overlaps one free extent and touches another. -/
theorem markFree_is_union_bridge :
    Spaced [⟨10, 5⟩, ⟨20, 5⟩] ∧
      (markFree ⟨[⟨10, 5⟩, ⟨20, 5⟩]⟩ ⟨12, 8⟩).2.freePages = freePages ⟨[⟨10, 5⟩, ⟨20, 5⟩]⟩ ∪ Extent.pageSet ⟨12, 8⟩ := by
  have spaced : Spaced [⟨10, 5⟩, ⟨20, 5⟩] := by decide
  exact ⟨spaced, (markFree_is_union ⟨_⟩ spaced ⟨12, 8⟩ rfl (by decide)).2.1⟩

/-- The range is the front of a free extent that goes on behind it. -/
def ProperFront (range : Extent) (extents : List Extent) : Prop :=
  ∃ extent ∈ extents, extent.start = range.start ∧ range.length < extent.length

/-- Marking a range takes its pages out of the free ones, and fails when there is nothing to take. -/
structure MarksDifference (map : FreeSpaceMap) (range : Extent) : Prop where
  pages : (map.markAllocated range).2.freePages = map.freePages \ range.pageSet
  granted : (map.markAllocated range).1.ok = true ↔ (map.freePages ∩ range.pageSet).Nonempty
  refused : (map.markAllocated range).1.ok = false → (map.markAllocated range).2 = map
  count : (map.markAllocated range).2.countFree.toNat = map.countFree.toNat - (map.freePages ∩ range.pageSet).card ∧
    (map.freePages ∩ range.pageSet).card ≤ map.countFree.toNat

theorem meets_iff : (map.freePages ∩ range.pageSet).Nonempty ↔ ∃ page, Covered map.extents page ∧ range.Covers page := by
  simp [Finset.Nonempty]

theorem marksDifference_of_whole (spaced : Spaced map.extents) (proper : range.Proper)
    (whole : ¬ ProperFront range map.extents) : MarksDifference map range := by
  have covers := markAllocated_removes spaced proper
    fun extent member same shorter => whole ⟨extent, member, same, shorter⟩
  have pages : (map.markAllocated range).2.freePages = map.freePages \ range.pageSet := by
    ext page
    rw [Finset.mem_sdiff, mem_freePages, mem_freePages, mem_pageSet, covers]
  refine ⟨pages, (markAllocated_ok_iff_shared spaced proper).trans meets_iff.symm, markAllocated_failed, ?_⟩
  rw [(markAllocated_refines spaced proper).spaced.countFree, spaced.countFree, pages, Finset.card_sdiff, Finset.inter_comm]
  exact ⟨rfl, Finset.card_le_card Finset.inter_subset_left⟩

theorem not_marksDifference_of_front (spaced : Spaced map.extents) (proper : range.Proper)
    (front : ProperFront range map.extents) : ¬ MarksDifference map range := by
  obtain ⟨extent, member, same, shorter⟩ := front
  intro marks
  have pages := marks.pages
  rw [markAllocated_ignores spaced member proper.nonempty same.symm shorter] at pages
  have nonempty := proper.nonempty
  have covered : range.start.toNat ∈ map.freePages := by
    rw [UInt32.lt_iff_toNat_lt] at shorter
    refine mem_freePages.mpr ⟨extent, member, ?_⟩
    simp only [Extent.Covers, Extent.limit, same]
    omega
  rw [pages, Finset.mem_sdiff, mem_pageSet] at covered
  exact covered.2 ⟨Nat.le_refl _, by simp only [Extent.limit]; omega⟩

/-- Marking a range is the set difference exactly when the range is not the front of a free extent
that goes on behind it. -/
theorem markAllocated_is_difference_iff (map : FreeSpaceMap) (spaced : Spaced map.extents) (range : Extent)
    (valid : range.isValid = true) (fits : range.limit < 2 ^ 32) :
    MarksDifference map range ↔ ¬ ProperFront range map.extents := by
  have proper := Extent.Proper.of_isValid valid fits
  exact ⟨fun marks front => not_marksDifference_of_front spaced proper front marks, marksDifference_of_whole spaced proper⟩

/-- A range that cuts two free extents. -/
theorem markAllocated_is_difference_cut :
    Spaced [⟨10, 5⟩, ⟨20, 5⟩] ∧ MarksDifference ⟨[⟨10, 5⟩, ⟨20, 5⟩]⟩ ⟨12, 10⟩ := by
  have spaced : Spaced [⟨10, 5⟩, ⟨20, 5⟩] := by decide
  refine ⟨spaced, (markAllocated_is_difference_iff ⟨_⟩ spaced ⟨12, 10⟩ rfl (by decide)).mpr ?_⟩
  rintro ⟨extent, member, same, -⟩
  simp only [List.mem_cons, List.not_mem_nil, or_false] at member
  rcases member with rfl | rfl <;> cases same

/-- The first of ten free pages is marked and stays free. -/
theorem marked_front_stays_free :
    (markAllocated ⟨[⟨8, 10⟩]⟩ ⟨8, 1⟩).1 = Status.success ∧ ¬ MarksDifference ⟨[⟨8, 10⟩]⟩ ⟨8, 1⟩ := by
  refine ⟨by decide, fun marks => ?_⟩
  have kept : 8 ∈ (markAllocated ⟨[⟨8, 10⟩]⟩ ⟨8, 1⟩).2.freePages := by decide
  rw [marks.pages] at kept
  exact absurd kept (by decide)

end FreeSpaceMap
end Quartz.Space
