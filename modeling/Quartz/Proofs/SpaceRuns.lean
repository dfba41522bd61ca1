import Quartz.Proofs.PageOwnership

/-! Runs of a space manager with reservations and arguments of any kind. Managed pages stay
the only ones in the map as long as nothing else is given to it; a page request then fails
exactly when the one page the page allocator proposes is not free. -/

namespace Quartz.Space
open Storage FreeSpaceMap Runs

inductive SpaceRequest where
  | client (call : SpaceCall)
  | reserveRange (start : PageId) (count : UInt32)
  deriving DecidableEq, Repr

namespace Extent

instance (extent : Extent) : Decidable extent.Managed :=
  decidable_of_iff (0 < extent.length.toNat ∧ kFirstDataPageId.toNat ≤ extent.start.toNat ∧
      extent.limit ≤ kMaxPageCount.toNat)
    ⟨fun ⟨nonempty, first, last⟩ => ⟨nonempty, first, last⟩, fun managed => ⟨managed.nonempty, managed.first, managed.last⟩⟩

end Extent

namespace FreeSpaceMap

theorem Separated.refines {parts extents : List Extent} (separated : Separated extents) (refines : Refines parts extents) :
    Separated parts :=
  refines.spaced.separated fun _ covered => separated.covered (refines.covered covered)

theorem Separated.total_le {extents : List Extent} (separated : Separated extents) :
    total extents ≤ SpaceManager.managedPages.toNat := by
  have subset : extents.flatMap Extent.pages ⊆ List.range' kFirstDataPageId.toNat SpaceManager.managedPages.toNat := by
    intro page member
    have inside := separated.covered (mem_flatMap_pages.mp member)
    have last : kFirstDataPageId.toNat + SpaceManager.managedPages.toNat = kMaxPageCount.toNat := rfl
    rw [List.mem_range'_1]
    omega
  have fits := (List.subperm_of_subset separated.spaced.nodup subset).length_le
  rwa [length_flatMap_pages, List.length_range'] at fits

theorem Spaced.nil_iff {extents : List Extent} (spaced : Spaced extents) :
    extents = [] ↔ ∀ page, ¬ Covered extents page := by
  constructor
  · rintro rfl page
    simp
  · intro none
    rcases extents with _ | ⟨first, rest⟩
    · rfl
    · have nonempty := (spaced.proper first List.mem_cons_self).nonempty
      refine absurd ⟨first, List.mem_cons_self, Nat.le_refl _, ?_⟩ (none first.start.toNat)
      simp only [Extent.limit]
      omega

end FreeSpaceMap

namespace Ledger

def serve (ledger : Ledger) : SpaceRequest → Ledger
  | .client next => ledger.call next
  | .reserveRange start count => { ledger with manager := (ledger.manager.reserveRange start count).2 }

/-- Extents given back lie among the managed pages and reserved ranges do not wrap. -/
def Confined (_ : Ledger) : SpaceRequest → Prop
  | .client (.freeExtent extent) => extent.isValid = true → extent.Managed
  | .client _ => True
  | .reserveRange start count => start.toNat + count.toNat < 2 ^ 32

instance (ledger : Ledger) : (request : SpaceRequest) → Decidable (ledger.Confined request)
  | .client (.freeExtent extent) => inferInstanceAs (Decidable (extent.isValid = true → extent.Managed))
  | .client .allocatePage | .client (.allocateExtent _ _) | .client (.freePage _) => isTrue trivial
  | .reserveRange start count => inferInstanceAs (Decidable (start.toNat + count.toNat < 2 ^ 32))

variable {ledger : Ledger}

theorem kept_new (policy : AllocationPolicy) : Kept { manager := SpaceManager.withPolicy policy } :=
  ⟨(sound_new policy).balanced.separated, PageAllocator.sound_new, by simp⟩

theorem Kept.separated_allocation (kept : ledger.Kept) {next : SpaceCall}
    (allocates : next = .allocatePage ∨ ∃ length hints, next = .allocateExtent length hints) :
    Separated (ledger.call next).manager.freeSpaceMap.extents := by
  cases handed : ledger.handed next with
  | none =>
    rw [(refused_facts kept allocates handed).1]
    exact kept.separated
  | some range =>
    obtain ⟨nonempty, ⟨current, member, within⟩, map, -⟩ := handed_facts kept handed
    rw [map]
    have proper := (kept.separated.spaced.proper current member).of_within nonempty within
    exact kept.separated.refines (markAllocated_refines kept.separated.spaced proper)

theorem Kept.handed_managed (kept : ledger.Kept) {next : SpaceCall} {range : Extent}
    (handed : ledger.handed next = some range) : range.Managed := by
  obtain ⟨nonempty, ⟨current, member, within⟩, -⟩ := handed_facts kept handed
  exact (kept.separated.managed current member).of_within nonempty within

private theorem Kept.allocatePage (kept : ledger.Kept) : (ledger.call .allocatePage).Kept := by
  refine ⟨kept.separated_allocation (.inl rfl), ?_, kept.held⟩
  rcases SpaceManager.allocatePage_cases kept.allocator with ⟨after, failed, allocator, -⟩ | ⟨id, after, allocated, -, allocator, -⟩
  · simpa only [call, failed] using allocator
  · simpa only [call, allocated] using allocator

private theorem Kept.allocateExtent (kept : ledger.Kept) (length : UInt32) (hints : AllocationHints) :
    (ledger.call (.allocateExtent length hints)).Kept := by
  refine ⟨kept.separated_allocation (.inr ⟨length, hints, rfl⟩), kept.allocator, ?_⟩
  simp only [call]
  split
  next valid =>
    have handed : ledger.handed (.allocateExtent length hints) = some _ := if_pos valid
    exact List.forall_mem_cons.mpr ⟨kept.handed_managed handed, kept.held⟩
  next => exact kept.held

private theorem Kept.freePage (kept : ledger.Kept) (id : PageId) : (ledger.call (.freePage id)).Kept := by
  rcases ledger.manager.pageAllocator.free_cases id with refused | owns
  · have same : (ledger.manager.freePage id).2 =
        { ledger.manager with stats := ledger.manager.stats.recordFree false } := by
      simp only [SpaceManager.freePage, refused, Bool.not_false, if_true]
    simp only [call, same]
    exact ⟨kept.separated, kept.allocator, kept.held⟩
  · obtain ⟨pages, map, called, allocator, -, -, separated, -⟩ :=
      SpaceManager.freePage_owned kept.allocator kept.separated owns
    simp only [call, called]
    exact ⟨separated, allocator, kept.held⟩

private theorem Kept.freeExtent (kept : ledger.Kept) {extent : Extent} (managed : extent.isValid = true → extent.Managed) :
    (ledger.call (.freeExtent extent)).Kept := by
  have held : ∀ other ∈ ledger.extents.erase extent, other.Managed :=
    fun other member => kept.held other (List.mem_of_mem_erase member)
  refine ⟨?_, kept.allocator, held⟩
  simp only [call, SpaceManager.freeExtent, SpaceManager.freeSpaceMap, ExtentAllocator.release]
  cases valid : extent.isValid with
  | false => simpa [SpaceManager.freeSpaceMap] using kept.separated
  | true =>
    obtain ⟨after, marked, separated, -⟩ := kept.separated.markFree_covers (managed valid)
    rw [SpaceManager.freeSpaceMap] at marked
    simpa [marked] using separated

private theorem Kept.reserveRange (kept : ledger.Kept) {start : PageId} {count : UInt32}
    (small : start.toNat + count.toNat < 2 ^ 32) : (ledger.serve (.reserveRange start count)).Kept := by
  refine ⟨?_, ?_, kept.held⟩
  all_goals simp only [serve, SpaceManager.reserveRange, SpaceManager.freeSpaceMap]
  all_goals split
  · exact kept.separated
  · cases valid : (Extent.mk start count).isValid with
    | false => simpa [markAllocated, valid, SpaceManager.freeSpaceMap] using kept.separated
    | true => exact kept.separated.refines (markAllocated_refines kept.separated.spaced (.of_isValid valid small))
  · exact kept.allocator
  · exact kept.allocator

theorem Kept.serve (kept : ledger.Kept) {request : SpaceRequest} (confined : ledger.Confined request) :
    (ledger.serve request).Kept :=
  match request with
  | .client .allocatePage => kept.allocatePage
  | .client (.allocateExtent length hints) => kept.allocateExtent length hints
  | .client (.freePage id) => kept.freePage id
  | .client (.freeExtent _) => kept.freeExtent confined
  | .reserveRange _ _ => kept.reserveRange confined

def handedOut (ledger : Ledger) : SpaceRequest → Option Extent
  | .client next => ledger.handed next
  | .reserveRange _ _ => none

/-- The map holds managed pages only, and its count is the number of pages not allocated. -/
structure Contained (ledger : Ledger) : Prop where
  free : ∀ page, Covered ledger.manager.freeSpaceMap.extents page →
    kFirstDataPageId.toNat ≤ page ∧ page ≤ kMaxPageId.toNat
  counted : ledger.manager.freePageCount.toNat = total ledger.manager.freeSpaceMap.extents
  balance : ledger.manager.allocatedPageCount.toNat + ledger.manager.freePageCount.toNat =
    SpaceManager.managedPages.toNat

def HandsOutManaged (ledger : Ledger) (request : SpaceRequest) : Prop :=
  ∀ range ∈ ledger.handedOut request, ∀ page, range.Covers page →
    kFirstDataPageId.toNat ≤ page ∧ page ≤ kMaxPageId.toNat

theorem Kept.contained (kept : ledger.Kept) : ledger.Contained := by
  have most : kMaxPageId.toNat + 1 = kMaxPageCount.toNat := rfl
  have fits := kept.separated.total_le
  have count : SpaceManager.managedPages.toNat = 1048568 := rfl
  have free : ledger.manager.freePageCount.toNat = total ledger.manager.freeSpaceMap.extents :=
    countFree_toNat (Nat.lt_of_le_of_lt fits (by decide))
  refine ⟨fun page covered => ?_, free, ?_⟩
  · have := kept.separated.covered covered
    omega
  · have fewer : ledger.manager.freePageCount ≤ SpaceManager.managedPages := by
      rw [UInt32.le_iff_toNat_le, free]
      exact fits
    rw [SpaceManager.allocatedPageCount, ← SpaceManager.freePageCount, UInt32.toNat_sub_of_le _ _ fewer]
    omega

theorem Kept.handsOutManaged (kept : ledger.Kept) (request : SpaceRequest) : ledger.HandsOutManaged request := by
  suffices ∀ range ∈ ledger.handedOut request, range.Managed by
    intro range handed page covers
    have inside := (this range handed).covers covers
    have most : kMaxPageId.toNat + 1 = kMaxPageCount.toNat := rfl
    omega
  intro range handed
  match request with
  | .client _ => exact kept.handed_managed handed

/-- As long as the extents given back are managed ones and no reservation wraps, no other
page gets into the map or out of it, and the two counts add up. -/
theorem only_managed_pages_are_handled (policy : AllocationPolicy) (requests : List SpaceRequest)
    (confined : AtEachStep serve Confined { manager := SpaceManager.withPolicy policy } requests) :
    Always serve Contained { manager := SpaceManager.withPolicy policy } requests ∧
      AtEachStep serve HandsOutManaged { manager := SpaceManager.withPolicy policy } requests := by
  have kept : Always serve Kept { manager := SpaceManager.withPolicy policy } requests :=
    always_of_invariant (fun _ _ kept confined => kept.serve confined) (kept_new policy) confined
  exact ⟨fun done inside => (kept done inside).contained, kept.atEachStep fun _ request kept => kept.handsOutManaged request⟩

/-- A run with a refused extent, a reservation across the end and frees of pages not held. -/
theorem only_managed_pages_are_handled_across_the_end :
    let start : Ledger := { manager := SpaceManager.withPolicy .bestFit }
    let requests := [.reserveRange 1048570 100, .client (.freeExtent ⟨0, 0⟩), .client (.freePage 3), .client (.freeExtent ⟨1048572, 4⟩)]
    AtEachStep serve Confined start requests ∧ Always serve Contained start requests ∧
      AtEachStep serve HandsOutManaged start requests :=
  ⟨by decide +kernel, only_managed_pages_are_handled .bestFit _ (by decide +kernel)⟩

/-- The reserved pages are accepted as a freed extent, counted and handed out. -/
theorem reserved_pages_are_handed_out :
    let start : Ledger := { manager := SpaceManager.withPolicy .firstFit }
    let freed := start.serve (.client (.freeExtent ⟨0, 8⟩))
    Covered freed.manager.freeSpaceMap.extents 0 ∧ freed.manager.allocatedPageCount = 4294967288 ∧
      ¬ freed.Contained ∧ freed.handedOut (.client (.allocateExtent 4 {})) = some ⟨0, 4⟩ ∧
      ¬ freed.HandsOutManaged (.client (.allocateExtent 4 {})) := by
  have covered : Covered ((Ledger.mk (SpaceManager.withPolicy .firstFit) [] []).serve
      (.client (.freeExtent ⟨0, 8⟩))).manager.freeSpaceMap.extents 0 :=
    ⟨⟨0, 1048576⟩, by decide +kernel, by decide +kernel, by decide +kernel⟩
  have handed : ((Ledger.mk (SpaceManager.withPolicy .firstFit) [] []).serve
      (.client (.freeExtent ⟨0, 8⟩))).handedOut (.client (.allocateExtent 4 {})) = some ⟨0, 4⟩ := by decide +kernel
  refine ⟨covered, by decide +kernel, fun contained => ?_, handed, fun managed => ?_⟩
  · exact absurd (contained.free 0 covered).1 (by decide)
  · exact absurd (managed _ handed 0 ⟨by decide, by decide⟩).1 (by decide)

/-- No page is free, or the page allocator's next id is a free page. -/
def NextIsFree (ledger : Ledger) : Prop :=
  ledger.manager.freeSpaceMap.extents = [] ∨
    ∃ id, nextId ledger.manager.pageAllocator = some id ∧ Covered ledger.manager.freeSpaceMap.extents id.toNat

/-- A page request that would fail now fails for want of free pages. -/
def FailsOnlyWhenEmpty (ledger : Ledger) : Prop :=
  ledger.manager.allocatePage.1 = kInvalidPageId → ∀ page, ¬ Covered ledger.manager.freeSpaceMap.extents page

theorem Kept.allocatePage_fails_iff (kept : ledger.Kept) :
    ledger.manager.allocatePage.1 = kInvalidPageId ↔
      ¬ ∃ id, nextId ledger.manager.pageAllocator = some id ∧
        Covered ledger.manager.freeSpaceMap.extents id.toNat := by
  have failed : ledger.manager.allocatePage.1 = kInvalidPageId ↔ ledger.handed .allocatePage = none := by
    simp [Ledger.handed]
  rw [failed, Option.eq_none_iff_forall_ne_some]
  constructor
  · rintro nothing ⟨id, next, covered⟩
    exact nothing ⟨id, 1⟩ ((kept.handed_page_iff _).mpr ⟨id, next, covered, rfl⟩)
  · intro none range handed
    obtain ⟨id, next, covered, -⟩ := (kept.handed_page_iff range).mp handed
    exact none ⟨id, next, covered⟩

theorem Kept.failsOnlyWhenEmpty_iff (kept : ledger.Kept) : ledger.FailsOnlyWhenEmpty ↔ ledger.NextIsFree := by
  rw [FailsOnlyWhenEmpty, NextIsFree, kept.allocatePage_fails_iff, ← kept.separated.spaced.nil_iff]
  exact (or_iff_not_imp_right).symm

/-- Clients free what they hold, and reservations do not wrap. -/
def Proper (ledger : Ledger) : SpaceRequest → Prop
  | .client next => ledger.Legal next
  | .reserveRange start count => start.toNat + count.toNat < 2 ^ 32

instance (ledger : Ledger) : (request : SpaceRequest) → Decidable (ledger.Proper request)
  | .client next => inferInstanceAs (Decidable (ledger.Legal next))
  | .reserveRange start count => inferInstanceAs (Decidable (start.toNat + count.toNat < 2 ^ 32))

theorem Kept.confined (kept : ledger.Kept) {request : SpaceRequest} (proper : ledger.Proper request) :
    ledger.Confined request :=
  match request with
  | .client (.freeExtent extent) => fun _ => kept.held extent proper
  | .client .allocatePage | .client (.allocateExtent _ _) | .client (.freePage _) => trivial
  | .reserveRange _ _ => proper

/-- Page requests fail for want of free pages only, in every state of a run, exactly when
the page allocator's next id is free in every state that has a free page. -/
theorem requests_fail_when_empty_iff (policy : AllocationPolicy) (requests : List SpaceRequest)
    (proper : AtEachStep serve Proper { manager := SpaceManager.withPolicy policy } requests) :
    Always serve FailsOnlyWhenEmpty { manager := SpaceManager.withPolicy policy } requests ↔
      Always serve NextIsFree { manager := SpaceManager.withPolicy policy } requests := by
  have kept : Always serve Kept { manager := SpaceManager.withPolicy policy } requests :=
    always_of_invariant (fun _ _ kept proper => kept.serve (kept.confined proper)) (kept_new policy) proper
  exact forall₂_congr fun done inside => (kept done inside).failsOnlyWhenEmpty_iff

theorem requests_fail_when_empty_iff_reused :
    let start : Ledger := { manager := SpaceManager.withPolicy .firstFit }
    let requests := [.client .allocatePage, .client .allocatePage, .client (.freePage 9), .reserveRange 20 4]
    AtEachStep serve Proper start requests ∧
      (Always serve FailsOnlyWhenEmpty start requests ↔ Always serve NextIsFree start requests) :=
  ⟨by decide +kernel, requests_fail_when_empty_iff .firstFit _ (by decide +kernel)⟩

/-- After page 9 was reserved the second page request fails, with all pages from 10 on free. -/
theorem reserved_page_blocks_requests :
    let start : Ledger := { manager := SpaceManager.withPolicy .firstFit }
    let requests := [.reserveRange 9 1, .client .allocatePage]
    AtEachStep serve Proper start requests ∧
      (after serve start requests).manager.allocatePage.1 = kInvalidPageId ∧
      (after serve start requests).manager.freeSpaceMap.extents = [⟨10, 1048566⟩] ∧
      ¬ Always serve FailsOnlyWhenEmpty start requests := by
  have failed : (after serve (Ledger.mk (SpaceManager.withPolicy .firstFit) [] [])
      [.reserveRange 9 1, .client .allocatePage]).manager.allocatePage.1 = kInvalidPageId := by decide +kernel
  refine ⟨by decide +kernel, failed, by decide +kernel, fun always => ?_⟩
  exact always.last failed 10 ⟨⟨10, 1048566⟩, by decide +kernel, by decide, by decide +kernel⟩

end Ledger
end Quartz.Space
