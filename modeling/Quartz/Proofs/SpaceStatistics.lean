import Quartz.Proofs.SpaceRuns

/-! The statistics of a space manager. The counters of requests add up in every run. The
count of allocated pages goes with that of the manager until a page is handed out that
the map goes on counting as free, or until the count is taken from the map: what is
subtracted from there includes the reserved pages. -/

namespace Quartz.Space
open Storage FreeSpaceMap Runs

/-- What the clients of a space manager may ask of it, and its reset. -/
inductive SpaceOperation where
  | request (next : SpaceRequest)
  | reset
  deriving DecidableEq, Repr

namespace SpaceStats

variable {stats : SpaceStats}

/-- Every request has succeeded or failed. -/
structure AddsUp (stats : SpaceStats) : Prop where
  allocations : stats.allocationsRequested = stats.allocationsSucceeded + stats.allocationsFailed
  frees : stats.freesRequested = stats.freesSucceeded + stats.freesFailed

theorem addsUp_new : AddsUp {} := ⟨rfl, rfl⟩

theorem AddsUp.recordAllocation (adds : stats.AddsUp) (success : Bool) : (stats.recordAllocation success).AddsUp := by
  obtain ⟨allocations, frees⟩ := adds
  cases success with
  | true =>
    refine ⟨?_, frees⟩
    simp only [SpaceStats.recordAllocation, if_true, allocations]
    rw [UInt64.add_assoc, UInt64.add_comm stats.allocationsFailed, ← UInt64.add_assoc]
  | false => exact ⟨by simp [SpaceStats.recordAllocation, allocations, UInt64.add_assoc], frees⟩

theorem AddsUp.recordFree (adds : stats.AddsUp) (success : Bool) : (stats.recordFree success).AddsUp := by
  obtain ⟨allocations, frees⟩ := adds
  cases success with
  | true =>
    refine ⟨allocations, ?_⟩
    simp only [SpaceStats.recordFree, if_true, frees]
    rw [UInt64.add_assoc, UInt64.add_comm stats.freesFailed, ← UInt64.add_assoc]
  | false => exact ⟨allocations, by simp [SpaceStats.recordFree, frees, UInt64.add_assoc]⟩

theorem AddsUp.update (adds : stats.AddsUp) (map : FreeSpaceMap) (totalPages : UInt32) :
    (stats.update map totalPages).AddsUp := ⟨adds.allocations, adds.frees⟩

theorem update_differs (stats : SpaceStats) (map : FreeSpaceMap) :
    (stats.update map (kMaxPageId + 1)).currentAllocatedPages ≠ SpaceManager.managedPages - map.countFree := by
  intro same
  have totals : kMaxPageId + 1 = SpaceManager.managedPages := by
    rw [← UInt32.sub_add_cancel (kMaxPageId + 1) map.countFree, ← UInt32.sub_add_cancel SpaceManager.managedPages map.countFree]
    exact congrArg (· + map.countFree) same
  exact absurd totals (by decide)

end SpaceStats

namespace SpaceManager

theorem allocatePage_stats (manager : SpaceManager) : manager.allocatePage.2.stats =
    manager.stats.recordAllocation (decide (manager.allocatePage.1 ≠ kInvalidPageId)) := by
  by_cases valid : manager.pageAllocator.allocate.1 = kInvalidPageId
  · simp [allocatePage, valid]
  · cases marked : (manager.extentAllocator.freeSpaceMap.markAllocated ⟨manager.pageAllocator.allocate.1, 1⟩).1.ok with
    | false | true => simp [allocatePage, valid, marked]

theorem freePage_stats (manager : SpaceManager) (id : PageId) :
    (manager.freePage id).2.stats = manager.stats.recordFree (manager.freePage id).1 := by
  cases freed : (manager.pageAllocator.free id).1 with
  | false | true => simp [freePage, freed]

/-- A reservation fails and changes nothing, or takes the count from the map. -/
theorem reserveRange_cases {manager : SpaceManager} (spaced : Spaced manager.freeSpaceMap.extents) (start : PageId) (count : UInt32) :
    (start < kFirstDataPageId ∨ ∀ free ∈ manager.freeSpaceMap.extents, (Extent.mk start count).intersects free = false) ∧
        (manager.reserveRange start count).2 = manager ∨
      ¬ (start < kFirstDataPageId ∨ ∀ free ∈ manager.freeSpaceMap.extents, (Extent.mk start count).intersects free = false) ∧
        (manager.reserveRange start count).2.stats =
          manager.stats.update (manager.reserveRange start count).2.freeSpaceMap (kMaxPageId + 1) := by
  by_cases reserved : start < kFirstDataPageId
  · exact .inl ⟨.inl reserved, by simp only [reserveRange, reserved, if_true]⟩
  have met : (manager.freeSpaceMap.markAllocated ⟨start, count⟩).1.ok = true ↔ _ := markAllocated_ok_iff spaced
  cases marked : (manager.freeSpaceMap.markAllocated ⟨start, count⟩).1.ok with
  | false =>
    have same := markAllocated_failed marked
    rw [marked] at met
    refine .inl ⟨.inr fun free member => ?_, ?_⟩
    · cases meets : (Extent.mk start count).intersects free with
      | false => rfl
      | true => exact Bool.noConfusion (met.mpr ⟨free, member, meets⟩)
    · rw [freeSpaceMap] at marked same
      simp only [reserveRange, reserved, if_false, marked, same, Bool.false_eq_true]
  | true =>
    obtain ⟨free, member, meets⟩ := met.mp marked
    refine .inr ⟨?_, ?_⟩
    · rintro (low | apart)
      · exact reserved low
      · exact Bool.noConfusion ((apart free member).symm.trans meets)
    · rw [freeSpaceMap] at marked
      simp only [reserveRange, reserved, if_false, marked, if_true, freeSpaceMap]

end SpaceManager

namespace Ledger

variable {ledger : Ledger}

/-- After a reset nobody holds anything. -/
def perform (ledger : Ledger) : SpaceOperation → Ledger
  | .request next => ledger.serve next
  | .reset => { manager := ledger.manager.reset }

/-- Clients free what they hold; reservations are of any kind. -/
def Entitled (ledger : Ledger) : SpaceOperation → Prop
  | .request (.client next) => ledger.Legal next
  | .request (.reserveRange _ _) | .reset => True

instance (ledger : Ledger) : (operation : SpaceOperation) → Decidable (ledger.Entitled operation)
  | .request (.client next) => inferInstanceAs (Decidable (ledger.Legal next))
  | .request (.reserveRange _ _) | .reset => isTrue trivial

/-- The statistics show what the manager does. -/
structure Tracked (ledger : Ledger) : Prop where
  allocated : ledger.manager.stats.currentAllocatedPages = ledger.manager.allocatedPageCount
  addsUp : ledger.manager.stats.AddsUp

/-- The next page is not the front of a larger free extent, no free extent serves the
length, no free extent meets the range, and no extent is given back. -/
def Accounted (ledger : Ledger) : SpaceOperation → Prop
  | .request (.client .allocatePage) => ∀ id ∈ nextId ledger.manager.pageAllocator,
      ∀ free ∈ ledger.manager.freeSpaceMap.extents, id = free.start → ¬ 1 < free.length
  | .request (.client (.allocateExtent length hints)) =>
    length = 0 ∨ ∀ free ∈ ledger.manager.freeSpaceMap.extents,
      ¬ ledger.manager.extentAllocator.policy.Fits hints length free
  | .request (.client (.freeExtent _)) => False
  | .request (.reserveRange start count) =>
    start < kFirstDataPageId ∨ ∀ free ∈ ledger.manager.freeSpaceMap.extents, (Extent.mk start count).intersects free = false
  | .request (.client (.freePage _)) | .reset => True

theorem addsUp_perform (adds : ledger.manager.stats.AddsUp) (operation : SpaceOperation) :
    (ledger.perform operation).manager.stats.AddsUp := by
  match operation with
  | .request (.client .allocatePage) =>
    show ledger.manager.allocatePage.2.stats.AddsUp
    rw [SpaceManager.allocatePage_stats]
    exact adds.recordAllocation _
  | .request (.client (.freePage id)) =>
    show (ledger.manager.freePage id).2.stats.AddsUp
    rw [SpaceManager.freePage_stats]
    exact adds.recordFree _
  | .request (.client (.allocateExtent length hints)) =>
    simp only [perform, serve, call, SpaceManager.allocateExtent]
    split
    · exact (adds.recordAllocation _).update _ _
    · exact adds.recordAllocation _
  | .request (.client (.freeExtent extent)) =>
    simp only [perform, serve, call, SpaceManager.freeExtent]
    split
    · exact (adds.recordFree _).update _ _
    · exact adds.recordFree _
  | .request (.reserveRange start count) =>
    simp only [perform, serve, SpaceManager.reserveRange]
    split
    · exact adds
    · simp only
      split
      · exact adds.update _ _
      · exact adds
  | .reset => exact SpaceStats.addsUp_new

theorem counters_add_up (adds : ledger.manager.stats.AddsUp) (operations : List SpaceOperation) :
    Always perform (fun ledger => ledger.manager.stats.AddsUp) ledger operations :=
  always_of_invariant (fun _ operation adds _ => addsUp_perform adds operation) adds (atEachStep_true ledger operations)

theorem Sound.allocatedPageCount (sound : ledger.Sound) :
    ledger.manager.allocatedPageCount.toNat = ledger.held.length := by
  have balance := sound.kept.contained.balance
  have free := sound.kept.contained.counted
  have shared := sound.balanced.counted
  omega

theorem carved_page_iff : ledger.Carved .allocatePage ↔ ledger.Accounted (.request (.client .allocatePage)) := by
  constructor
  · intro carved id next
    exact carved ⟨id, 1⟩ (Option.map_eq_some_iff.mpr ⟨id, next, rfl⟩)
  · intro accounted range chosen
    obtain ⟨id, next, rfl⟩ := Option.map_eq_some_iff.mp chosen
    exact accounted id next

/-- The statistics agree with a ledger in which the map and the clients share out the pages. -/
structure InStep (ledger : Ledger) : Prop where
  sound : ledger.Sound
  tracked : ledger.Tracked

theorem InStep.current (inStep : ledger.InStep) :
    ledger.manager.stats.currentAllocatedPages.toNat = ledger.held.length := by
  rw [inStep.tracked.allocated, inStep.sound.allocatedPageCount]

theorem InStep.held_le (inStep : ledger.InStep) : ledger.held.length ≤ 1048568 := by
  have shared := inStep.sound.balanced.counted
  have managed : SpaceManager.managedPages.toNat = 1048568 := rfl
  omega

theorem inStep_of_current (sound : ledger.Sound) (adds : ledger.manager.stats.AddsUp)
    (current : ledger.manager.stats.currentAllocatedPages.toNat = ledger.held.length) : ledger.InStep := by
  refine ⟨sound, UInt32.toNat_inj.mp ?_, adds⟩
  rw [current, sound.allocatedPageCount]

theorem inStep_new (policy : AllocationPolicy) : InStep { manager := SpaceManager.withPolicy policy } :=
  inStep_of_current (sound_new policy) SpaceStats.addsUp_new rfl

private theorem InStep.allocatePage (inStep : ledger.InStep)
    (accounted : ledger.Accounted (.request (.client .allocatePage))) : (ledger.call .allocatePage).InStep := by
  have sound : (ledger.call .allocatePage).Sound :=
    call_sound inStep.sound trivial (carved_page_iff.mpr accounted)
  refine inStep_of_current sound (addsUp_perform inStep.tracked.addsUp (.request (.client .allocatePage))) ?_
  have before := inStep.current
  have small := inStep.held_le
  have stats : (ledger.call .allocatePage).manager.stats = _ := ledger.manager.allocatePage_stats
  rw [stats]
  by_cases failed : ledger.manager.allocatePage.1 = kInvalidPageId
  · have held : (ledger.call .allocatePage).held = ledger.held := by simp [call, Ledger.held, failed]
    rw [held, ← before]
    simp [failed, SpaceStats.recordAllocation]
  · have held : (ledger.call .allocatePage).held.length = ledger.held.length + 1 := by
      simp [call, Ledger.held, failed, Nat.add_right_comm]
    simp only [failed, ne_eq, not_false_eq_true, decide_true, SpaceStats.recordAllocation, if_true, held, UInt32.toNat_add,
      UInt32.toNat_one, before]
    omega

private theorem InStep.freePage (inStep : ledger.InStep) {id : PageId} (holds : id ∈ ledger.pages) :
    (ledger.call (.freePage id)).InStep := by
  have sound : (ledger.call (.freePage id)).Sound := call_sound inStep.sound holds fun _ handed => by cases handed
  refine inStep_of_current sound (addsUp_perform inStep.tracked.addsUp (.request (.client (.freePage id)))) ?_
  have before := inStep.current
  have small := inStep.held_le
  have held : (ledger.call (.freePage id)).held.length + 1 = ledger.held.length := by
    have some := List.length_pos_of_mem holds
    simp only [call, Ledger.held, List.length_append, List.length_map, List.length_erase_of_mem holds]
    omega
  obtain ⟨pages, map, called, -⟩ := SpaceManager.freePage_owned inStep.sound.allocator
    inStep.sound.balanced.separated (inStep.sound.owned id holds)
  have freed : (ledger.manager.freePage id).1 = true := congrArg Prod.fst called
  have stats : (ledger.call (.freePage id)).manager.stats = _ := ledger.manager.freePage_stats id
  have positive : ledger.manager.stats.currentAllocatedPages > 0 := by
    rw [gt_iff_lt, UInt32.lt_iff_toNat_lt, before, UInt32.toNat_zero]
    omega
  have one : (1 : UInt32) ≤ ledger.manager.stats.currentAllocatedPages := by
    rw [UInt32.le_iff_toNat_le, before, UInt32.toNat_one]
    omega
  rw [stats, freed]
  simp only [SpaceStats.recordFree, if_true, positive, UInt32.toNat_sub_of_le _ _ one, UInt32.toNat_one, before]
  omega

private theorem InStep.allocateExtent (inStep : ledger.InStep) {length : UInt32} {hints : AllocationHints}
    (accounted : ledger.Accounted (.request (.client (.allocateExtent length hints)))) :
    (ledger.call (.allocateExtent length hints)).InStep := by
  have refused : (ledger.manager.extentAllocator.allocate length hints).1.isValid = false := by
    rw [Bool.eq_false_iff, Ne, ExtentAllocator.allocate_isValid_iff inStep.sound.balanced.separated.spaced]
    rintro ⟨requested, free, member, fits⟩
    exact accounted.elim requested fun none => none free member fits
  have sound : (ledger.call (.allocateExtent length hints)).Sound := by
    refine call_sound inStep.sound trivial fun range chosen free member starts => ?_
    have handed := inStep.sound.kept.chosen_handed chosen member starts
    simp [Ledger.handed, SpaceManager.allocateExtent, refused] at handed
  refine inStep_of_current sound (addsUp_perform inStep.tracked.addsUp (.request (.client (.allocateExtent length hints)))) ?_
  simpa [call, Ledger.held, SpaceManager.allocateExtent, refused, SpaceStats.recordAllocation] using inStep.current

theorem InStep.performed (inStep : ledger.InStep) {operation : SpaceOperation} (entitled : ledger.Entitled operation)
    (accounted : ledger.Accounted operation) : (ledger.perform operation).InStep := by
  match operation with
  | .request (.client .allocatePage) => exact inStep.allocatePage accounted
  | .request (.client (.freePage _)) => exact inStep.freePage entitled
  | .request (.client (.allocateExtent _ _)) => exact inStep.allocateExtent accounted
  | .request (.client (.freeExtent _)) => exact accounted.elim
  | .request (.reserveRange start count) =>
    have cases := SpaceManager.reserveRange_cases inStep.sound.balanced.separated.spaced start count
    obtain ⟨-, same⟩ := cases.resolve_right fun taken => taken.1 accounted
    simp only [perform, serve, same]
    exact inStep
  | .reset => exact inStep_new ledger.manager.extentAllocator.policy

theorem InStep.accounted (inStep : ledger.InStep) {operation : SpaceOperation} (entitled : ledger.Entitled operation)
    (tracked : (ledger.perform operation).Tracked) : ledger.Accounted operation := by
  have spaced := inStep.sound.balanced.separated.spaced
  match operation with
  | .request (.client (.freePage _)) | .reset => trivial
  | .request (.client .allocatePage) =>
    refine carved_page_iff.mp fun range chosen free member starts shorter => ?_
    have handed := inStep.sound.kept.chosen_handed chosen member starts
    obtain ⟨nonempty, -, map, -⟩ := handed_facts inStep.sound.kept handed
    have ignored := markAllocated_ignores spaced member nonempty starts shorter
    have same : (ledger.call .allocatePage).manager.allocatedPageCount = ledger.manager.allocatedPageCount :=
      congrArg (fun after : FreeSpaceMap => SpaceManager.managedPages - after.countFree)
        (map.trans (congrArg Prod.snd ignored))
    have granted : ledger.manager.allocatePage.1 ≠ kInvalidPageId := by
      intro failed
      simp [Ledger.handed, failed] at handed
    have stats : (ledger.call .allocatePage).manager.stats = _ := ledger.manager.allocatePage_stats
    have counted : (ledger.call .allocatePage).manager.stats.currentAllocatedPages =
      (ledger.call .allocatePage).manager.allocatedPageCount := tracked.allocated
    rw [stats, same, ← inStep.tracked.allocated] at counted
    simp [granted, SpaceStats.recordAllocation] at counted
  | .request (.client (.allocateExtent length hints)) =>
    by_contra taken
    have valid : (ledger.manager.extentAllocator.allocate length hints).1.isValid = true := by
      simp only [Accounted, not_or, not_forall, not_not, exists_prop] at taken
      exact (ExtentAllocator.allocate_isValid_iff spaced length hints).mpr taken
    have allocated := tracked.allocated
    simp only [perform, serve, call, SpaceManager.allocateExtent, valid, if_true] at allocated
    exact SpaceStats.update_differs _ _ allocated
  | .request (.client (.freeExtent extent)) =>
    have managed := managed_of_held inStep.sound entitled
    obtain ⟨after, marked, -⟩ := inStep.sound.balanced.separated.markFree_covers managed
    rw [SpaceManager.freeSpaceMap] at marked
    have allocated := tracked.allocated
    simp only [perform, serve, call, SpaceManager.freeExtent, ExtentAllocator.release, managed.isValid, marked, if_not_true,
      Status.ok_success, if_true] at allocated
    exact SpaceStats.update_differs _ _ allocated
  | .request (.reserveRange start count) =>
    rcases SpaceManager.reserveRange_cases spaced start count with ⟨accounted, -⟩ | ⟨-, stats⟩
    · exact accounted
    · have allocated := tracked.allocated
      simp only [perform, serve, stats] at allocated
      exact absurd allocated (SpaceStats.update_differs _ _)

theorem InStep.tracked_iff (inStep : ledger.InStep) {operations : List SpaceOperation}
    (entitled : AtEachStep perform Entitled ledger operations) :
    Always perform Tracked ledger operations ↔ AtEachStep perform Accounted ledger operations :=
  always_iff_atEachStep InStep (fun _ inStep => inStep.tracked)
    (fun _ _ inStep entitled accounted => inStep.performed entitled accounted)
    (fun _ _ inStep entitled tracked => inStep.accounted entitled tracked) inStep entitled

/-- A page from the middle of a free extent is accounted for. -/
example :
    let start : Ledger := { manager := { SpaceManager.withPolicy .firstFit with pageAllocator := { nextPageId := 20 } } }
    Always perform (fun ledger => ledger.manager.stats.currentAllocatedPages = ledger.manager.allocatedPageCount) start
      [.request (.client .allocatePage), .request (.client (.freePage 20)), .request (.client .allocatePage)] := by
  decide +kernel

/-- The statistics of a new manager track it through a run exactly when every operation of
the run is accounted for. -/
theorem statistics_track_iff_accounted (policy : AllocationPolicy) (operations : List SpaceOperation)
    (entitled : AtEachStep perform Entitled { manager := SpaceManager.withPolicy policy } operations) :
    Always perform Tracked { manager := SpaceManager.withPolicy policy } operations ↔
      AtEachStep perform Accounted { manager := SpaceManager.withPolicy policy } operations :=
  (inStep_new policy).tracked_iff entitled

/-- A refused reservation and a refused extent before a reset, a page taken and given back behind it. -/
theorem statistics_track_iff_accounted_with_reset :
    let start : Ledger := { manager := SpaceManager.withPolicy .bestFit }
    let operations := [.request (.reserveRange 3 2), .request (.client (.allocateExtent 2000000 {})), .reset,
      .request (.client .allocatePage), .request (.client (.freePage 8))]
    AtEachStep perform Entitled start operations ∧
      (Always perform Tracked start operations ↔ AtEachStep perform Accounted start operations) :=
  ⟨by decide +kernel, statistics_track_iff_accounted .bestFit _ (by decide +kernel)⟩

/-- The first page is counted by the statistics and not by the manager, and one reserved page
shows as nine. -/
theorem counts_come_apart :
    let start : Ledger := { manager := SpaceManager.withPolicy .firstFit }
    let page := start.perform (.request (.client .allocatePage))
    let range := start.perform (.request (.reserveRange 100 1))
    AtEachStep perform Entitled start [.request (.client .allocatePage)] ∧
      page.manager.stats.currentAllocatedPages = 1 ∧ page.manager.allocatedPageCount = 0 ∧
      ¬ Always perform Tracked start [.request (.client .allocatePage)] ∧
      AtEachStep perform Entitled start [.request (.reserveRange 100 1)] ∧
      range.manager.stats.currentAllocatedPages = 9 ∧ range.manager.allocatedPageCount = 1 ∧
      ¬ Always perform Tracked start [.request (.reserveRange 100 1)] := by
  refine ⟨by decide +kernel, by decide +kernel, by decide +kernel, fun always => ?_,
    by decide +kernel, by decide +kernel, by decide +kernel, fun always => ?_⟩
  · have counted := always.last.allocated
    revert counted
    decide +kernel
  · have counted := always.last.allocated
    revert counted
    decide +kernel

end Ledger
end Quartz.Space
