import Quartz.Space.FreeSpaceMap

/-! Space management: single pages come from the page allocator, extents from a policy
over the free space map, and the map records both. -/

namespace Quartz.Space
open Storage

structure AllocationHints where
  preferContiguous : Bool := false
  preferEnd : Bool := false
  exactFit : Bool := false
  deriving DecidableEq, Repr

inductive AllocationPolicy where
  | firstFit
  | bestFit
  | sequential (cursor : PageId)
  deriving DecidableEq, Repr

namespace AllocationPolicy

def firstFitAllocate (map : FreeSpaceMap) (length : UInt32) (hints : AllocationHints) : Extent :=
  if hints.exactFit then map.findExactRange length
  else if hints.preferContiguous || length > 1 then map.findFreeRange length !hints.preferEnd
  else map.findFreeRange length true

def bestFitAllocate (map : FreeSpaceMap) (length : UInt32) (hints : AllocationHints) : Extent :=
  if hints.exactFit then map.findExactRange length
  else if hints.preferContiguous || length > 1 then
    if (map.findBestRange length).isValid then map.findBestRange length else map.findFreeRange length true
  else map.findFreeRange length true

/-- From the cursor to the end and then from the beginning; the cursor moves to the
extent that served the request. -/
def sequentialAllocate (cursor : PageId) (map : FreeSpaceMap) (length : UInt32) : Extent × PageId :=
  let bound := Search.lowerBound (fun extent : Extent => decide (extent.start < cursor)) map.extents
  let first := if bound = map.extents.length then 0 else bound
  match (map.extents.drop first ++ map.extents.take first).find? (fun extent => decide (extent.length ≥ length)) with
  | some extent => (⟨extent.start, length⟩, extent.start)
  | none => ({}, cursor)

def allocate (policy : AllocationPolicy) (map : FreeSpaceMap) (length : UInt32) (hints : AllocationHints) :
    Extent × AllocationPolicy :=
  match policy with
  | .firstFit => (firstFitAllocate map length hints, policy)
  | .bestFit => (bestFitAllocate map length hints, policy)
  | .sequential cursor =>
    let (extent, moved) := sequentialAllocate cursor map length
    (extent, .sequential moved)

end AllocationPolicy

structure ExtentAllocator where
  policy : AllocationPolicy := .firstFit
  freeSpaceMap : FreeSpaceMap := {}
  deriving DecidableEq, Repr

namespace ExtentAllocator

def allocate (allocator : ExtentAllocator) (length : UInt32) (hints : AllocationHints) : Extent × ExtentAllocator :=
  if length == 0 then ({}, allocator)
  else
    let (extent, policy) := allocator.policy.allocate allocator.freeSpaceMap length hints
    if extent.isValid then
      let (status, map) := allocator.freeSpaceMap.markAllocated extent
      (if status.ok then extent else {}, ⟨policy, map⟩)
    else (extent, { allocator with policy := policy })

def release (allocator : ExtentAllocator) (extent : Extent) : Status × ExtentAllocator :=
  if !extent.isValid then (Status.invalidArgument "ExtentAllocator::release: invalid extent", allocator)
  else
    let (status, map) := allocator.freeSpaceMap.markFree extent
    (status, { allocator with freeSpaceMap := map })

end ExtentAllocator

structure SpaceStats where
  allocationsRequested : UInt64 := 0
  allocationsSucceeded : UInt64 := 0
  allocationsFailed : UInt64 := 0
  freesRequested : UInt64 := 0
  freesSucceeded : UInt64 := 0
  freesFailed : UInt64 := 0
  currentAllocatedPages : UInt32 := 0
  currentFreePages : UInt32 := 0
  extentCount : UInt32 := 0
  deriving DecidableEq, Repr

namespace SpaceStats

def recordAllocation (stats : SpaceStats) (success : Bool) : SpaceStats :=
  let stats := { stats with allocationsRequested := stats.allocationsRequested + 1 }
  if success then
    { stats with
      allocationsSucceeded := stats.allocationsSucceeded + 1
      currentAllocatedPages := stats.currentAllocatedPages + 1 }
  else { stats with allocationsFailed := stats.allocationsFailed + 1 }

def recordFree (stats : SpaceStats) (success : Bool) : SpaceStats :=
  let stats := { stats with freesRequested := stats.freesRequested + 1 }
  if success then
    { stats with
      freesSucceeded := stats.freesSucceeded + 1
      currentAllocatedPages :=
        if stats.currentAllocatedPages > 0 then stats.currentAllocatedPages - 1 else stats.currentAllocatedPages }
  else { stats with freesFailed := stats.freesFailed + 1 }

def update (stats : SpaceStats) (map : FreeSpaceMap) (totalPages : UInt32) : SpaceStats :=
  { stats with
    currentFreePages := map.countFree
    currentAllocatedPages := totalPages - map.countFree
    extentCount := UInt32.ofNat map.extents.length }

end SpaceStats

structure SpaceManager where
  pageAllocator : PageAllocator := {}
  extentAllocator : ExtentAllocator := {}
  stats : SpaceStats := {}
  deriving DecidableEq, Repr

namespace SpaceManager

def managedPages : UInt32 := kMaxPageId - kFirstDataPageId + 1

def initializeFreeSpace (manager : SpaceManager) : SpaceManager :=
  if managedPages > 0 then
    { manager with extentAllocator := { manager.extentAllocator with
        freeSpaceMap := manager.extentAllocator.freeSpaceMap.initializeMap kFirstDataPageId managedPages } }
  else manager

/-- The constructor. -/
def withPolicy (policy : AllocationPolicy) : SpaceManager :=
  initializeFreeSpace { extentAllocator := { policy := policy } }

def allocatePage (manager : SpaceManager) : PageId × SpaceManager :=
  let (id, pages) := manager.pageAllocator.allocate
  if id ≠ kInvalidPageId then
    let (status, map) := manager.extentAllocator.freeSpaceMap.markAllocated ⟨id, 1⟩
    let extents := { manager.extentAllocator with freeSpaceMap := map }
    if !status.ok then
      (kInvalidPageId, ⟨(pages.free id).2, extents, manager.stats.recordAllocation false⟩)
    else (id, ⟨pages, extents, manager.stats.recordAllocation true⟩)
  else (id, { manager with pageAllocator := pages, stats := manager.stats.recordAllocation false })

def freePage (manager : SpaceManager) (id : PageId) : Bool × SpaceManager :=
  let (freed, pages) := manager.pageAllocator.free id
  if !freed then (false, { manager with pageAllocator := pages, stats := manager.stats.recordFree false })
  else
    let (status, map) := manager.extentAllocator.freeSpaceMap.markFree ⟨id, 1⟩
    (status.ok, ⟨pages, { manager.extentAllocator with freeSpaceMap := map }, manager.stats.recordFree status.ok⟩)

def allocateExtent (manager : SpaceManager) (length : UInt32) (hints : AllocationHints) : Extent × SpaceManager :=
  let (extent, extents) := manager.extentAllocator.allocate length hints
  let stats := manager.stats.recordAllocation extent.isValid
  (extent, ⟨manager.pageAllocator, extents,
    if extent.isValid then stats.update extents.freeSpaceMap (kMaxPageId + 1) else stats⟩)

def freeExtent (manager : SpaceManager) (extent : Extent) : Status × SpaceManager :=
  let (status, extents) := manager.extentAllocator.release extent
  let stats := manager.stats.recordFree status.ok
  (status, ⟨manager.pageAllocator, extents,
    if status.ok then stats.update extents.freeSpaceMap (kMaxPageId + 1) else stats⟩)

def reserveRange (manager : SpaceManager) (start : PageId) (count : UInt32) : Status × SpaceManager :=
  if start < kFirstDataPageId then (Status.invalidArgument "Cannot reserve reserved page range", manager)
  else
    let (status, map) := manager.extentAllocator.freeSpaceMap.markAllocated ⟨start, count⟩
    (status, ⟨manager.pageAllocator, { manager.extentAllocator with freeSpaceMap := map },
      if status.ok then manager.stats.update map (kMaxPageId + 1) else manager.stats⟩)

def allocatedPageCount (manager : SpaceManager) : UInt32 :=
  managedPages - manager.extentAllocator.freeSpaceMap.countFree

def freePageCount (manager : SpaceManager) : UInt32 := manager.extentAllocator.freeSpaceMap.countFree

def reset (manager : SpaceManager) : SpaceManager :=
  initializeFreeSpace ⟨manager.pageAllocator.reset, { manager.extentAllocator with freeSpaceMap := {} }, {}⟩

end SpaceManager
end Quartz.Space
