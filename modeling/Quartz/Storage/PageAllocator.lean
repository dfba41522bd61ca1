import Quartz.Status

/-! Page ids and the allocator that hands them out: freed ids first, newest first, then
ids never used before. -/

namespace Quartz.Storage

abbrev PageId := UInt32

def kInvalidPageId : PageId := 0xFFFFFFFF
def kMaxPageCount : UInt32 := 1048576
def kMaxPageId : PageId := kMaxPageCount - 1
def kReservedPageCount : PageId := 8
def kFirstDataPageId : PageId := 8

structure AllocatorStats where
  totalAllocated : UInt32 := 0
  totalFreed : UInt32 := 0
  peakAllocated : UInt32 := 0
  currentAllocated : UInt32 := 0
  freeListSize : UInt32 := 0
  nextPageId : UInt32 := kReservedPageCount
  deriving DecidableEq, Repr

/-- The head of `freeList` is the back of the vector. -/
structure PageAllocator where
  freeList : List PageId := []
  nextPageId : PageId := kReservedPageCount
  stats : AllocatorStats := {}
  deriving DecidableEq, Repr

namespace PageAllocator

/-- The counters of one successful allocation. -/
def record (stats : AllocatorStats) (freeListSize : Nat) : AllocatorStats :=
  { stats with
    totalAllocated := stats.totalAllocated + 1
    currentAllocated := stats.currentAllocated + 1
    peakAllocated :=
      if stats.currentAllocated + 1 > stats.peakAllocated then stats.currentAllocated + 1 else stats.peakAllocated
    freeListSize := UInt32.ofNat freeListSize }

def allocate (allocator : PageAllocator) : PageId × PageAllocator :=
  match allocator.freeList with
  | id :: rest => (id, { allocator with freeList := rest, stats := record allocator.stats rest.length })
  | [] =>
    if allocator.nextPageId > kMaxPageId then (kInvalidPageId, allocator)
    else (allocator.nextPageId,
      { allocator with nextPageId := allocator.nextPageId + 1, stats := record allocator.stats 0 })

def free (allocator : PageAllocator) (id : PageId) : Bool × PageAllocator :=
  if id = kInvalidPageId ∨ id < kReservedPageCount then (false, allocator)
  else if id ≥ allocator.nextPageId then (false, allocator)
  else if id ∈ allocator.freeList then (false, allocator)
  else (true, { allocator with
    freeList := id :: allocator.freeList
    stats := { allocator.stats with
      totalFreed := allocator.stats.totalFreed + 1
      currentAllocated := allocator.stats.currentAllocated - 1
      freeListSize := UInt32.ofNat (allocator.freeList.length + 1) } })

def reset (_ : PageAllocator) : PageAllocator := {}

def isAllocated (allocator : PageAllocator) (id : PageId) : Bool :=
  if id = kInvalidPageId then false
  else if id ≥ allocator.nextPageId then false
  else if id < kReservedPageCount then true
  else id ∉ allocator.freeList

end PageAllocator
end Quartz.Storage
