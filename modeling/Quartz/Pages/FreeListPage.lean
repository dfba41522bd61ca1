import Quartz.Pages.BasePage

/-! Free-list pages. The count and the capacity are whatever the page holds; an access to an entry
that the array does not have is undefined and has no result. -/

namespace Quartz.Pages
open Storage Serialization

def kFreePages : Nat := 1000

structure FreeListPageLayout where
  freeCount : UInt32 := 0
  capacity : UInt32 := 0
  reserved : Bytes.Block 24 := .zeros 24
  freePages : List PageId := List.replicate kFreePages 0
  sized : freePages.length = kFreePages := by exact List.length_replicate
  deriving DecidableEq, Repr

namespace FreeListPageLayout

def isValid (layout : FreeListPageLayout) : Bool := layout.capacity > 0 && layout.freeCount ≤ layout.capacity

def ofBytes (bytes : List UInt8) : FreeListPageLayout where
  freeCount := UInt32.ofNat (Bytes.field bytes 0 4)
  capacity := UInt32.ofNat (Bytes.field bytes 4 4)
  reserved := .ofList 24 (bytes.drop 8)
  freePages := (List.range kFreePages).map fun index => UInt32.ofNat (Bytes.field bytes (32 + 4 * index) 4)
  sized := by rw [List.length_map, List.length_range]

def store (layout : FreeListPageLayout) (index : Nat) (pageId : PageId) : Option FreeListPageLayout :=
  if index < kFreePages then
    some { layout with
      freePages := layout.freePages.set index pageId
      sized := by rw [List.length_set, layout.sized] }
  else none

end FreeListPageLayout

structure FreeListPage where
  header : PageHeader
  layout : FreeListPageLayout
  deriving DecidableEq, Repr

namespace FreeListPage

def load (image : Bytes.Block kPageSize) : FreeListPage where
  header := PageHeader.ofBytes image.bytes
  layout := FreeListPageLayout.ofBytes (image.bytes.drop kPageHeaderSize)

def create (pageId : PageId) : FreeListPage where
  header := PageHeader.make pageId 3
  layout := { capacity := 1000 }

def freeCount (page : FreeListPage) : UInt32 := page.layout.freeCount

def capacity (page : FreeListPage) : UInt32 := page.layout.capacity

def freePage (page : FreeListPage) (index : Nat) : Option PageId :=
  if index ≥ page.freeCount.toNat then some kInvalidPageId else page.layout.freePages[index]?

def setFreePage (page : FreeListPage) (index : Nat) (pageId : PageId) : Option (Status × FreeListPage) :=
  if index ≥ page.capacity.toNat then some (Status.invalidArgument "FreeListPage: index out of range", page)
  else do
    let layout ← page.layout.store index pageId
    return (Status.success, { page with layout := layout })

def addFreePage (page : FreeListPage) (pageId : PageId) : Option (Status × FreeListPage) :=
  if page.layout.freeCount ≥ page.layout.capacity then
    some (Status.invalidArgument "FreeListPage: free list is full", page)
  else do
    let layout ← page.layout.store page.layout.freeCount.toNat pageId
    return (Status.success, { page with layout := { layout with freeCount := layout.freeCount + 1 } })

def clearFreePages (page : FreeListPage) : FreeListPage :=
  { page with layout := { page.layout with freeCount := 0 } }

def validate (page : FreeListPage) : Status :=
  if !page.layout.isValid then Status.corruption "FreeListPage: invalid layout" else Status.success

end FreeListPage

inductive FreeListCall where
  | addFreePage (pageId : PageId)
  | clearFreePages
  deriving DecidableEq, Repr

end Quartz.Pages
