import Quartz.Lib.Search
import Quartz.Storage.PageAllocator

/-! Extents of pages and the sorted list of the free ones. -/

namespace Quartz.Space
open Storage

structure Extent where
  start : PageId := kInvalidPageId
  length : UInt32 := 0
  deriving DecidableEq, Repr

namespace Extent

def isValid (extent : Extent) : Bool := extent.length > 0 && extent.start != kInvalidPageId

def endPage (extent : Extent) : PageId := extent.start + extent.length

def containsPage (extent : Extent) (page : PageId) : Bool := page ≥ extent.start && page < extent.endPage

def contains (extent other : Extent) : Bool :=
  other.isValid && other.start ≥ extent.start && other.endPage ≤ extent.endPage

def intersects (extent other : Extent) : Bool :=
  if !extent.isValid || !other.isValid then false
  else extent.start < other.endPage && other.start < extent.endPage

def adjacentTo (extent other : Extent) : Bool :=
  if !extent.isValid || !other.isValid then false
  else extent.endPage == other.start || other.endPage == extent.start

def canMerge (extent other : Extent) : Bool := extent.intersects other || extent.adjacentTo other

def merge (first second : Extent) : Option Extent :=
  if !first.isValid || !second.isValid then none
  else
    let newStart := min first.start second.start
    let newEnd := max first.endPage second.endPage
    if newEnd ≤ newStart then none else some ⟨newStart, newEnd - newStart⟩

def split (extent : Extent) (atPage : PageId) : Option (Extent × Extent) :=
  if !extent.isValid || atPage ≤ extent.start || atPage ≥ extent.endPage then none
  else some (⟨extent.start, atPage - extent.start⟩, ⟨atPage, extent.endPage - atPage⟩)

end Extent

structure FreeSpaceMap where
  extents : List Extent := []
  deriving DecidableEq, Repr

namespace FreeSpaceMap

def initializeMap (_ : FreeSpaceMap) (start : PageId) (length : UInt32) : FreeSpaceMap :=
  if length > 0 then ⟨[⟨start, length⟩]⟩ else ⟨[]⟩

/-- What is left of an extent that contains the range. A range at its start leaves the
extent as it is: `split` has no answer there. -/
def carve (current range : Extent) : List Extent :=
  match current.split range.start with
  | none => [current]
  | some (left, rightEnd) =>
    let rightLen := rightEnd.length - range.length
    (if left.isValid then [left] else []) ++ (if rightLen > 0 then [⟨range.endPage, rightLen⟩] else [])

/-- The loop of `markAllocated` from the first extent that may overlap: whether anything
was found, and the extents from there on. -/
def markFrom (range : Extent) : List Extent → Bool → Bool × List Extent
  | [], changed => (changed, [])
  | current :: rest, changed =>
    if current.start < range.endPage then
      if range.contains current then markFrom range rest true
      else if current.contains range then (true, carve current range ++ rest)
      else if current.start < range.start && current.endPage > range.start then
        let (found, after) := markFrom range rest true
        (found, { current with length := range.start - current.start } :: after)
      else if current.start ≥ range.start && current.start < range.endPage then
        let remaining := current.length - (range.endPage - current.start)
        -- the shifted extent starts where the range ends, which stops the loop
        if remaining > 0 then (true, ⟨range.endPage, remaining⟩ :: rest) else markFrom range rest true
      else
        let (found, after) := markFrom range rest changed
        (found, current :: after)
    else (changed, current :: rest)

def markAllocated (map : FreeSpaceMap) (range : Extent) : Status × FreeSpaceMap :=
  if !range.isValid then (Status.invalidArgument "FreeSpaceMap::markAllocated: invalid extent", map)
  else if map.extents.isEmpty then
    (Status.invalidArgument "FreeSpaceMap::markAllocated: no free extents available", map)
  else
    let first := Search.lowerBound (fun extent : Extent => decide (extent.endPage ≤ range.start)) map.extents
    let (changed, after) := markFrom range (map.extents.drop first) false
    (if changed then Status.success
      else Status.invalidArgument "FreeSpaceMap::markAllocated: extent range does not overlap any free extent",
      ⟨map.extents.take first ++ after⟩)

/-- Merging an extent with its successors while they touch it. -/
def mergeRight (left : Extent) : List Extent → List Extent
  | [] => [left]
  | next :: rest =>
    if left.canMerge next then
      match left.merge next with
      | some merged => mergeRight merged rest
      | none => left :: next :: rest
    else left :: next :: rest

/-- The merge with the extent before the insertion point, when there is one to make. -/
def mergeLeft (front : List Extent) (range : Extent) : Option (List Extent × Extent) := do
  let prev ← front.getLast?
  let merged ← if prev.canMerge range then prev.merge range else none
  return (front.dropLast, merged)

def markFree (map : FreeSpaceMap) (range : Extent) : Status × FreeSpaceMap :=
  if !range.isValid then (Status.invalidArgument "FreeSpaceMap::markFree: invalid extent", map)
  else
    let first := Search.lowerBound (fun extent : Extent => decide (extent.start < range.start)) map.extents
    let front := map.extents.take first
    let (kept, left) := (mergeLeft front range).getD (front, range)
    (Status.success, ⟨kept ++ mergeRight left (map.extents.drop first)⟩)

def clear (_ : FreeSpaceMap) : FreeSpaceMap := ⟨[]⟩

def findFreeRange (map : FreeSpaceMap) (length : UInt32) (preferBeginning : Bool) : Extent :=
  if map.extents.isEmpty || length == 0 then {}
  else if preferBeginning then
    match map.extents.find? (fun extent => decide (extent.length ≥ length)) with
    | some extent => ⟨extent.start, length⟩
    | none => {}
  else
    match map.extents.reverse.find? (fun extent => decide (extent.length ≥ length)) with
    | some extent => ⟨extent.start + (extent.length - length), length⟩
    | none => {}

def findExactRange (map : FreeSpaceMap) (length : UInt32) : Extent :=
  (map.extents.find? (fun extent => extent.length == length)).getD {}

/-- The smallest extent that is long enough, the first of them. -/
def best (length : UInt32) : Option Extent → List Extent → Option Extent
  | found, [] => found
  | found, extent :: rest =>
    if extent.length ≥ length && found.all (fun smallest => decide (extent.length < smallest.length)) then
      best length (some extent) rest
    else best length found rest

def findBestRange (map : FreeSpaceMap) (length : UInt32) : Extent :=
  match best length none map.extents with
  | some extent => ⟨extent.start, length⟩
  | none => {}

def countFree (map : FreeSpaceMap) : UInt32 := map.extents.foldl (fun total extent => total + extent.length) 0

def contains (map : FreeSpaceMap) (page : PageId) : Bool :=
  let first := Search.lowerBound (fun extent : Extent => decide (extent.start < page)) map.extents
  (map.extents[first]?.any fun extent => extent.start == page) ||
    ((map.extents.take first).getLast?.any fun prev => prev.containsPage page)

/-- The checks on an extent and its successor, the successor being at the given index. -/
def validateFrom (index : Nat) : List Extent → Status
  | prev :: curr :: rest =>
    if !prev.isValid then
      Status.corruption ("FreeSpaceMap: invalid extent at index " ++ toString (index - 1))
    else if !curr.isValid then Status.corruption ("FreeSpaceMap: invalid extent at index " ++ toString index)
    else if prev.start ≥ curr.start then Status.corruption "FreeSpaceMap: extents not sorted"
    else if prev.intersects curr then Status.corruption "FreeSpaceMap: overlapping extents"
    else if prev.adjacentTo curr then Status.corruption "FreeSpaceMap: adjacent extents should be merged"
    else validateFrom (index + 1) (curr :: rest)
  | _ => Status.success

def validate (map : FreeSpaceMap) : Status := validateFrom 1 map.extents

end FreeSpaceMap
end Quartz.Space
