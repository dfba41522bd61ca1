import Quartz.Serialization.BinaryReader
import Quartz.Storage.PageAllocator

/-! References to pages, as they stand in nodes and in log payloads. -/

namespace Quartz.Format
open Storage Serialization

structure PageReference where
  pageId : PageId := kInvalidPageId
  generation : UInt64 := 0
  pageType : UInt8 := 0
  flags : UInt8 := 0
  reserved1 : UInt16 := 0
  checksum : UInt32 := 0
  deriving DecidableEq, Repr

namespace PageReference

def kSize : Nat := 20

def isValid (ref : PageReference) : Bool := ref.pageId != kInvalidPageId

/-- The comparison of the source, which looks at four of the fields. -/
def same (first second : PageReference) : Bool :=
  first.pageId == second.pageId && first.generation == second.generation && first.pageType == second.pageType &&
    first.flags == second.flags

def make (id : PageId) (generation : UInt64) (pageType : UInt8) : PageReference :=
  { pageId := id, generation := generation, pageType := pageType }

def invalid : PageReference := {}

def serialize (ref : PageReference) : List UInt8 :=
  Bytes.encode 4 ref.pageId.toNat ++ Bytes.encode 8 ref.generation.toNat ++ Bytes.encode 1 ref.pageType.toNat ++
    Bytes.encode 1 ref.flags.toNat ++ Bytes.encode 2 ref.reserved1.toNat ++ Bytes.encode 4 ref.checksum.toNat

def ofBytes (bytes : List UInt8) : PageReference where
  pageId := UInt32.ofNat (Bytes.field bytes 0 4)
  generation := UInt64.ofNat (Bytes.field bytes 4 8)
  pageType := UInt8.ofNat (Bytes.field bytes 12 1)
  flags := UInt8.ofNat (Bytes.field bytes 13 1)
  reserved1 := UInt16.ofNat (Bytes.field bytes 14 2)
  checksum := UInt32.ofNat (Bytes.field bytes 16 4)

def deserialize : Decoder PageReference := ofBytes <$> BinaryReader.readBytes kSize

@[simp] theorem length_serialize (ref : PageReference) : ref.serialize.length = kSize := by
  simp [serialize, kSize]

end PageReference
end Quartz.Format
