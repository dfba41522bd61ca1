import Quartz.Lib.Block
import Quartz.Serialization.BinaryReader
import Quartz.Storage.PageAllocator

/-! Index pages: the header every page starts with and the layout of the payload. The
header of the page object and its copy in the page's bytes are one: the tree sets them
only together, when a page is reset and when it is read. -/

namespace Quartz.Pages
open Storage Serialization

def kMagicNumber : UInt32 := 0x51444231
def kFileFormatVersion : UInt32 := 1
def kPageSize : Nat := 4096
def kPageHeaderSize : Nat := 64
def kPagePayloadSize : Nat := kPageSize - kPageHeaderSize

/-- The reserved words at the end are kept as their bytes. -/
structure PageHeader where
  magic : UInt32
  version : UInt32
  pageId : PageId
  pageType : UInt8
  flags : UInt8 := 0
  payloadSize : UInt16
  reserved1 : UInt16 := 0
  timestamp : UInt32 := 0
  checksum : UInt32 := 0
  generation : UInt64 := 0
  reserved2 : Bytes.Block 30 := .zeros 30
  deriving DecidableEq, Repr

namespace PageHeader

def make (id : PageId) (type : UInt8) : PageHeader where
  magic := kMagicNumber
  version := kFileFormatVersion
  pageId := id
  pageType := type
  payloadSize := UInt16.ofNat kPagePayloadSize

def serialize (header : PageHeader) : List UInt8 :=
  Bytes.encode 4 header.magic.toNat ++ Bytes.encode 4 header.version.toNat ++ Bytes.encode 4 header.pageId.toNat ++
    Bytes.encode 1 header.pageType.toNat ++ Bytes.encode 1 header.flags.toNat ++
    Bytes.encode 2 header.payloadSize.toNat ++ Bytes.encode 2 header.reserved1.toNat ++
    Bytes.encode 4 header.timestamp.toNat ++ Bytes.encode 4 header.checksum.toNat ++
    Bytes.encode 8 header.generation.toNat ++ header.reserved2.bytes

def ofBytes (bytes : List UInt8) : PageHeader where
  magic := UInt32.ofNat (Bytes.field bytes 0 4)
  version := UInt32.ofNat (Bytes.field bytes 4 4)
  pageId := UInt32.ofNat (Bytes.field bytes 8 4)
  pageType := UInt8.ofNat (Bytes.field bytes 12 1)
  flags := UInt8.ofNat (Bytes.field bytes 13 1)
  payloadSize := UInt16.ofNat (Bytes.field bytes 14 2)
  reserved1 := UInt16.ofNat (Bytes.field bytes 16 2)
  timestamp := UInt32.ofNat (Bytes.field bytes 18 4)
  checksum := UInt32.ofNat (Bytes.field bytes 22 4)
  generation := UInt64.ofNat (Bytes.field bytes 26 8)
  reserved2 := .ofList 30 (bytes.drop 34)

end PageHeader

/-- The counts are 32-bit numbers; what is stored in them is reduced where it is stored. -/
structure IndexPageLayout where
  nodeType : Nat := 0
  keyCount : Nat := 0
  capacity : Nat := 0
  flags : Nat := 0
  reserved0 : UInt64 := 0
  reserved1 : UInt64 := 0
  reserved2 : UInt64 := 0
  data : Bytes.Block 3992 := .zeros 3992
  deriving DecidableEq, Repr

namespace IndexPageLayout

def isValid (layout : IndexPageLayout) : Bool := layout.capacity > 0 && layout.keyCount ≤ layout.capacity

def serialize (layout : IndexPageLayout) : List UInt8 :=
  Bytes.encode 4 layout.nodeType ++ Bytes.encode 4 layout.keyCount ++ Bytes.encode 4 layout.capacity ++
    Bytes.encode 4 layout.flags ++ Bytes.encode 8 layout.reserved0.toNat ++ Bytes.encode 8 layout.reserved1.toNat ++
    Bytes.encode 8 layout.reserved2.toNat ++ layout.data.bytes

def ofBytes (bytes : List UInt8) : IndexPageLayout where
  nodeType := Bytes.field bytes 0 4
  keyCount := Bytes.field bytes 4 4
  capacity := Bytes.field bytes 8 4
  flags := Bytes.field bytes 12 4
  reserved0 := UInt64.ofNat (Bytes.field bytes 16 8)
  reserved1 := UInt64.ofNat (Bytes.field bytes 24 8)
  reserved2 := UInt64.ofNat (Bytes.field bytes 32 8)
  data := .ofList 3992 (bytes.drop 40)

end IndexPageLayout

structure IndexPage where
  header : PageHeader
  layout : IndexPageLayout := {}
  deriving DecidableEq, Repr

namespace IndexPage

def id (page : IndexPage) : PageId := page.header.pageId

def setKeyCount (page : IndexPage) (count : Nat) : IndexPage :=
  { page with layout := { page.layout with keyCount := count % 2 ^ 32 } }

def validate (page : IndexPage) : Status :=
  if !page.layout.isValid then Status.corruption "IndexPage: invalid layout" else Status.success

/-- The reset stores the number of the index layout as the type of the page. -/
def create (pageId : PageId) : IndexPage where
  header := PageHeader.make pageId 5

/-- The page with something else in the data behind its layout. -/
def withData (page : IndexPage) (kept : Bytes.Block 3992 → Bytes.Block 3992) : IndexPage :=
  { page with layout := { page.layout with data := kept page.layout.data } }

def serialize (page : IndexPage) : List UInt8 := page.header.serialize ++ page.layout.serialize

def deserialize : Decoder IndexPage := do
  let bytes ← BinaryReader.readBytes kPageSize
  return ⟨PageHeader.ofBytes bytes, IndexPageLayout.ofBytes (bytes.drop kPageHeaderSize)⟩

end IndexPage
end Quartz.Pages
