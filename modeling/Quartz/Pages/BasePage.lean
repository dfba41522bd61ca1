import Quartz.Pages.IndexPage

/-! Pages as objects. The header of a page lives twice, as a record of the object and in
the first bytes of its buffer; every operation says which of the two it reads or writes. -/

namespace Quartz.Pages
open Storage Serialization

def PageHeader.isValid (header : PageHeader) : Bool := header.magic == kMagicNumber && header.pageType != 0

structure Page where
  header : PageHeader
  data : Bytes.Block kPageSize
  deriving DecidableEq, Repr

namespace Page

/-- A zeroed buffer with a copy of the new header at its front. -/
def make (id : PageId) (type : UInt8) : Page where
  header := PageHeader.make id type
  data := (Bytes.Block.zeros kPageSize).store 0 (PageHeader.make id type).serialize

def id (page : Page) : PageId := page.header.pageId

def payload (page : Page) : List UInt8 := page.data.bytes.drop kPageHeaderSize

def reset (_ : Page) (id : PageId) (type : UInt8) : Page := make id type

def setGeneration (page : Page) (generation : UInt64) : Page :=
  { page with header := { page.header with generation := generation } }

def setPayloadSize (page : Page) (size : UInt16) : Page :=
  { page with header := { page.header with payloadSize := size } }

/-- A copy to the payload, of which nothing leaves the page. -/
def writePayload (page : Page) (offset : Nat) (source : List UInt8) : Page :=
  { page with data := page.data.store (kPageHeaderSize + offset) source }

end Page

inductive PageKind where
  | header
  | metadata
  | freeList
  | data
  | index
  | overflow
  deriving DecidableEq, Repr

namespace PageKind

/-- The type that the constructor and `clone` of the class give to a page. -/
def pageType : PageKind → UInt8
  | header => 1
  | metadata => 2
  | freeList => 3
  | data => 4
  | overflow => 5
  | index => 6

/-- What the class puts at the front of a zeroed payload when it resets a page. -/
def blank : PageKind → List UInt8
  | freeList => Bytes.encode 4 0 ++ Bytes.encode 4 1000
  | overflow => Bytes.encode 4 kInvalidPageId.toNat
  | _ => []

end PageKind

/-- The layouts of index and overflow pages are numbered the other way round. -/
def toPageLayoutType (type : UInt8) : UInt8 :=
  if type = 1 then 1
  else if type = 2 then 2
  else if type = 3 then 3
  else if type = 4 then 4
  else if type = 6 then 5
  else if type = 5 then 6
  else 0

structure BasePage where
  kind : PageKind
  page : Page
  deriving DecidableEq, Repr

namespace BasePage

def make (kind : PageKind) : BasePage := ⟨kind, Page.make 0 kind.pageType⟩

def layoutType (page : BasePage) : UInt8 := toPageLayoutType page.page.header.pageType

/-- The number of the layout is stored as the type of the page. -/
def reset (page : BasePage) (newId : PageId) : BasePage :=
  { page with page := (page.page.reset newId page.layoutType).writePayload 0 page.kind.blank }

/-- Each class clones in the same way: a new page with the id, and a copy of the buffer. -/
def clone (page : BasePage) : BasePage :=
  { page with page := { Page.make page.page.id page.kind.pageType with data := page.page.data } }

/-- The bytes the page hands to its writer. -/
def serialize (page : BasePage) : List UInt8 := page.page.data.bytes

def deserialize (kind : PageKind) : Decoder BasePage := do
  let bytes ← BinaryReader.readBytes kPageSize
  return ⟨kind, ⟨PageHeader.ofBytes bytes, .ofList kPageSize bytes⟩⟩

end BasePage

/-- A write to the payload, one of the two setters, or a write through `header()`. -/
inductive PageUpdate where
  | payload (offset : Nat) (source : List UInt8)
  | generation (value : UInt64)
  | payloadSize (size : UInt16)
  | header (value : PageHeader)
  deriving DecidableEq, Repr

def BasePage.update (page : BasePage) : PageUpdate → BasePage
  | .payload offset source => { page with page := page.page.writePayload offset source }
  | .generation value => { page with page := page.page.setGeneration value }
  | .payloadSize size => { page with page := page.page.setPayloadSize size }
  | .header value => { page with page := { page.page with header := value } }

end Quartz.Pages
