import Quartz.Lib.Runs
import Quartz.Pages.BasePage
import Quartz.Proofs.NodePages

/-! Copies of pages. The updates change the header of the object only, a clone gets a new one,
and a page that is read back has the one in its buffer. -/

namespace Quartz.Pages
open Storage Serialization Bytes

/-- The fields that a copy of a page owes to it. -/
def PageHeader.fields (header : PageHeader) : PageId × UInt8 × UInt8 × UInt16 × UInt64 :=
  (header.pageId, header.pageType, header.flags, header.payloadSize, header.generation)

theorem PageHeader.ofBytes_append {front : List UInt8} (sized : front.length = kPageHeaderSize) (rest : List UInt8) :
    ofBytes (front ++ rest) = ofBytes front := by
  rw [kPageHeaderSize] at sized
  have reserved : Block.ofList 30 ((front ++ rest).drop 34) = Block.ofList 30 (front.drop 34) := by
    refine Block.ext ?_
    have length : (front.drop 34).length = 30 := by rw [List.length_drop, sized]
    rw [List.drop_append_of_le_length (by omega), Block.ofList_bytes length]
    simp [Block.ofList, length]
  rw [ofBytes, reserved]
  simp (disch := omega) only [field_append_left]
  rfl

namespace BasePage

/-- The copy has the payload of the page and the fields of its header. -/
structure Kept (copy page : BasePage) : Prop where
  payload : copy.page.payload = page.page.payload
  fields : copy.page.header.fields = page.page.header.fields

theorem update_front (page : BasePage) (update : PageUpdate) :
    (page.update update).page.data.bytes.take kPageHeaderSize = page.page.data.bytes.take kPageHeaderSize := by
  cases update with
  | payload offset source =>
    have size : page.page.data.bytes.length = 4096 := page.page.data.sized
    simp only [update, Page.writePayload, Block.store, List.take_take]
    exact Splice.take_write (by simp [kPageHeaderSize]) (by rw [size]; decide)
  | _ => rfl

theorem front_after (start : BasePage) (updates : List PageUpdate) :
    (Runs.after update start updates).page.data.bytes.take kPageHeaderSize = start.page.data.bytes.take kPageHeaderSize := by
  induction updates generalizing start with
  | nil => rfl
  | cons first rest ih => rw [Runs.after_cons, ih, update_front]

theorem ofBytes_data (page : Page) :
    PageHeader.ofBytes page.data.bytes = PageHeader.ofBytes (page.data.bytes.take kPageHeaderSize) := by
  have sized : (page.data.bytes.take kPageHeaderSize).length = kPageHeaderSize := by
    rw [List.length_take, page.data.sized]
    rfl
  conv_lhs => rw [← List.take_append_drop kPageHeaderSize page.data.bytes]
  exact PageHeader.ofBytes_append sized _

/-- What is read back from the bytes of a page: its buffer, and the header in it. -/
theorem decodes_deserialize (kind : PageKind) (page : BasePage) :
    Decodes (deserialize kind) page.serialize ⟨kind, PageHeader.ofBytes page.page.data.bytes, page.page.data⟩ := by
  have read := decodes_return (decodes_readBytes page.page.data.sized) fun bytes =>
    (⟨kind, PageHeader.ofBytes bytes, .ofList kPageSize bytes⟩ : BasePage)
  have whole : Block.ofList kPageSize page.page.data.bytes = page.page.data := Block.ext (Block.ofList_bytes page.page.data.sized)
  rwa [whole] at read

theorem clone_kept_iff (page : BasePage) :
    Kept page.clone page ↔ page.page.header.pageType = page.kind.pageType ∧ page.page.header.flags = 0 ∧
      page.page.header.payloadSize = 4032 ∧ page.page.header.generation = 0 := by
  have cloned : page.clone.page.header.fields = (page.page.id, page.kind.pageType, 0, 4032, 0) := rfl
  constructor
  · intro kept
    obtain ⟨-, type, flags, size, generation⟩ := by simpa only [cloned, PageHeader.fields, Prod.mk.injEq] using kept.fields
    exact ⟨type.symm, flags.symm, size.symm, generation.symm⟩
  · rintro ⟨type, flags, size, generation⟩
    refine ⟨rfl, ?_⟩
    rw [cloned, PageHeader.fields, type, flags, size, generation]
    rfl

/-- A clone keeps a header that is still the new one of its class; a page that is read back keeps a
header that is still the one in the buffer from before the updates. -/
theorem copies_keep_pages_iff (start : BasePage) (updates : List PageUpdate) :
    let page := Runs.after update start updates
    (Kept page.clone page ↔ page.page.header.pageType = page.kind.pageType ∧ page.page.header.flags = 0 ∧
      page.page.header.payloadSize = 4032 ∧ page.page.header.generation = 0) ∧
    ∃ reloaded, Decodes (deserialize page.kind) page.serialize reloaded ∧
      (Kept reloaded page ↔ page.page.header.fields = (PageHeader.ofBytes start.page.data.bytes).fields) := by
  intro page
  refine ⟨clone_kept_iff page, _, decodes_deserialize page.kind page, ?_⟩
  have front : PageHeader.ofBytes page.page.data.bytes = PageHeader.ofBytes start.page.data.bytes := by
    rw [ofBytes_data, front_after, ← ofBytes_data]
  constructor
  · intro kept
    rw [← front]
    exact kept.fields.symm
  · intro same
    refine ⟨rfl, ?_⟩
    rw [same, ← front]

theorem ofBytes_make (id : PageId) (type : UInt8) :
    PageHeader.ofBytes (Page.make id type).data.bytes = PageHeader.make id type := by
  have length := (PageHeader.make id type).length_serialize
  have fits : (PageHeader.make id type).serialize.length ≤ kPageSize := by
    rw [length]
    decide
  rw [Page.make, Block.store_zeros fits, PageHeader.ofBytes_serialize]

theorem reset_clone_kept_iff (kind : PageKind) (newId : PageId) :
    Kept ((make kind).reset newId).clone ((make kind).reset newId) ↔ kind ≠ .index ∧ kind ≠ .overflow := by
  have type : ((make kind).reset newId).page.header.pageType = toPageLayoutType kind.pageType := rfl
  have same : ((make kind).reset newId).kind = kind := rfl
  have rest : ((make kind).reset newId).page.header.flags = 0 ∧ ((make kind).reset newId).page.header.payloadSize = 4032 ∧
      ((make kind).reset newId).page.header.generation = 0 := ⟨rfl, rfl, rfl⟩
  rw [clone_kept_iff, type, same, and_iff_left rest]
  cases kind <;> decide

/-- The generation that an index page was given is lost in both copies. -/
theorem generation_is_lost :
    let page : BasePage := Runs.after update (make .index) [.generation 5]
    page.page.header.generation = 5 ∧ page.clone.page.header.generation = 0 ∧ ¬ Kept page.clone page ∧
      ∃ reloaded, Decodes (deserialize .index) page.serialize reloaded ∧ reloaded.page.header.generation = 0 ∧
        ¬ Kept reloaded page := by
  intro page
  have header : PageHeader.ofBytes page.page.data.bytes = PageHeader.make 0 6 := ofBytes_make 0 6
  refine ⟨rfl, rfl, fun kept => ?_, _, decodes_deserialize .index page, ?_, fun kept => ?_⟩
  · exact absurd ((clone_kept_iff page).mp kept).2.2.2 (by decide)
  · rw [header]
    rfl
  · have fields := kept.fields
    rw [header] at fields
    exact absurd fields (by decide)

end BasePage
end Quartz.Pages
