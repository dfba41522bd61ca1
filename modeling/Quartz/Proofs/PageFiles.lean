import Quartz.Pages.PageFile
import Quartz.Proofs.PageCopies
import Quartz.Proofs.Streams

/-! Pages in a file. Each page has its own place, so a page that was written stays there until
the same id is written again; what is read from that place is not all of it. -/

namespace Quartz.Storage
open Serialization Bytes Pages

namespace DatabaseFile

variable {file : DatabaseFile} {bytes : List UInt8}

/-- The bytes of a page in the file: the header of the object in front of the payload. -/
def image (page : Page) : List UInt8 := page.header.serialize ++ page.payload

theorem length_payload (page : Page) : page.payload.length = kPagePayloadSize := by
  rw [Page.payload, List.length_drop, page.data.sized]
  rfl

theorem payload_writePayload {page : Page} {source : List UInt8} (whole : source.length = kPagePayloadSize) :
    (page.writePayload 0 source).payload = source := by
  have sizes : kPageHeaderSize + 0 + source.length = kPageSize := by rw [whole]; rfl
  have front : (page.data.bytes.take (kPageHeaderSize + 0)).length = kPageHeaderSize := by
    rw [List.length_take, page.data.sized]
    rfl
  rw [Page.payload, Page.writePayload, Block.store_inside _ (Nat.le_of_eq sizes), List.append_assoc, List.drop_left' front,
    List.drop_of_length_le (by rw [sizes, page.data.sized]), List.append_nil]

theorem length_image (page : Page) : (image page).length = kPageSize := by
  rw [image, List.length_append, PageHeader.length_serialize, length_payload]
  rfl

def storePage (file : DatabaseFile) (page : Page) : DatabaseFile := (file.writePage page.header page.payload).2

/-- The image stands at the place of the id. -/
def Shows (file : DatabaseFile) (id : PageId) (image : List UInt8) : Prop :=
  (file.bytes.drop (id.toNat * kPageSize)).take kPageSize = image

theorem Shows.inside {page : Page} (shows : file.Shows page.id (image page)) :
    page.id.toNat * kPageSize + kPageSize ≤ file.bytes.length := by
  have length := congrArg List.length shows
  rw [List.length_take, List.length_drop, length_image] at length
  simp only [kPageSize] at length ⊢
  omega

theorem Ready.stored (ready : file.Ready) {page : Page} (valid : page.id ≠ kInvalidPageId) :
    (file.storePage page).Ready ∧
      (file.storePage page).bytes = Splice.write 0 file.bytes (page.id.toNat * kPageSize) (image page) := by
  have header : page.header.serialize ≠ [] := List.ne_nil_of_length_pos (by rw [PageHeader.length_serialize]; decide)
  have payload : page.payload ≠ [] := List.ne_nil_of_length_pos (by rw [length_payload]; decide)
  obtain ⟨sought, seek, stream, position, clean⟩ := ready.stream.seekTo (page.id.toNat * kPageSize)
  obtain ⟨headed, front, stream, behind, clean⟩ := stream.writeBytes clean header
  obtain ⟨whole, back, stream, -, clean⟩ := stream.writeBytes clean payload
  rw [behind, position, Splice.write_write] at stream
  have stored : file.storePage page = whole := by
    simp only [storePage, writePage, if_neg (show page.header.pageId ≠ kInvalidPageId from valid), Page.id] at seek ⊢
    simp only [seek, front, back, Status.ok_success, if_not_true]
  rw [stored]
  exact ⟨.of_stream stream clean, stream.holds⟩

theorem Ready.shows (ready : file.Ready) {page : Page} (valid : page.id ≠ kInvalidPageId) :
    (file.storePage page).Shows page.id (image page) := by
  rw [Shows, (ready.stored valid).2, ← length_image page, Splice.read_write]

theorem storePage_refused {page : Page} (invalid : page.id = kInvalidPageId) (file : DatabaseFile) : file.storePage page = file := by
  rw [storePage, writePage, if_pos (show page.header.pageId = kInvalidPageId from invalid)]

theorem Ready.after (ready : file.Ready) (pages : List Page) : (Runs.after storePage file pages).Ready := by
  induction pages generalizing file with
  | nil => exact ready
  | cons page rest ih =>
    refine ih ?_
    by_cases invalid : page.id = kInvalidPageId
    · rwa [storePage_refused invalid]
    · exact (ready.stored invalid).1

theorem Ready.shows_other (ready : file.Ready) {page other : Page} (shows : file.Shows page.id (image page))
    (different : other.id ≠ page.id) : (file.storePage other).Shows page.id (image page) := by
  by_cases invalid : other.id = kInvalidPageId
  · rwa [storePage_refused invalid]
  have distinct : other.id.toNat ≠ page.id.toNat := fun same => different (UInt32.toNat_inj.mp same)
  have apart : page.id.toNat * kPageSize + kPageSize ≤ other.id.toNat * kPageSize ∨
      other.id.toNat * kPageSize + (image other).length ≤ page.id.toNat * kPageSize := by
    rw [length_image]
    simp only [kPageSize]
    omega
  rw [Shows, (ready.stored invalid).2, Splice.read_write_of_apart shows.inside apart]
  exact shows

theorem Ready.shows_after (ready : file.Ready) {page : Page} (shows : file.Shows page.id (image page)) {later : List Page}
    (last : ∀ other ∈ later, other.id ≠ page.id) : (Runs.after storePage file later).Shows page.id (image page) := by
  induction later generalizing file with
  | nil => exact shows
  | cons other rest ih =>
    exact ih (ready.after [other]) (ready.shows_other shows (last other List.mem_cons_self)) fun later member =>
      last later (List.mem_cons_of_mem _ member)

/-- The two parts of an image. -/
theorem Shows.parts {page : Page} (shows : file.Shows page.id (image page)) :
    (file.bytes.drop (page.id.toNat * kPageSize)).take kPageHeaderSize = page.header.serialize ∧
      (file.bytes.drop (page.id.toNat * kPageSize + kPageHeaderSize)).take kPagePayloadSize = page.payload := by
  have header := page.header.length_serialize
  constructor
  · have front := congrArg (List.take kPageHeaderSize) shows
    rwa [List.take_take, image, List.take_left' header] at front
  · have back := congrArg (List.drop kPageHeaderSize) shows
    rwa [List.drop_take, List.drop_drop, image, List.drop_left' header] at back

/-- What is read from the place of an image. -/
theorem Ready.reads (ready : file.Ready) {page target : Page} (valid : page.id ≠ kInvalidPageId)
    (shows : file.Shows page.id (image page)) (same : target.id = page.id) (variableBytes : Block kPageHeaderSize) :
    (page.header.isValid = false → (file.readPage target variableBytes).1.ok = false) ∧
    (page.header.isValid = true → (file.readPage target variableBytes).1 = Status.success ∧ (file.readPage target variableBytes).2.1 =
        ((Page.make page.id page.header.pageType).setGeneration page.header.generation).writePayload 0 page.payload) := by
  obtain ⟨headerBytes, payloadBytes⟩ := shows.parts
  have inside := shows.inside
  have sizes : kPageHeaderSize + kPagePayloadSize = kPageSize := rfl
  obtain ⟨sought, seek, stream, position, clean⟩ := ready.stream.seekTo (page.id.toNat * kPageSize)
  have front := stream.readBytes clean (show variableBytes.bytes.length ≤ _ by
    rw [position, variableBytes.sized]
    omega)
  rw [position, variableBytes.sized, headerBytes] at front
  have header : PageHeader.ofBytes page.header.serialize = page.header := by
    have read := page.header.ofBytes_serialize []
    rwa [List.append_nil] at read
  simp only [readPage, same, if_neg valid, seek, front, header, Status.ok_success, if_not_true]
  constructor
  · intro refused
    simp only [refused, Bool.not_false, if_true]
    rfl
  · intro accepted
    let rebuilt := (Page.make page.id page.header.pageType).setGeneration page.header.generation
    have rest : Over { sought with position := page.id.toNat * kPageSize + kPageHeaderSize } file.bytes :=
      ⟨stream.isOpen, stream.good, stream.holds, stream.size⟩
    have back := @Over.readBytes _ _ rest clean rebuilt.payload (by
      rw [length_payload]
      dsimp only
      omega)
    rw [length_payload, payloadBytes] at back
    simp only [accepted, if_not_true, rebuilt] at back ⊢
    simp only [back, and_self]

/-- The fields that a page read from the file owes to the page that was written. -/
def fields (header : PageHeader) : UInt8 × UInt8 × UInt16 × UInt32 × UInt32 × UInt32 × UInt64 :=
  (header.pageType, header.flags, header.payloadSize, header.version, header.timestamp, header.checksum, header.generation)

/-- The page is read without an error, with its payload and the fields of its header. -/
structure ReadsBack (result : Status × Page × DatabaseFile) (page : Page) : Prop where
  ok : result.1.ok = true
  payload : result.2.1.payload = page.payload
  fields : fields result.2.1.header = fields page.header

/-- After any writes, the last page of an id is read back exactly when all but its type and its generation are what a new
header has. -/
theorem pages_read_back_iff (ready : file.Ready) (before later : List Page) {page : Page} (valid : page.id ≠ kInvalidPageId)
    (typed : page.header.pageType ≠ 0) (last : ∀ other ∈ later, other.id ≠ page.id) {target : Page}
    (same : target.id = page.id) (variableBytes : Block kPageHeaderSize) :
    ReadsBack ((Runs.after storePage file (before ++ page :: later)).readPage target variableBytes) page ↔
      page.header.magic = kMagicNumber ∧ page.header.flags = 0 ∧ page.header.payloadSize = 4032 ∧
        page.header.version = kFileFormatVersion ∧ page.header.timestamp = 0 ∧ page.header.checksum = 0 := by
  have start := ready.after before
  have stored := (start.stored valid).1
  have shows := stored.shows_after (start.shows valid) last
  rw [Runs.after_append, Runs.after_cons]
  obtain ⟨refused, read⟩ := (stored.after later).reads valid shows same variableBytes
  have accepts : page.header.isValid = true ↔ page.header.magic = kMagicNumber := by
    simp [PageHeader.isValid, typed]
  generalize (Runs.after storePage _ later).readPage target variableBytes = result at refused read ⊢
  constructor
  · intro back
    have accepted : page.header.isValid = true := by
      by_contra other
      exact absurd back.ok (by rw [refused (Bool.eq_false_of_not_eq_true other)]; decide)
    obtain ⟨-, rebuilt⟩ := read accepted
    have fresh : fields result.2.1.header =
        (page.header.pageType, 0, 4032, kFileFormatVersion, 0, 0, page.header.generation) := by
      rw [rebuilt]
      rfl
    have same := back.fields
    rw [fresh] at same
    simp only [fields, Prod.mk.injEq] at same
    obtain ⟨-, flags, size, version, timestamp, checksum, -⟩ := same
    exact ⟨accepts.mp accepted, flags.symm, size.symm, version.symm, timestamp.symm, checksum.symm⟩
  · rintro ⟨magic, flags, size, version, timestamp, checksum⟩
    obtain ⟨ok, rebuilt⟩ := read (accepts.mpr magic)
    refine ⟨by rw [ok]; rfl, ?_, ?_⟩
    · rw [rebuilt, payload_writePayload (length_payload page)]
    · rw [rebuilt, fields, fields, flags, size, version, timestamp, checksum]
      rfl

theorem pages_read_back_between_others :
    let file : DatabaseFile := { contents := some [], isOpen := true }
    ReadsBack ((Runs.after storePage file ([Page.make 5 4] ++ Page.make 2 4 :: [Page.make 3 4])).readPage (Page.make 2 1)
      (.zeros 64)) (Page.make 2 4) := by
  intro file
  have ready : file.Ready := ⟨⟨rfl, rfl, rfl, rfl⟩, rfl⟩
  have valid : (Page.make 2 4).id ≠ kInvalidPageId := by decide
  have typed : (Page.make 2 4).header.pageType ≠ 0 := by decide
  have last : ∀ other ∈ [Page.make 3 4], other.id ≠ (Page.make 2 4).id := List.forall_mem_singleton.mpr (by decide)
  have same : (Page.make 2 1).id = (Page.make 2 4).id := rfl
  exact (pages_read_back_iff ready [Page.make 5 4] [Page.make 3 4] valid typed last same (.zeros 64)).mpr (by decide)

theorem checksum_rebuilt (id : PageId) (type : UInt8) (generation : UInt64) (payload : List UInt8) :
    (((Page.make id type).setGeneration generation).writePayload 0 payload).header.checksum = 0 := rfl

/-- The checksum that a data page was given is not read back from a new file. -/
theorem checksum_is_not_read :
    let file : DatabaseFile := { contents := some [], isOpen := true }
    let page : Page := { Page.make 2 4 with header := { PageHeader.make 2 4 with checksum := 0xBEEF } }
    ((Runs.after storePage file [page]).readPage page (.zeros 64)).1 = Status.success ∧
      ((Runs.after storePage file [page]).readPage page (.zeros 64)).2.1.header.checksum = 0 ∧
      ¬ ReadsBack ((Runs.after storePage file [page]).readPage page (.zeros 64)) page := by
  intro file page
  have ready : file.Ready := ⟨⟨rfl, rfl, rfl, rfl⟩, rfl⟩
  have valid : page.id ≠ kInvalidPageId := by decide
  obtain ⟨ok, rebuilt⟩ := ((ready.stored valid).1.reads valid (ready.shows valid) rfl (.zeros 64)).2 (by decide)
  have lost : ((Runs.after storePage file [page]).readPage page (.zeros 64)).2.1.header.checksum = 0 := by
    rw [Runs.after_cons, Runs.after_nil, rebuilt, checksum_rebuilt]
  refine ⟨ok, lost, fun back => ?_⟩
  have same := back.fields
  simp only [fields, Prod.mk.injEq] at same
  exact absurd (lost.symm.trans same.2.2.2.2.2.1) (by decide)

end DatabaseFile
end Quartz.Storage
