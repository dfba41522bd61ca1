import Quartz.Lib.Runs
import Quartz.Pages.FreeListPage

/-! Free-list pages that were loaded. What validates is safe to use when the capacity that the page
claims is one that the array has. -/

namespace Quartz.Pages
open Storage

namespace FreeListPage

variable {page : FreeListPage}

/-- A page, unless a call has left the array, and the ids that it should list. -/
abbrev Listing := Option FreeListPage × List PageId

/-- The ids that were added are those whose call succeeded; a clear starts afresh. -/
def step (listing : Listing) : FreeListCall → Listing
  | .addFreePage pageId =>
    match listing.1.bind (·.addFreePage pageId) with
    | some (status, page) => (some page, if status.ok then listing.2 ++ [pageId] else listing.2)
    | none => (none, listing.2)
  | .clearFreePages => (listing.1.map clearFreePages, [])

def ids (page : FreeListPage) : List PageId := page.layout.freePages.take page.freeCount.toNat

def entries (page : FreeListPage) : List (Option PageId) := (List.range page.freeCount.toNat).map page.freePage

/-- The page is there, validates, has every entry that a call may touch, and lists these ids. -/
structure Safe (page : FreeListPage) (listed : List PageId) : Prop where
  valid : page.validate.ok = true
  reads : ∀ index < page.freeCount.toNat, (page.freePage index).isSome = true
  sets : ∀ index pageId, (page.setFreePage index pageId).isSome = true
  adds : ∀ pageId, (page.addFreePage pageId).isSome = true
  lists : page.entries = listed.map some

def SafeListing (listing : Listing) : Prop := ∃ page, listing.1 = some page ∧ Safe page listing.2

theorem validate_iff : page.validate.ok = true ↔ 0 < page.capacity.toNat ∧ page.freeCount.toNat ≤ page.capacity.toNat := by
  have valid : page.layout.isValid = true ↔ 0 < page.capacity.toNat ∧ page.freeCount.toNat ≤ page.capacity.toNat := by
    simp [FreeListPageLayout.isValid, UInt32.lt_iff_toNat_lt, UInt32.le_iff_toNat_le, capacity, freeCount]
  rw [← valid, validate]
  cases page.layout.isValid <;> simp

/-- The capacity is one of the array, and the ids are the front of it. -/
structure Bounded (page : FreeListPage) (listed : List PageId) : Prop where
  positive : 0 < page.capacity.toNat
  room : page.capacity.toNat ≤ kFreePages
  count : page.freeCount.toNat ≤ page.capacity.toNat
  ids : page.ids = listed

theorem entries_eq (inside : page.freeCount.toNat ≤ kFreePages) : page.entries = page.ids.map some := by
  have sized := page.layout.sized
  have length : page.ids.length = page.freeCount.toNat := by
    rw [ids, List.length_take]
    omega
  refine List.ext_getElem (by simp [entries, length]) fun index listed _ => ?_
  have below : index < page.freeCount.toNat := by simpa [entries] using listed
  simp only [entries, ids, List.getElem_map, List.getElem_range, List.getElem_take, freePage, if_neg (Nat.not_le.mpr below)]
  exact List.getElem?_eq_getElem (by omega)

theorem Bounded.safe {listed : List PageId} (bounded : Bounded page listed) : Safe page listed := by
  obtain ⟨positive, room, count, rfl⟩ := bounded
  have sized := page.layout.sized
  refine ⟨validate_iff.mpr ⟨positive, count⟩, fun index inside => ?_, fun index pageId => ?_, fun pageId => ?_,
    entries_eq (count.trans room)⟩
  · rw [freePage, if_neg (Nat.not_le.mpr inside), List.getElem?_eq_getElem (by omega)]
    rfl
  · rw [setFreePage]
    split
    · rfl
    next accepted =>
      rw [FreeListPageLayout.store, if_pos (by omega)]
      rfl
  · rw [addFreePage]
    split
    · rfl
    next free =>
      have less : page.layout.freeCount.toNat < page.layout.capacity.toNat :=
        UInt32.lt_iff_toNat_lt.mp (UInt32.not_le.mp free)
      rw [FreeListPageLayout.store, if_pos (Nat.lt_of_lt_of_le less room)]
      rfl

theorem Bounded.clear {listed : List PageId} (bounded : Bounded page listed) : Bounded page.clearFreePages [] :=
  ⟨bounded.positive, bounded.room, Nat.zero_le _, rfl⟩

theorem Bounded.add {listed : List PageId} (bounded : Bounded page listed) (pageId : PageId) :
    ∃ status after, page.addFreePage pageId = some (status, after) ∧
      Bounded after (if status.ok then listed ++ [pageId] else listed) := by
  obtain ⟨positive, room, count, rfl⟩ := bounded
  have sized := page.layout.sized
  by_cases full : page.layout.freeCount ≥ page.layout.capacity
  · refine ⟨_, page, by rw [addFreePage, if_pos full], ?_⟩
    exact ⟨positive, room, count, rfl⟩
  · have less : page.freeCount.toNat < page.capacity.toNat := UInt32.lt_iff_toNat_lt.mp (UInt32.not_le.mp full)
    have inside : page.layout.freeCount.toNat < kFreePages := Nat.lt_of_lt_of_le less room
    have next : (page.layout.freeCount + 1).toNat = page.freeCount.toNat + 1 := by
      rw [UInt32.toNat_add, UInt32.toNat_one, Nat.mod_eq_of_lt]
      · rfl
      · exact Nat.lt_of_le_of_lt less page.capacity.toNat_lt
    refine ⟨Status.success, _, by rw [addFreePage, if_neg full, FreeListPageLayout.store, if_pos inside]; rfl, ?_⟩
    refine ⟨positive, room, ?_, ?_⟩
    · exact next ▸ less
    · have taken : (page.layout.freePages.set page.layout.freeCount.toNat pageId).take (page.layout.freeCount + 1).toNat =
          page.ids ++ [pageId] := by
        rw [next, freeCount, List.take_add_one, List.take_set, List.set_eq_of_length_le (List.length_take_le _ _),
          List.getElem?_set_self (by omega)]
        rfl
      exact taken

/-- Such a page stays safe, whatever is added to it and however often it is cleared. -/
theorem Bounded.always {listed : List PageId} (bounded : Bounded page listed) (calls : List FreeListCall) :
    Runs.Always step SafeListing (some page, listed) calls := by
  have kept : Runs.Always step (fun listing => ∃ page, listing.1 = some page ∧ Bounded page listing.2) (some page, listed) calls := by
    refine Runs.always_of_invariant (fun listing call holds _ => ?_) ⟨page, rfl, bounded⟩ (Runs.atEachStep_true _ calls)
    obtain ⟨page, here, bounded⟩ := holds
    cases call with
    | addFreePage pageId =>
      obtain ⟨status, after, added, still⟩ := bounded.add pageId
      refine ⟨after, ?_⟩
      simp only [step, here, Option.bind_some, added, true_and]
      exact still
    | clearFreePages =>
      refine ⟨page.clearFreePages, ?_, bounded.clear⟩
      rw [step, here]
      rfl
  intro done inside
  obtain ⟨page, here, bounded⟩ := kept done inside
  exact ⟨page, here, bounded.safe⟩

/-- An image that validates is safe to use exactly when it claims no more entries than the array has. -/
theorem loaded_page_is_safe_iff (image : Bytes.Block kPageSize) (valid : (load image).validate.ok = true) :
    (∀ calls, Runs.Always step SafeListing (some (load image), (load image).ids) calls) ↔
      (load image).capacity.toNat ≤ kFreePages := by
  constructor
  · intro always
    obtain ⟨page, here, safe⟩ := (always []).head
    obtain rfl := Option.some.inj here
    by_contra large
    have outside := safe.sets kFreePages 0
    rw [setFreePage, if_neg (by omega), FreeListPageLayout.store, if_neg (Nat.lt_irrefl _)] at outside
    exact Bool.false_ne_true outside
  · intro room calls
    obtain ⟨positive, count⟩ := validate_iff.mp valid
    exact Bounded.always ⟨positive, room, count, rfl⟩ calls

theorem created_page_is_safe (pageId : PageId) (calls : List FreeListCall) :
    Runs.Always step SafeListing (some (create pageId), []) calls := by
  have capacity : (create pageId).capacity.toNat = kFreePages := rfl
  have bounded : Bounded (create pageId) [] :=
    ⟨by rw [capacity]; decide, Nat.le_of_eq capacity, Nat.zero_le _, rfl⟩
  exact bounded.always calls

theorem zero_count_page_is_safe_iff :
    let image : Bytes.Block kPageSize := (Bytes.Block.zeros kPageSize).store 68 [1]
    (∀ calls, Runs.Always step SafeListing (some (load image), (load image).ids) calls) ↔
      (load image).capacity.toNat ≤ kFreePages :=
  loaded_page_is_safe_iff _ (by decide +kernel)

/-- An image of zeros but for a count of 1000 and a capacity of 1001: it validates, and both the next
entry and the last index that it accepts are not there. -/
theorem large_capacity_leaves_array :
    let page := load ((Bytes.Block.zeros kPageSize).store 64 (Bytes.encode 4 1000 ++ Bytes.encode 4 1001))
    page.validate = Status.success ∧ page.addFreePage 7 = none ∧ page.setFreePage 1000 7 = none ∧
      ¬ SafeListing (some page, page.ids) := by
  intro page
  have outside : page.setFreePage 1000 7 = none := by decide +kernel
  refine ⟨by decide +kernel, by decide +kernel, outside, ?_⟩
  rintro ⟨found, here, safe⟩
  obtain rfl := Option.some.inj here
  have inside := safe.sets 1000 7
  rw [outside] at inside
  cases inside

end FreeListPage
end Quartz.Pages
