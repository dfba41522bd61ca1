import Quartz.Proofs.LoneLeaf

/-! A single leaf is a sorted finite map. Its entries are a list of pairs in the order of their
keys, on which an insertion is a push, an erasure a pop, and a call that is refused nothing. -/

namespace Quartz.Btree
open Storage Format SortedPairs

def LeafNode.entries (leaf : LeafNode) : List (Key × PageReference) := leaf.keys.zip leaf.refs

namespace LeafCall

/-- A call about one entry, with a key of the configuration. -/
def Single (config : BTreeNodeConfig) : LeafCall → Prop
  | .insert key _ => key.Matches config
  | .erase key => key.Matches config
  | .eraseAt _ => True
  | .assignEntries _ _ => False

/-- What the map of these pairs accepts. -/
def Accepted (config : BTreeNodeConfig) (pairs : List (Key × PageReference)) : LeafCall → Prop
  | .insert key ref => ref.isValid = true ∧ pairs.length < computeCapacity config .leaf ∧
      (config.allowDuplicates = true ∨ key ∉ pairs.map Prod.fst)
  | .erase key => key ∈ pairs.map Prod.fst
  | .eraseAt index => index < pairs.length
  | .assignEntries keys refs => refs.length = keys.length ∧ keys.length ≤ computeCapacity config .leaf

def effect (pairs : List (Key × PageReference)) : LeafCall → List (Key × PageReference)
  | .insert key ref => push key ref pairs
  | .erase key => pop key pairs
  | .eraseAt index => pairs.eraseIdx index
  | .assignEntries keys refs => keys.zip refs

/-- The call does to the leaf what it does to the map, and nothing when the map refuses it. -/
structure Follows (config : BTreeNodeConfig) (leaf : LeafNode) (call : LeafCall) : Prop where
  accepts : (call.perform leaf).1.ok = true ↔ call.Accepted config leaf.entries
  takes : (call.perform leaf).1.ok = true → (call.step leaf).entries = call.effect leaf.entries
  keeps : (call.perform leaf).1.ok = false → (call.step leaf).keys = leaf.keys ∧ (call.step leaf).refs = leaf.refs ∧
    (call.step leaf).keyCount = leaf.keyCount

end LeafCall

namespace LeafNode

/-- The keys are in order, with one reference each, and counted. -/
structure InOrder (config : BTreeNodeConfig) (leaf : LeafNode) : Prop where
  sorted : leaf.keys.Pairwise (· ≤ ·)
  strict : config.allowDuplicates = false → leaf.keys.Pairwise (· < ·)
  refs : leaf.refs.length = leaf.keys.length
  count : leaf.keyCount = leaf.keys.length
  room : leaf.keys.length ≤ computeCapacity config .leaf

variable {config : BTreeNodeConfig} {leaf : LeafNode} {entries after : List (Key × PageReference)} {key : Key}
  {ref : PageReference}

/-- The leaf holds these pairs, in order, as a leaf of the configuration. -/
structure Maps (config : BTreeNodeConfig) (leaf : LeafNode) (entries : List (Key × PageReference)) : Prop where
  row : leaf.Row config entries
  sorted : Sorted entries
  matching : ∀ entry ∈ entries, entry.1.Matches config
  distinct : config.allowDuplicates = false → (entries.map Prod.fst).Nodup

theorem maps_create (pageId : PageId) (config : BTreeNodeConfig) : (create pageId config).Maps config [] := by
  have ok : LeafOk config (create pageId config) := create_ok pageId config config.level
  exact ⟨⟨ok.page, ok.count, rfl, rfl, Nat.zero_le _, Nat.zero_le _⟩, List.Pairwise.nil, by simp, fun _ => List.nodup_nil⟩

theorem Maps.entries_eq (maps : leaf.Maps config entries) : leaf.entries = entries := by
  rw [LeafNode.entries, maps.row.keys, maps.row.refs, List.zip_map', List.map_id']

theorem Maps.inOrder (maps : leaf.Maps config entries) : leaf.InOrder config := by
  have sorted : leaf.keys.Pairwise (· ≤ ·) := by
    rw [maps.row.keys]
    exact List.pairwise_map.mpr maps.sorted
  refine ⟨sorted, fun forbidden => ?_, ?_, ?_, ?_⟩
  · have distinct := maps.distinct forbidden
    rw [← maps.row.keys] at distinct
    exact (sorted.and distinct).imp fun both => lt_of_le_of_ne both.1 both.2
  · rw [maps.row.keys, maps.row.refs, List.length_map, List.length_map]
  · rw [maps.row.count, maps.row.keys, List.length_map]
  · rw [maps.row.keys, List.length_map]
    exact maps.row.room

/-- Pairs that the leaf has room for are written out. -/
theorem Maps.setEntries (maps : leaf.Maps config entries) (room : after.length ≤ computeCapacity config .leaf)
    (sorted : Sorted after) (matching : ∀ entry ∈ after, entry.1.Matches config)
    (distinct : config.allowDuplicates = false → (after.map Prod.fst).Nodup) :
    ∃ next, leaf.setEntries (after.map Prod.fst) (after.map Prod.snd) = (Status.success, next) ∧ next.Maps config after := by
  rcases setEntries_row maps.row.page room with ⟨-, next, stored, row⟩ | ⟨large, -⟩
  · exact ⟨next, stored, row, sorted, matching, distinct⟩
  · exact absurd (span_fits matching room) (Nat.not_le.mpr large)

theorem Maps.erase_setEntries (maps : leaf.Maps config entries) (fewer : after.Sublist entries) :
    ∃ next, leaf.setEntries (after.map Prod.fst) (after.map Prod.snd) = (Status.success, next) ∧ next.Maps config after :=
  maps.setEntries (fewer.length_le.trans maps.row.room) (maps.sorted.sublist fewer)
    (fun entry member => maps.matching entry (fewer.subset member))
    fun forbidden => (maps.distinct forbidden).sublist (fewer.map _)

theorem Maps.insert (maps : leaf.Maps config entries) (matching : key.Matches config)
    (accepted : (LeafCall.insert key ref).Accepted config entries) :
    ∃ next, leaf.insert key ref = (Status.success, next) ∧ next.Maps config (push key ref entries) := by
  obtain ⟨valid, room, fresh⟩ := accepted
  have new : config.allowDuplicates = true ∨ stack key entries = [] :=
    fresh.imp_right fun absent => stack_eq_nil.mpr fun pair member same => absent (List.mem_map.mpr ⟨pair, member, same⟩)
  have grown : (push key ref entries).Perm ((key, ref) :: entries) := push_perm key ref entries
  rw [maps.row.insert_eq new maps.sorted valid room]
  refine maps.setEntries (by rw [grown.length_eq]; exact room) (maps.sorted.push key ref) (fun entry member => ?_)
    fun forbidden => ?_
  · rcases List.mem_cons.mp (grown.mem_iff.mp member) with rfl | old
    · exact matching
    · exact maps.matching entry old
  · rw [(grown.map Prod.fst).nodup_iff, List.map_cons, List.nodup_cons]
    exact ⟨fresh.resolve_left (by simp [forbidden]), maps.distinct forbidden⟩

theorem Maps.find_eq (maps : leaf.Maps config entries) (key : Key) :
    (∃ front back value, entries = front ++ (key, value) :: back ∧ (∀ entry ∈ front, entry.1 < key) ∧
      leaf.find key = front.length) ∨ key ∉ entries.map Prod.fst ∧ leaf.find key = leaf.keys.length := by
  rw [LeafNode.find, maps.row.keys]
  rcases find_entries maps.sorted key with ⟨front, back, value, parts, smaller, found⟩ | ⟨absent, missing⟩
  · exact .inl ⟨front, back, value, parts, smaller, found⟩
  · refine .inr ⟨fun member => ?_, by rw [missing, List.length_map]⟩
    obtain ⟨pair, inside, same⟩ := List.mem_map.mp member
    exact stack_eq_nil.mp absent pair inside same

/-- A key that is there is met at its lower bound. -/
theorem Maps.met (maps : leaf.Maps config entries) (present : key ∈ entries.map Prod.fst) :
    leaf.keys[leaf.lowerBound key]?.any (fun item => KeyComparator.equal item key) = true := by
  rcases maps.find_eq key with ⟨front, back, value, rfl, -, found⟩ | ⟨absent, -⟩
  · by_contra different
    have outside : leaf.find key = leaf.keys.length := if_neg different
    rw [found, maps.row.keys, List.length_map, List.length_append, List.length_cons] at outside
    omega
  · exact absurd present absent

theorem Maps.insert_refused (maps : leaf.Maps config entries) (refused : ¬ (LeafCall.insert key ref).Accepted config entries) :
    (leaf.insert key ref).1.ok = false ∧ (leaf.insert key ref).2 = leaf := by
  rcases leaf.insert_cases key ref with ⟨⟨valid, free, passed⟩, -⟩ | ⟨-, text, answered⟩
  · refine absurd ⟨valid, ?_, ?_⟩ refused
    · rw [maps.row.count, maps.row.page.capacity] at free
      exact free
    · rw [maps.row.page.duplicates] at passed
      cases repeats : config.allowDuplicates with
      | true => exact .inl rfl
      | false => exact .inr fun present => by rw [repeats, maps.met present] at passed; cases passed
  · rw [answered]
    exact ⟨rfl, rfl⟩

theorem Maps.eraseAt (maps : leaf.Maps config entries) {index : Nat} (inside : index < entries.length) :
    ∃ next, leaf.eraseAt index = (Status.success, next) ∧ next.Maps config (entries.eraseIdx index) := by
  have within : ¬ index ≥ leaf.keys.length := by
    rw [maps.row.keys, List.length_map]
    omega
  rw [LeafNode.eraseAt, if_neg within, maps.row.keys, maps.row.refs, List.eraseIdx_map, List.eraseIdx_map]
  exact maps.erase_setEntries (List.eraseIdx_sublist entries index)

theorem Maps.eraseAt_refused (maps : leaf.Maps config entries) {index : Nat} (outside : ¬ index < entries.length) :
    (leaf.eraseAt index).1.ok = false ∧ (leaf.eraseAt index).2 = leaf := by
  rw [LeafNode.eraseAt, if_pos (by rw [maps.row.keys, List.length_map]; exact Nat.not_lt.mp outside)]
  exact ⟨rfl, rfl⟩

theorem Maps.erase (maps : leaf.Maps config entries) (present : key ∈ entries.map Prod.fst) :
    ∃ next, leaf.erase key = (Status.success, next) ∧ next.Maps config (pop key entries) := by
  rcases maps.find_eq key with ⟨front, back, value, rfl, smaller, found⟩ | ⟨absent, -⟩
  · have inside : front.length < (front ++ (key, value) :: back).length := by simp
    have within : ¬ front.length ≥ leaf.keys.length := by
      rw [maps.row.keys, List.length_map]
      omega
    obtain ⟨next, erased, nextMaps⟩ := maps.eraseAt inside
    refine ⟨next, by rw [LeafNode.erase, found, if_neg within, erased], ?_⟩
    rw [pop_append smaller]
    simpa [List.eraseIdx_append_of_length_le] using nextMaps
  · exact absurd present absent

theorem Maps.erase_refused (maps : leaf.Maps config entries) (absent : key ∉ entries.map Prod.fst) :
    (leaf.erase key).1.ok = false ∧ (leaf.erase key).2 = leaf := by
  rcases maps.find_eq key with ⟨front, back, value, rfl, -, -⟩ | ⟨-, missing⟩
  · exact absurd (by simp) absent
  · rw [LeafNode.erase, if_pos (Nat.le_of_eq missing.symm)]
    exact ⟨rfl, rfl⟩

/-- One call on a leaf and on the map it holds. -/
theorem Maps.perform (maps : leaf.Maps config entries) {call : LeafCall} (single : call.Single config) :
    (call.Accepted config entries ∧ ∃ next, call.perform leaf = (Status.success, next) ∧
        next.Maps config (call.effect entries)) ∨
      ¬ call.Accepted config entries ∧ (call.perform leaf).1.ok = false ∧ call.step leaf = leaf := by
  cases call with
  | insert key ref =>
    by_cases accepted : (LeafCall.insert key ref).Accepted config entries
    · exact .inl ⟨accepted, maps.insert single accepted⟩
    · exact .inr ⟨accepted, maps.insert_refused accepted⟩
  | erase key =>
    by_cases present : key ∈ entries.map Prod.fst
    · exact .inl ⟨present, maps.erase present⟩
    · exact .inr ⟨present, maps.erase_refused present⟩
  | eraseAt index =>
    by_cases inside : index < entries.length
    · exact .inl ⟨inside, maps.eraseAt inside⟩
    · exact .inr ⟨inside, maps.eraseAt_refused inside⟩
  | assignEntries keys refs => exact single.elim

theorem Maps.step (maps : leaf.Maps config entries) {call : LeafCall} (single : call.Single config) :
    ∃ after, (call.step leaf).Maps config after := by
  rcases maps.perform single with ⟨-, next, done, nextMaps⟩ | ⟨-, -, same⟩
  · exact ⟨_, by rw [LeafCall.step, done]; exact nextMaps⟩
  · exact ⟨entries, by rw [same]; exact maps⟩

theorem Maps.follows (maps : leaf.Maps config entries) {call : LeafCall} (single : call.Single config) :
    call.Follows config leaf := by
  rcases maps.perform single with ⟨accepted, next, done, nextMaps⟩ | ⟨refused, failed, same⟩
  · have ok : (call.perform leaf).1.ok = true := by rw [done]; rfl
    refine ⟨iff_of_true ok (by rw [maps.entries_eq]; exact accepted), fun _ => ?_, fun failed => ?_⟩
    · rw [LeafCall.step, done, maps.entries_eq]
      exact nextMaps.entries_eq
    · rw [ok] at failed
      cases failed
  · refine ⟨iff_of_false (by simp [failed]) (by rw [maps.entries_eq]; exact refused), fun ok => ?_, fun _ => ?_⟩
    · rw [failed] at ok
      cases ok
    · rw [same]
      exact ⟨rfl, rfl, rfl⟩

/-- In every run of calls about single entries the leaf stays a sorted map and each call does
what it does to the map. -/
theorem leaf_is_sorted_map (config : BTreeNodeConfig) (pageId : PageId) (calls : List LeafCall)
    (single : ∀ call ∈ calls, call.Single config) :
    Runs.Always LeafCall.step (InOrder config) (create pageId config) calls ∧
      Runs.AtEachStep LeafCall.step (LeafCall.Follows config) (create pageId config) calls := by
  have runs : Runs.Always LeafCall.step (fun leaf => ∃ entries, leaf.Maps config entries) (create pageId config) calls :=
    Runs.always_of_invariant (fun _ _ ⟨_, maps⟩ allowed => maps.step allowed) ⟨[], maps_create pageId config⟩
      (Runs.atEachStep_of_forall fun call member _ => single call member)
  refine ⟨fun done inside => ?_, fun done next inside => ?_⟩
  · obtain ⟨entries, maps⟩ := runs done inside
    exact maps.inOrder
  · obtain ⟨entries, maps⟩ := runs done ((List.prefix_append done _).trans inside)
    exact maps.follows (single next (inside.subset (by simp)))


theorem leaf_is_sorted_map_pairs :
    Runs.Always LeafCall.step (InOrder {}) (create 5 {})
        [.insert (.uint32 7) (.make 8 1 0), .insert (.uint32 3) (.make 9 1 0), .erase (.uint32 7), .eraseAt 4] ∧
      Runs.AtEachStep LeafCall.step (LeafCall.Follows {}) (create 5 {})
        [.insert (.uint32 7) (.make 8 1 0), .insert (.uint32 3) (.make 9 1 0), .erase (.uint32 7), .eraseAt 4] :=
  leaf_is_sorted_map {} 5 _ (by simp [LeafCall.Single, Key.Matches, Key.type])

end LeafNode
end Quartz.Btree
