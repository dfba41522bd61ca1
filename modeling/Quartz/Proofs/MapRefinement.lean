import Quartz.Proofs.LoneLeaf
import Quartz.Proofs.TreeErasure

/-! The tree as a finite map. As long as one leaf holds all entries, every answer of the tree
is that of the map; the first entry that does not fit in splits the leaf and loses the
reference of the key that goes up. -/

namespace Quartz.Btree
open Storage Format TreeM Fallible HeapTree BTree SortedPairs

variable {ω : Type} {tree : BTree ω} {key : Key}

/-- A lone leaf in which no key repeats is a sorted tree. -/
theorem BTree.Alone.ordered {config : BTreeNodeConfig} {entries : List (Key × PageReference)} (alone : tree.Alone config entries)
    (sound : tree.Sound) (distinct : (entries.map Prod.fst).Nodup) : tree.Ordered (entries.map Prod.fst) := by
  have sorted : (entries.map Prod.fst).Pairwise (· < ·) :=
    ((List.pairwise_map.mpr alone.sorted).and distinct).imp fun both => lt_of_le_of_ne both.1 both.2
  rcases alone.standing with ⟨rfl, bare, -⟩ | ⟨-, -, leaf, one, row⟩
  · exact ⟨sound, sorted, .inl ⟨bare, rfl⟩⟩
  · have found : tree.view tree.rootId = some (.leaf (entries.map Prod.fst)) :=
      view_leaf.mpr ⟨leaf, lookup_root one, row.keys⟩
    exact ⟨sound, sorted, .inr ⟨0, tree_leaf found, by simp [ids], inorder_leaf found⟩⟩

/-- A tree with more keys than a leaf holds has lost one of them: it stands only between leaves. -/
theorem BTree.Ordered.loses {order : List Key} (ordered : tree.Ordered order)
    (many : computeCapacity tree.config .leaf < order.length) : ∃ key ∈ order, ∀ ref, tree.find key ≠ .ok ref := by
  rcases ordered.standing with ⟨-, rfl⟩ | ⟨top, shape⟩
  · exact absurd many (Nat.not_lt_zero _)
  have parts := shape.grown.parts
  rw [shape.order] at parts
  have separated : separators tree.view top tree.rootId ≠ [] := by
    intro none
    obtain ⟨leafId, keys, found, all⟩ := shape.grown.single none
    obtain ⟨leaf, standing, rfl⟩ := view_leaf.mp found
    rw [← shape.order, all] at many
    exact absurd (ordered.sound.leaves leafId leaf standing).room (Nat.not_le.mpr many)
  obtain ⟨key, rest, here⟩ := List.exists_cons_of_ne_nil separated
  refine ⟨key, parts.mem_iff.mpr (by simp [here]), fun ref found => ?_⟩
  -- a key that is found stands in a leaf as well
  obtain ⟨leafId, path, before, after, outside, walked, reached⟩ := shape.reaches ordered.sound ordered.sorted key
  obtain ⟨leaf, standing, -, -⟩ := reached.splits shape
  have leafFound : tree.view leafId = some (.leaf leaf.keys) := view_leaf.mpr ⟨leaf, standing, rfl⟩
  cases down : tree.descendToLeaf key true with
  | error failure => simp [find, down] at found
  | ok place =>
    obtain ⟨-, inLeaf⟩ := descendToLeaf_found standing walked down
    have member : key ∈ leafKeys tree.view top tree.rootId :=
      reached.within.leafKeys_subset (by rw [leafKeys, inorder_leaf leafFound]; exact List.mem_of_getElem? inLeaf)
    have distinct : (leafKeys tree.view top tree.rootId ++ separators tree.view top tree.rootId).Nodup :=
      parts.nodup_iff.mp (ordered.sorted.imp ne_of_lt)
    exact (List.nodup_append.mp distinct).2.2 key member key (by simp [here]) rfl

/-- A list of entries that says what a map says. -/
structure Agrees (map : AList (fun _ : Key => PageReference)) (entries : List (Key × PageReference)) : Prop where
  keys : map.keys.Perm (entries.map Prod.fst)
  lookup : ∀ key ref, map.lookup key = some ref ↔ (key, ref) ∈ entries

namespace Agrees

variable {map : AList (fun _ : Key => PageReference)} {entries other : List (Key × PageReference)} {value : PageReference}

theorem perm (agrees : Agrees map entries) (same : entries.Perm other) : Agrees map other :=
  ⟨agrees.keys.trans (same.map _), fun key ref => (agrees.lookup key ref).trans same.mem_iff⟩

theorem distinct (agrees : Agrees map entries) : (entries.map Prod.fst).Nodup := agrees.keys.nodup_iff.mp map.nodupKeys

theorem length_eq (agrees : Agrees map entries) : map.keys.length = entries.length := by
  rw [agrees.keys.length_eq, List.length_map]

theorem stack_eq_nil (agrees : Agrees map entries) : stack key entries = [] ↔ key ∉ map := by
  rw [SortedPairs.stack_eq_nil, show key ∈ map ↔ key ∈ entries.map Prod.fst from agrees.keys.mem_iff, List.mem_map]
  exact ⟨fun none ⟨entry, member, same⟩ => none entry member same, fun none entry member same => none ⟨entry, member, same⟩⟩

theorem insert (agrees : Agrees map entries) (new : key ∉ map) (value : PageReference) :
    Agrees (map.insert key value) ((key, value) :: entries) := by
  refine ⟨?_, fun other ref => ?_⟩
  · rw [AList.keys_insert, List.erase_of_not_mem new, List.map_cons]
    exact agrees.keys.cons key
  · by_cases same : other = key
    · subst same
      have away : (other, ref) ∉ entries := fun member => SortedPairs.stack_eq_nil.mp (agrees.stack_eq_nil.mpr new) _ member rfl
      simp [away, eq_comm]
    · rw [AList.lookup_insert_ne same, agrees.lookup]
      simp [same]

theorem erase (agrees : Agrees map ((key, value) :: entries)) : Agrees (map.erase key) entries := by
  refine ⟨?_, fun other ref => ?_⟩
  · rw [AList.keys_erase]
    simpa using agrees.keys.erase key
  · by_cases same : other = key
    · subst same
      have away : (other, ref) ∉ entries := fun member =>
        (List.nodup_cons.mp agrees.distinct).1 (List.mem_map.mpr ⟨_, member, rfl⟩)
      simpa using away
    · rw [AList.lookup_erase_ne same, agrees.lookup]
      simp [same]

end Agrees

structure MapRun (ω : Type) where
  tree : BTree ω
  map : AList (fun _ : Key => PageReference) := ∅

namespace MapRun

/-- Every question is answered as the map answers it. -/
structure Refines (state : MapRun ω) : Prop where
  find : ∀ key ref, state.tree.find key = .ok ref ↔ state.map.lookup key = some ref
  contains : ∀ key, state.tree.contains key = .ok (decide (key ∈ state.map))
  size : state.tree.size.toNat = state.map.keys.length
  empty : state.tree.empty = true ↔ state.map = ∅

def Fits (config : BTreeNodeConfig) (state : MapRun ω) : Prop := state.map.keys.length ≤ computeCapacity config .leaf

/-- The state of a run whose map has always fitted into one leaf. -/
structure Held (config : BTreeNodeConfig) (state : MapRun ω) : Prop where
  sound : state.tree.Sound
  standing : ∃ entries, state.tree.Alone config entries ∧ Agrees state.map entries

theorem Held.fits {config : BTreeNodeConfig} {state : MapRun ω} (held : state.Held config) : state.Fits config := by
  obtain ⟨entries, alone, agrees⟩ := held.standing
  rw [Fits, agrees.length_eq]
  exact alone.room

theorem Held.refines {config : BTreeNodeConfig} {state : MapRun ω} (held : state.Held config) : state.Refines := by
  obtain ⟨entries, alone, agrees⟩ := held.standing
  refine ⟨fun key ref => ?_, fun key => ?_, alone.size.trans agrees.length_eq.symm, ?_⟩
  · rcases alone.find_eq key with ⟨value, member, found⟩ | ⟨none, status, missing⟩
    · rw [found, (agrees.lookup key value).mpr member, Except.ok.injEq, Option.some.injEq]
    · have absent := AList.lookup_eq_none.mpr (agrees.stack_eq_nil.mp none)
      simp [missing, absent]
  · rcases alone.find_eq key with ⟨value, member, found⟩ | ⟨none, status, missing⟩
    · have there : key ∈ state.map := AList.lookup_isSome.mp (by rw [(agrees.lookup key value).mpr member]; rfl)
      simp [BTree.contains, found, there]
    · simp [BTree.contains, missing, agrees.stack_eq_nil.mp none]
  · have same : state.map = ∅ ↔ entries = [] := by
      rw [← List.length_eq_zero_iff, ← agrees.length_eq, List.length_eq_zero_iff]
      exact ⟨fun none => by rw [none]; rfl, fun none => AList.ext (List.map_eq_nil_iff.mp none)⟩
    rcases alone.standing with ⟨none, bare, -⟩ | ⟨some, live, -⟩
    · simp [BTree.empty, bare, same, none]
    · simp [BTree.empty, live, same, some]

variable [BTreeWalSink ω]

def step (state : MapRun ω) (call : TreeCall) : MapRun ω where
  tree := call.step state.tree
  map := match call with
    | .insert key value => if key ∈ state.map then state.map else state.map.insert key value
    | .erase key => state.map.erase key

/-- An insertion succeeds exactly for a key that is not in the map, an erasure for one that is. -/
def Answers (state : MapRun ω) (call : TreeCall) : Prop :=
  (call.perform.run state.tree).1 = .ok () ↔
    match call with
    | .insert key _ => key ∉ state.map
    | .erase key => key ∈ state.map

variable {config : BTreeNodeConfig} {state : MapRun ω}

theorem eraseStep_held (held : state.Held config) (key : Key) :
    state.Answers (.erase key) ∧ (state.step (.erase key)).Held config := by
  obtain ⟨entries, alone, agrees⟩ := held.standing
  by_cases known : key ∈ state.map
  · obtain ⟨front, back, value, after, rfl, ran, left⟩ := alone.erase_known fun none => agrees.stack_eq_nil.mp none known
    obtain ⟨order, -, -, ordered⟩ := erase_ordered (alone.ordered held.sound agrees.distinct) key
    rw [ran] at ordered
    have stepped : TreeCall.step state.tree (.erase key) = after := congrArg Prod.snd ran
    refine ⟨by simp [Answers, TreeCall.perform, ran, known], ?_, front ++ back, ?_, (agrees.perm List.perm_middle).erase⟩
    · rw [step, stepped]
      exact ordered.sound
    · rw [step, stepped]
      exact left
  · obtain ⟨failure, ran⟩ := alone.erase_unknown (agrees.stack_eq_nil.mpr known)
    have same : state.step (.erase key) = state := by
      have map : state.map.erase key = state.map := AList.ext (List.kerase_of_notMem_keys known)
      have tree : TreeCall.step state.tree (.erase key) = state.tree := congrArg Prod.snd ran
      simp only [step, map, tree]
    rw [same]
    exact ⟨by simp [Answers, TreeCall.perform, ran, known], held⟩

theorem insertStep_held (held : state.Held config) (unique : config.allowDuplicates = false)
    (matching : key.Matches config) {value : PageReference} (valid : value.isValid = true)
    (pages : ¬ Exhausts (BTree.insert key value) state.tree) (fits : (state.step (.insert key value)).Fits config) :
    state.Answers (.insert key value) ∧ (state.step (.insert key value)).Held config := by
  obtain ⟨entries, alone, agrees⟩ := held.standing
  by_cases known : key ∈ state.map
  · have ran := alone.insert_known unique (fun none => agrees.stack_eq_nil.mp none known) valid
    have same : state.step (.insert key value) = state := by
      have tree : TreeCall.step state.tree (.insert key value) = state.tree := congrArg Prod.snd ran
      simp only [step, tree, if_pos known]
    rw [same]
    exact ⟨by simp [Answers, TreeCall.perform, ran, known], held⟩
  · have map : (state.step (.insert key value)).map = state.map.insert key value := by simp [step, known]
    rw [Fits, map, AList.keys_insert, List.erase_of_not_mem known, List.length_cons, agrees.length_eq] at fits
    obtain ⟨next, front, back, -, ran, -, ordered, -⟩ := (insert_grows (alone.ordered held.sound agrees.distinct)
      (fun there => known (agrees.keys.mem_iff.mpr there)) (alone.configured ▸ matching) valid).resolve_left pages
    have stepped : (state.step (.insert key value)).tree = next := congrArg Prod.snd ran
    refine ⟨by simp [Answers, TreeCall.perform, ran, known], by rw [stepped]; exact ordered.sound, push key value entries, ?_, ?_⟩
    · rw [stepped]
      exact alone.insert_done (.inr (agrees.stack_eq_nil.mpr known)) (fun _ => fits) ran
    · rw [map]
      exact (agrees.insert known value).perm (push_perm key value entries).symm

theorem insertStep_loses (held : state.Held config) (matching : key.Matches config) {value : PageReference}
    (valid : value.isValid = true) (pages : ¬ Exhausts (BTree.insert key value) state.tree)
    (full : ¬ (state.step (.insert key value)).Fits config) : ¬ (state.step (.insert key value)).Refines := by
  have new : key ∉ state.map := by
    intro there
    refine full ?_
    rw [Fits, show (state.step (.insert key value)).map = state.map by simp [step, there]]
    exact held.fits
  have map : (state.step (.insert key value)).map = state.map.insert key value := by simp [step, new]
  rw [Fits, map, AList.keys_insert, List.erase_of_not_mem new, List.length_cons] at full
  obtain ⟨entries, alone, agrees⟩ := held.standing
  have known : ∀ key, key ∈ state.map ↔ key ∈ entries.map Prod.fst := fun key => agrees.keys.mem_iff
  obtain ⟨next, front, back, parts, ran, sameConfig, ordered, -⟩ := (insert_grows (alone.ordered held.sound agrees.distinct)
    (fun there => new ((known key).mpr there)) (alone.configured ▸ matching) valid).resolve_left pages
  have stepped : (state.step (.insert key value)).tree = next := congrArg Prod.snd ran
  obtain ⟨lost, member, missing⟩ := ordered.loses (by
    rw [sameConfig, alone.configured]
    rw [agrees.keys.length_eq, parts] at full
    simp only [List.length_append, List.length_cons] at full ⊢
    omega)
  intro refines
  have there : lost ∈ state.map.insert key value := by
    rw [AList.mem_insert, known, parts]
    rcases List.mem_append.mp member with member | member
    · exact .inr (List.mem_append_left _ member)
    · exact (List.mem_cons.mp member).imp_right (List.mem_append_right _)
  obtain ⟨ref, found⟩ := Option.isSome_iff_exists.mp (AList.lookup_isSome.mpr there)
  rw [← map] at found
  have answer := (refines.find lost ref).mpr found
  rw [stepped] at answer
  exact missing ref answer

/-- A key of the configured type and size, and a valid reference. -/
def Legal (config : BTreeNodeConfig) (call : TreeCall) : Prop :=
  call.key.Matches config ∧
    match call with
    | .insert _ value => value.isValid = true
    | .erase _ => True

theorem step_held (held : state.Held config) (unique : config.allowDuplicates = false) {call : TreeCall}
    (legal : Legal config call) (pages : ¬ Exhausts call.perform state.tree) :
    ((state.step call).Fits config → state.Answers call ∧ (state.step call).Held config) ∧
      ((state.step call).Refines → (state.step call).Fits config) := by
  cases call with
  | erase key =>
    have kept := eraseStep_held held key
    exact ⟨fun _ => kept, fun _ => kept.2.fits⟩
  | insert key value =>
    refine ⟨insertStep_held held unique legal.1 legal.2 pages, fun refines => ?_⟩
    by_contra full
    exact insertStep_loses held legal.1 legal.2 pages full refines

theorem held_iff (held : state.Held config) (unique : config.allowDuplicates = false) {calls : List TreeCall}
    (legal : ∀ call ∈ calls, Legal config call)
    (pages : Runs.AtEachStep step (fun state call => ¬ Exhausts call.perform state.tree) state calls) :
    Runs.AtEachStep step Answers state calls ∧ Runs.Always step Refines state calls ↔
      Runs.Always step (Fits config) state calls := by
  induction calls generalizing state with
  | nil => simp [held.refines, held.fits]
  | cons call rest ih =>
    obtain ⟨now, later⟩ := Runs.atEachStep_cons.mp pages
    obtain ⟨keeps, needs⟩ := step_held held unique (legal call List.mem_cons_self) now
    have legal' := fun other (member : other ∈ rest) => legal other (List.mem_cons_of_mem _ member)
    rw [Runs.atEachStep_cons, Runs.always_cons, Runs.always_cons]
    constructor
    · rintro ⟨⟨-, answers⟩, -, refines⟩
      obtain ⟨-, next⟩ := keeps (needs refines.head)
      exact ⟨held.fits, (ih next legal' later).mp ⟨answers, refines⟩⟩
    · rintro ⟨-, fits⟩
      obtain ⟨answer, next⟩ := keeps fits.head
      obtain ⟨answers, refines⟩ := (ih next legal' later).mpr fits
      exact ⟨⟨answer, answers⟩, held.refines, refines⟩

/-- The tree answers as the finite map does throughout a run exactly when the map never
outgrows one leaf. -/
theorem refines_iff_fits_one_leaf (space : Space.SpaceManager) (sound : space.pageAllocator.Sound)
    (config : BTreeNodeConfig) (unique : config.allowDuplicates = false) (calls : List TreeCall)
    (legal : ∀ call ∈ calls, Legal config call)
    (pages : Runs.AtEachStep step (fun state call => ¬ Exhausts call.perform state.tree)
      ({ tree := BTree.create space config } : MapRun ω) calls) :
    Runs.AtEachStep step Answers ({ tree := BTree.create space config } : MapRun ω) calls ∧
        Runs.Always step Refines ({ tree := BTree.create space config } : MapRun ω) calls ↔
      Runs.Always step (Fits config) ({ tree := BTree.create space config } : MapRun ω) calls := by
  refine held_iff ⟨?_, [], alone_create space config, List.Perm.refl _, by simp⟩ unique legal pages
  exact ⟨owned_create sound config none, by simp [BTree.create], by simp [BTree.create], rfl⟩

/-- Calls that insert, insert again, erase and erase in vain. -/
def mixedCalls : List TreeCall :=
  [.insert (.uint32 2) (PageReference.make 9 0 1), .insert (.uint32 1) (PageReference.make 10 0 1),
    .insert (.uint32 2) (PageReference.make 11 0 1), .erase (.uint32 2), .erase (.uint32 2)]

theorem refines_iff_fits_one_leaf_mixed :
    Runs.AtEachStep step Answers
        ({ tree := BTree.create (Space.SpaceManager.withPolicy .firstFit) {} } : MapRun Empty) mixedCalls ∧
      Runs.Always step Refines
        ({ tree := BTree.create (Space.SpaceManager.withPolicy .firstFit) {} } : MapRun Empty) mixedCalls :=
  (refines_iff_fits_one_leaf (Space.SpaceManager.withPolicy .firstFit) PageAllocator.sound_new {} rfl mixedCalls
    (by simp [mixedCalls, Legal, TreeCall.key, Key.Matches, Key.type, PageReference.isValid, PageReference.make, kInvalidPageId])
    (by decide)).mpr (by unfold Fits; decide)

/-- Fourteen such keys fill a leaf; of fifteen the eighth goes up and is not found. -/
theorem promoted_key_is_not_found :
    let config : BTreeNodeConfig := { keyType := .binary, binaryKeySize := 256 }
    let calls := (List.range 15).map fun byte => TreeCall.insert (wideKey (UInt8.ofNat byte)) (PageReference.make 9 0 1)
    let start : MapRun Empty := { tree := BTree.create (Space.SpaceManager.withPolicy .firstFit) config }
    Runs.AtEachStep step (fun state call => (call.perform.run state.tree).1 = .ok ()) start calls ∧
      wideKey 7 ∈ (Runs.after step start calls).map ∧
      (Runs.after step start calls).tree.find (wideKey 7) =
        .error (.status (Status.invalidArgument "BTree: key not found")) := by
  decide +kernel

end MapRun
end Quartz.Btree
