import Quartz.Lib.HeapSplits
import Quartz.Proofs.TreeDescent

/-! Insertions keep the shape of the tree: a new key takes its place among the keys from left
to right, however many nodes are split for it. -/

namespace Quartz.Btree
open Storage Format TreeM Fallible HeapTree BTree

variable {ω : Type}

theorem pairwise_insert {α : Type} [LT α] {front back : List α} {item : α} (sorted : (front ++ back).Pairwise (· < ·))
    (below : ∀ other ∈ front, other < item) (above : ∀ other ∈ back, item < other) :
    (front ++ item :: back).Pairwise (· < ·) := by
  obtain ⟨first, second, across⟩ := List.pairwise_append.mp sorted
  refine List.pairwise_append.mpr ⟨first, List.pairwise_cons.mpr ⟨above, second⟩, fun low member high behind => ?_⟩
  rcases List.mem_cons.mp behind with rfl | behind
  · exact below low member
  · exact across low member high behind

theorem le_computeCapacity {config : BTreeNodeConfig} (size : entrySize config ≤ 279) (kind : NodeType) :
    14 ≤ computeCapacity config kind := by
  have positive : 0 < entrySize config := by
    rw [entrySize, PageReference.kSize]
    omega
  have room : ∀ area, 14 * 279 ≤ area → 14 ≤ area / entrySize config := fun area enough =>
    (Nat.le_div_iff_mul_le positive).mpr (Nat.le_trans (Nat.mul_le_mul_left 14 size) enough)
  cases kind with
  | leaf | internal => exact room _ (by decide)

theorem Key.Matches.capacity {key : Key} {config : BTreeNodeConfig} (matching : key.Matches config) (kind : NodeType) :
    14 ≤ computeCapacity config kind := by
  refine le_computeCapacity ?_ kind
  obtain ⟨type, length⟩ := matching
  rw [entrySize, keyWireSize, ← type]
  cases key with
  | uint32 value | uint64 value => simp [Key.type, PageReference.kSize]
  | binary bytes fits =>
    rw [← length bytes fits rfl]
    simp only [Key.type, PageReference.kSize, kMaxBinaryKeySize] at fits ⊢
    omega

namespace BTree

theorem Becomes.trans {tree middle after : BTree ω} {first second : PageId → Option (Node PageId Key)}
    (begins : Becomes tree first middle) (continues : Becomes middle second after) : Becomes tree second after :=
  ⟨continues.sound, continues.config.trans begins.config, continues.rootId.trans begins.rootId,
    continues.size.trans begins.size, continues.height.trans begins.height, continues.view⟩

@[simp] theorem makeIndexRef_pageId (id : PageId) : (makeIndexRef id).pageId = id := rfl

/-- A node below the root is at least half full. -/
def HalfFull (config : BTreeNodeConfig) : Node PageId Key → Prop
  | .leaf keys => minKeyCount (computeCapacity config .leaf) false ≤ keys.length
  | .branch keys _ => minKeyCount (computeCapacity config .internal) false ≤ keys.length

/-- The height is counted right, there are no other nodes than these, and all of them are half
full but those that are spared. -/
structure Balanced (tree : BTree ω) (top : Nat) (nodes : List PageId) (spared : PageId → Prop) : Prop where
  height : tree.height = UInt32.ofNat (top + 1)
  known : ∀ id, (tree.view id).isSome → id ∈ nodes
  filled : ∀ id node, tree.view id = some node → ¬ spared id → HalfFull tree.config node

section Balanced

variable {tree after : BTree ω} {top : Nat} {nodes nodes' : List PageId} {spared spared' : PageId → Prop}
  {heap : PageId → Option (Node PageId Key)}

/-- Every node was there before or is written half full. -/
theorem Balanced.change (balanced : tree.Balanced top nodes spared) (becomes : Becomes tree heap after)
    (more : ∀ other ∈ nodes, other ∈ nodes')
    (each : ∀ other node, heap other = some node → tree.view other = some node ∧ (spared other → spared' other) ∨
      other ∈ nodes' ∧ (¬ spared' other → HalfFull tree.config node)) : after.Balanced top nodes' spared' := by
  obtain ⟨-, config, -, -, height, rfl⟩ := becomes
  refine ⟨height.trans balanced.height, fun other stands => ?_, fun other node stands free => ?_⟩
  · obtain ⟨node, found⟩ := Option.isSome_iff_exists.mp stands
    rcases each other node found with ⟨old, -⟩ | ⟨member, -⟩
    · exact more other (balanced.known other (by simp [old]))
    · exact member
  · rw [config]
    rcases each other node stands with ⟨old, fewer⟩ | ⟨-, filled⟩
    · exact balanced.filled other node old fun before => free (fewer before)
    · exact filled free

/-- One node is written. -/
theorem Balanced.write {id : PageId} {node : Node PageId Key} (balanced : tree.Balanced top nodes spared)
    (becomes : Becomes tree (Function.update tree.view id (some node)) after) (member : id ∈ nodes')
    (more : ∀ other ∈ nodes, other ∈ nodes') (filled : ¬ spared' id → HalfFull tree.config node)
    (fewer : ∀ other, other ≠ id → spared other → spared' other) : after.Balanced top nodes' spared' := by
  refine balanced.change becomes more fun other found stands => ?_
  by_cases same : other = id
  · subst same
    rw [Function.update_self, Option.some.injEq] at stands
    exact .inr ⟨member, stands ▸ filled⟩
  · rw [Function.update_of_ne same] at stands
    exact .inl ⟨stands, fewer other same⟩

/-- A node falls into two halves. -/
theorem Balanced.halve {first second : PageId} {left right : Node PageId Key} (balanced : tree.Balanced top nodes spared)
    (becomes : Becomes tree (Function.update (Function.update tree.view first (some left)) second (some right)) after)
    (members : first ∈ nodes' ∧ second ∈ nodes') (more : ∀ other ∈ nodes, other ∈ nodes')
    (filled : HalfFull tree.config left ∧ HalfFull tree.config right)
    (fewer : ∀ other, other ≠ first → spared other → spared' other) : after.Balanced top nodes' spared' := by
  refine balanced.change becomes more fun other found stands => ?_
  by_cases same : other = second
  · subst same
    rw [Function.update_self, Option.some.injEq] at stands
    exact .inr ⟨members.2, fun _ => stands ▸ filled.2⟩
  rw [Function.update_of_ne same] at stands
  by_cases same : other = first
  · subst same
    rw [Function.update_self, Option.some.injEq] at stands
    exact .inr ⟨members.1, fun _ => stands ▸ filled.1⟩
  · rw [Function.update_of_ne same] at stands
    exact .inl ⟨stands, fewer other same⟩

end Balanced

/-- The tree carries these keys, and if it was balanced it still is. -/
structure Grows (tree : BTree ω) (order : List Key) (balanced : Prop) (after : BTree ω) : Prop where
  sound : after.Sound
  config : after.config = tree.config
  shape : ∃ top, after.Shape top order ∧
    (balanced → after.Balanced top (ids after.view top after.rootId) (· = after.rootId))

/-- The root and the counts are no part of what a sound tree agrees on. -/
theorem Sound.scalars {tree : BTree ω} (sound : tree.Sound) (rootId : PageId) (size : UInt64) (height : UInt32) :
    ({ tree with rootId := rootId, size := size, height := height } : BTree ω).Sound :=
  ⟨sound.owned.of_same (samePages_scalars tree _ _ _ _), sound.leaves, sound.internals, sound.silent⟩

end BTree

/-- The space manager gave no page. -/
def Exhausts {α : Type} (computation : TreeM ω α) (tree : BTree ω) : Prop :=
  ∃ status after, computation.run tree = (.error (.status status), after) ∧ exhausted status

instance {α : Type} (computation : TreeM ω α) (tree : BTree ω) : Decidable (Exhausts computation tree) :=
  match ended : computation.run tree with
  | (.error (.status status), after) =>
    decidable_of_iff (exhausted status) ⟨fun full => ⟨status, after, ended, full⟩, by
      rintro ⟨status', after', same, full⟩
      cases ended.symm.trans same
      exact full⟩
  | (.error .outOfRange, _) => isFalse (by rintro ⟨_, _, same, -⟩; cases ended.symm.trans same)
  | (.error .diverges, _) => isFalse (by rintro ⟨_, _, same, -⟩; cases ended.symm.trans same)
  | (.ok _, _) => isFalse (by rintro ⟨_, _, same, -⟩; cases ended.symm.trans same)

theorem Exhausts.bind {α β : Type} {first : TreeM ω α} {next : α → TreeM ω β} {tree : BTree ω}
    (failed : Exhausts first tree) : Exhausts (first >>= next) tree := by
  obtain ⟨status, after, stopped, exhausted⟩ := failed
  exact ⟨status, after, run_bind_error stopped, exhausted⟩

theorem Exhausts.of_bind {α β : Type} {first : TreeM ω α} {next : α → TreeM ω β} {tree middle : BTree ω} {value : α}
    (done : first.run tree = (.ok value, middle)) (failed : Exhausts (next value) middle) :
    Exhausts (first >>= next) tree := by
  obtain ⟨status, after, stopped, exhausted⟩ := failed
  exact ⟨status, after, (run_bind_ok done).trans stopped, exhausted⟩

variable [BTreeWalSink ω] {tree : BTree ω}

namespace Rebalance

/-- A node with one key and one child more falls into two around the key in the middle. -/
theorem splitInternal_becomes (sound : tree.Sound) {nodeId : PageId} {keys : List Key} {children : List PageId}
    (found : tree.view nodeId = some (.branch keys children)) {index : Nat} (inside : index ≤ keys.length) {key : Key}
    (matching : key.Matches tree.config) {rightChild : PageReference} {all : List Key} {below : List PageId}
    (more : keys.insertIdx index key = all) (wider : children.insertIdx (index + 1) rightChild.pageId = below) :
    Exhausts (splitInternal nodeId index key rightChild) tree ∨
    ∃ promoted siblingId after,
      (splitInternal nodeId index key rightChild).run tree = (.ok (promoted, siblingId), after) ∧
      all[all.length / 2]? = some promoted ∧ tree.view siblingId = none ∧
      Becomes tree (Function.update (Function.update tree.view nodeId
        (some (.branch (all.take (all.length / 2)) (below.take (all.length / 2 + 1)))))
        siblingId (some (.branch (all.drop (all.length / 2 + 1)) (below.drop (all.length / 2 + 1))))) after := by
  obtain ⟨noLeaf, node, standing, rfl, rfl⟩ := view_branch.mp found
  have ok := sound.internals nodeId node standing
  have length : all.length = node.keys.length + 1 := by rw [← more, List.length_insertIdx_of_le_length inside]
  rw [← List.map_insertIdx] at wider
  have refsLength : (node.children.insertIdx (index + 1) rightChild).length = node.keys.length + 2 := by
    rw [List.length_insertIdx_of_le_length (by rw [ok.children]; omega), ok.children]
  have each : ∀ other ∈ all, other.Matches tree.config := by
    intro other member
    rw [← more] at member
    rcases (List.mem_insertIdx inside).mp member with rfl | member
    · exact matching
    · exact ok.matching other member
  have room := ok.room
  have middle : all.length / 2 < all.length := by omega
  have promotes : all[all.length / 2]? = some all[all.length / 2] := List.getElem?_eq_getElem middle
  -- the left half stays in the node
  obtain ⟨left, assigned, leftOk, leftKeys, leftChildren⟩ := InternalNode.assignEntries_ok ok
    (all.take (all.length / 2)) ((node.children.insertIdx (index + 1) rightChild).take (all.length / 2 + 1))
    (by simp only [List.length_take]; omega) (by simp only [List.length_take]; omega)
    fun other member => each other (List.mem_of_mem_take member)
  obtain ⟨first, changed, begun⟩ := onInternal_becomes sound standing
    (fun node => node.assignEntries _ _) assigned leftOk
  rw [leftKeys, leftChildren, List.map_take, wider] at begun
  rw [splitInternal, Exhausts, run_bind_ok (internal_found standing)]
  simp only [more, promotes]
  rw [run_bind_ok (ofOption_run rfl _), run_bind_ok changed]
  rcases allocateInternal_becomes begun.sound node.level with failed | ⟨siblingId, second, allocated, away, grown⟩
  · exact .inl (Exhausts.bind failed)
  -- the right half goes to the new sibling
  have empty : second.view siblingId = some (.branch [] [kInvalidPageId]) := by rw [grown.view, Function.update_self]
  obtain ⟨-, sibling, siblingStanding, -, -⟩ := view_branch.mp empty
  obtain ⟨right, assignedRight, rightOk, rightKeys, rightChildren⟩ :=
    InternalNode.assignEntries_ok (grown.sound.internals siblingId sibling siblingStanding)
      (all.drop (all.length / 2 + 1)) ((node.children.insertIdx (index + 1) rightChild).drop (all.length / 2 + 1))
      (by simp only [List.length_drop]; omega)
      (by rw [grown.config, begun.config]; simp only [List.length_drop]; omega)
      fun other member => by rw [grown.config, begun.config]; exact each other (List.mem_of_mem_drop member)
  obtain ⟨third, changedRight, ended⟩ := onInternal_becomes grown.sound siblingStanding
    (fun sibling => sibling.assignEntries _ _) assignedRight rightOk
  rw [rightKeys, rightChildren, List.map_drop, wider, grown.view, Function.update_idem, begun.view] at ended
  rw [begun.view] at away
  have different : siblingId ≠ nodeId := by
    rintro rfl
    simp at away
  rw [Function.update_of_ne different] at away
  refine .inr ⟨all[all.length / 2], siblingId, third, ?_, rfl, away, (begun.trans grown).trans ended⟩
  rw [run_bind_ok allocated, run_bind_ok changedRight, run_bind_ok (notify_silent ended.sound.silent _), run_pure]

/-- A root above two nodes. -/
theorem newRoot_becomes (sound : tree.Sound) {promoted : Key} (matching : promoted.Matches tree.config) (leftId rightId : PageId) :
    Exhausts (insertIntoParent [] promoted leftId rightId) tree ∨
    ∃ rootId next, (insertIntoParent [] promoted leftId rightId).run tree =
        (.ok (), { next with rootId := rootId, height := next.height + 1 }) ∧ tree.view rootId = none ∧
      Becomes tree (Function.update tree.view rootId (some (.branch [promoted] [leftId, rightId]))) next := by
  rcases allocateInternal_becomes sound tree.height with failed | ⟨rootId, first, allocated, away, grown⟩
  · exact .inl (.of_bind run_read (Exhausts.bind failed))
  have empty : first.view rootId = some (.branch [] [kInvalidPageId]) := by rw [grown.view, Function.update_self]
  obtain ⟨-, root, standing, -, -⟩ := view_branch.mp empty
  have capacity := matching.capacity .internal
  obtain ⟨filled, assigned, ok, keys, children⟩ :=
    InternalNode.assignEntries_ok (grown.sound.internals rootId root standing) [promoted]
      [makeIndexRef leftId, makeIndexRef rightId] rfl
      (by rw [grown.config, List.length_singleton]; omega) (by simpa [grown.config] using matching)
  obtain ⟨second, changed, ended⟩ := onInternal_becomes grown.sound standing
    (fun root => root.assignEntries _ _) assigned ok
  have written := grown.trans ended
  rw [keys, children, grown.view, Function.update_idem] at written
  refine .inr ⟨rootId, second, ?_, away, written⟩
  rw [insertIntoParent, run_bind_ok run_read, run_bind_ok allocated, run_bind_ok changed, run_update]

section Parent

variable {frame : SearchPathEntry} {keys : List Key} {children : List PageId}

/-- A parent with room takes the key and the child. -/
theorem takes_becomes (sound : tree.Sound) (found : tree.view frame.pageId = some (.branch keys children))
    (room : keys.length < computeCapacity tree.config .internal) (inside : frame.childIndex ≤ keys.length) {promoted : Key}
    (matching : promoted.Matches tree.config) (absent : promoted ∉ keys) {rightId : PageId}
    (live : (tree.view rightId).isSome) (rest : List SearchPathEntry) (leftId : PageId) :
    ∃ next, (insertIntoParent (frame :: rest) promoted leftId rightId).run tree = (.ok (), next) ∧
      Becomes tree (Function.update tree.view frame.pageId (some (.branch (keys.insertIdx frame.childIndex promoted)
        (children.insertIdx (frame.childIndex + 1) rightId)))) next := by
  obtain ⟨-, node, standing, rfl, rfl⟩ := view_branch.mp found
  have ok := sound.internals frame.pageId node standing
  have valid : (makeIndexRef rightId).isValid = true := by
    simpa [PageReference.isValid] using (sound.live live).2
  obtain ⟨filled, inserted, filledOk, filledKeys, filledChildren⟩ := InternalNode.insert_ok ok valid inside room matching absent
  obtain ⟨next, changed, ended⟩ := onInternal_becomes sound standing
    (fun parent => parent.insert _ _ _) inserted filledOk
  rw [filledKeys, filledChildren, List.map_insertIdx, makeIndexRef_pageId] at ended
  refine ⟨next, ?_, ended⟩
  rw [insertIntoParent, run_bind_ok (internal_found standing), if_pos (by rw [ok.count, ok.page.capacity]; exact room), changed]

/-- A full parent is split first. -/
theorem insertIntoParent_full (sound : tree.Sound) (found : tree.view frame.pageId = some (.branch keys children))
    (full : ¬ keys.length < computeCapacity tree.config .internal) (rest : List SearchPathEntry) (promoted : Key)
    (leftId rightId : PageId) :
    (insertIntoParent (frame :: rest) promoted leftId rightId).run tree =
      (splitInternal frame.pageId frame.childIndex promoted (makeIndexRef rightId) >>= fun split =>
        insertIntoParent rest split.1 frame.pageId split.2).run tree := by
  obtain ⟨-, node, standing, rfl, -⟩ := view_branch.mp found
  have ok := sound.internals frame.pageId node standing
  rw [insertIntoParent, run_bind_ok (internal_found standing), if_neg (by rw [ok.count, ok.page.capacity]; exact full)]

end Parent

/-- Both halves are half full, also when the left one was the root. -/
def HalvesBalanced (tree : BTree ω) (top height : Nat) (leftId rightId : PageId) (outside : List PageId) : Prop :=
  tree.Balanced top (ids tree.view height leftId ++ ids tree.view height rightId ++ outside)
    fun id => id = tree.rootId ∧ id ≠ leftId

/-- No key more goes into the internal node at this page. -/
def Filled (tree : BTree ω) (id : PageId) : Prop :=
  ∃ keys children, tree.view id = some (.branch keys children) ∧ computeCapacity tree.config .internal ≤ keys.length

section Climb

variable {μ : Type} {items : PageId → List Key → List μ} {label : Key → μ} {top height : Nat} {promoted : Key}
  {leftId rightId : PageId} {before after order : List μ} {outside : List PageId}

/-- Two trees stand where one was, with a key between them that is still to be placed above. Something stands for the keys. -/
structure Doubled (items : PageId → List Key → List μ) (label : Key → μ) (tree : BTree ω) (top height : Nat)
    (path : List SearchPathEntry) (leftId rightId : PageId) (promoted : Key) (before after : List μ) (outside : List PageId)
    (order : List μ) : Prop where
  sound : tree.Sound
  twin : Twin (relabel items label tree.view) top tree.rootId (places path) height leftId rightId (label promoted) before after
    outside order
  single : ∀ keys : List Key, (keys.map label).Sublist order → keys.Nodup
  matching : promoted.Matches tree.config

/-- What a split that has been carried up leaves behind. -/
structure CarriedUp (items : PageId → List Key → List μ) (label : Key → μ) (tree : BTree ω) (path : List SearchPathEntry)
    (order : List μ) (balanced : Prop) (next : BTree ω) : Prop where
  sound : next.Sound
  config : next.config = tree.config
  shape : ∃ top, Tree next.view top next.rootId ∧ (ids next.view top next.rootId).Nodup ∧
    inorder (relabel items label next.view) top next.rootId = order ∧
    (balanced → next.Balanced top (ids next.view top next.rootId) (· = next.rootId))
  grew : (∀ frame ∈ path, Filled tree frame.pageId) → next.height = tree.height + 1
  stayed : (∃ frame ∈ path, ¬ Filled tree frame.pageId) → next.height = tree.height

theorem newRoot_carries (doubled : Doubled items label tree top height [] leftId rightId promoted before after outside order) :
    Exhausts (insertIntoParent [] promoted leftId rightId) tree ∨
    ∃ next, (insertIntoParent [] promoted leftId rightId).run tree = (.ok (), next) ∧
      CarriedUp items label tree [] order (HalvesBalanced tree top height leftId rightId outside) next := by
  rcases newRoot_becomes doubled.sound doubled.matching leftId rightId with failed | ⟨rootId, second, ran, away, written⟩
  · exact .inl failed
  have standing : second.view rootId = some (.branch [promoted] [leftId, rightId]) := by rw [written.view, Function.update_self]
  obtain ⟨whole, order, nodes⟩ := doubled.twin.newRoot (relabel_none away) (relabel items label second.view)
    (relabel_branch standing) fun other apart => relabel_congr (by rw [written.view, Function.update_of_ne apart])
  have root : leftId = tree.rootId := by
    cases doubled.twin.within
    rfl
  have new : rootId ∉ ids (relabel items label tree.view) height leftId ++ ids (relabel items label tree.view) height rightId ++
      outside := fun member => by simpa [relabel_none away] using doubled.twin.stands rootId member
  have distinct := List.nodup_cons.mpr ⟨new, doubled.twin.distinct⟩
  rw [← nodes, ids_relabel] at distinct
  simp only [ids_relabel] at nodes
  refine .inr ⟨_, ran, written.sound.scalars rootId second.size (second.height + 1), written.config,
    ⟨top + 1, tree_relabel.mp whole, distinct, order, fun balanced => ?_⟩, fun _ => congrArg (· + 1) written.height, fun room => ?_⟩
  · obtain ⟨high, known, filled⟩ := @Balanced.write _ _ second _ _ (ids second.view (top + 1) rootId) _ (· = rootId) _ _ balanced
      written (mem_ids _ _ _) (fun other member => by rw [nodes]; exact List.mem_cons_of_mem _ member)
      (fun free => absurd rfl free) fun other _ spared => absurd spared.1 (root ▸ spared.2)
    refine ⟨?_, known, filled⟩
    show second.height + 1 = UInt32.ofNat (top + 1 + 1)
    rw [high, UInt32.ofNat_add (top + 1) 1]
    rfl
  · obtain ⟨frame, member, -⟩ := room
    cases member

section Parent

variable {frame : SearchPathEntry} {rest : List SearchPathEntry} {keys : List Key} {children : List PageId}

omit [BTreeWalSink ω] in
private theorem Doubled.place
    (doubled : Doubled items label tree top height (frame :: rest) leftId rightId promoted before after outside order)
    (found : tree.view frame.pageId = some (.branch keys children)) :
    frame.childIndex ≤ keys.length ∧ frame.pageId ∈ outside ∧ promoted ∉ keys := by
  obtain ⟨inside, member, window⟩ := doubled.twin.place (relabel_branch found)
  rw [List.length_map] at inside
  rw [← List.map_insertIdx] at window
  exact ⟨inside, member, (List.nodup_cons.mp ((List.perm_insertIdx promoted keys inside).nodup_iff.mp (doubled.single _ window))).1⟩

theorem parent_takes
    (doubled : Doubled items label tree top height (frame :: rest) leftId rightId promoted before after outside order)
    (found : tree.view frame.pageId = some (.branch keys children)) (room : keys.length < computeCapacity tree.config .internal) :
    ∃ next, (insertIntoParent (frame :: rest) promoted leftId rightId).run tree = (.ok (), next) ∧
      CarriedUp items label tree (frame :: rest) order (HalvesBalanced tree top height leftId rightId outside) next := by
  obtain ⟨inside, member, absent⟩ := doubled.place found
  obtain ⟨next, ran, ended⟩ := takes_becomes doubled.sound found room inside doubled.matching absent
    ((tree_relabel.mp doubled.twin.right).stands rightId (mem_ids _ _ _)) rest leftId
  have here : next.view frame.pageId = some (.branch (keys.insertIdx frame.childIndex promoted)
      (children.insertIdx (frame.childIndex + 1) rightId)) := by rw [ended.view, Function.update_self]
  obtain ⟨whole, order, nodes⟩ := doubled.twin.take (relabel_branch found) (relabel items label next.view)
    (by rw [relabel_branch here, List.map_insertIdx]) fun other apart => relabel_congr (by rw [ended.view, Function.update_of_ne apart])
  have distinct := nodes.nodup_iff.mpr doubled.twin.distinct
  simp only [ids_relabel] at nodes distinct
  rw [← ended.rootId] at whole order nodes distinct
  refine ⟨next, ran, ended.sound, ended.config, ⟨top, tree_relabel.mp whole, distinct, order, fun balanced => ?_⟩, fun filled => ?_,
    fun _ => ended.height⟩
  · refine balanced.write ended (nodes.mem_iff.mpr (List.mem_append_right _ member))
      (fun other member => nodes.mem_iff.mpr member) (fun free => ?_) fun other _ spared => spared.1.trans ended.rootId.symm
    have before := balanced.filled _ _ found fun spared => free (spared.1.trans ended.rootId.symm)
    simp only [HalfFull, List.length_insertIdx_of_le_length inside] at before ⊢
    omega
  · obtain ⟨others, below, same, full⟩ := filled frame List.mem_cons_self
    cases found.symm.trans same
    omega

theorem parent_splits
    (doubled : Doubled items label tree top height (frame :: rest) leftId rightId promoted before after outside order)
    (found : tree.view frame.pageId = some (.branch keys children))
    (full : ¬ keys.length < computeCapacity tree.config .internal) :
    Exhausts (splitInternal frame.pageId frame.childIndex promoted (makeIndexRef rightId)) tree ∨
    ∃ key siblingId second before' after' outside',
      (splitInternal frame.pageId frame.childIndex promoted (makeIndexRef rightId)).run tree = (.ok (key, siblingId), second) ∧
      second.config = tree.config ∧ second.height = tree.height ∧
      Doubled items label second top (height + 1) rest frame.pageId siblingId key before' after' outside' order ∧
      (∀ other ∈ rest, Filled second other.pageId ↔ Filled tree other.pageId) ∧
      (HalvesBalanced tree top height leftId rightId outside →
        HalvesBalanced second top (height + 1) frame.pageId siblingId outside') := by
  obtain ⟨inside, -, -⟩ := doubled.place found
  rcases splitInternal_becomes doubled.sound found inside doubled.matching rfl rfl with
    failed | ⟨key, siblingId, second, split, promotes, away, becomes⟩
  · exact .inl failed
  have parentStays : (frame.pageId : PageId) ≠ siblingId := by
    intro same
    rw [same, away] at found
    cases found
  have leftHalf := congrFun becomes.view frame.pageId
  have rightHalf := congrFun becomes.view siblingId
  rw [Function.update_of_ne parentStays, Function.update_self] at leftHalf
  rw [Function.update_self] at rightHalf
  have goesUp := congrArg (Option.map label) promotes
  rw [← List.getElem?_map, List.map_insertIdx] at goesUp
  obtain ⟨before', after', outside', twin, all⟩ := doubled.twin.split (relabel_branch found) (relabel_none away) goesUp
    (relabel items label second.view) (by rw [relabel_branch leftHalf, List.map_take, List.map_insertIdx]; rfl)
    (by rw [relabel_branch rightHalf, List.map_drop, List.map_insertIdx]; rfl)
    fun other apart new => relabel_congr (by rw [becomes.view, Function.update_of_ne new, Function.update_of_ne apart])
  have keyMatches : key.Matches tree.config := by
    have member := List.mem_of_getElem? promotes
    rw [List.mem_insertIdx inside] at member
    exact member.elim (fun same => same ▸ doubled.matching) (doubled.sound.branchKeys found key)
  refine .inr ⟨key, siblingId, second, before', after', outside', split, becomes.config, becomes.height,
    ⟨becomes.sound, by rw [becomes.rootId]; exact twin, doubled.single, becomes.config ▸ keyMatches⟩, fun other member => ?_,
    fun balanced => ?_⟩
  · -- the nodes further up are the same, so they are as full as before
    have around := twin.within.around (other.pageId, other.childIndex) (List.mem_map_of_mem member)
    obtain ⟨-, -, apart⟩ := List.nodup_append.mp twin.distinct
    have one := apart frame.pageId (List.mem_append_left _ (mem_ids _ _ _)) _ around
    have two := apart siblingId (List.mem_append_right _ (mem_ids _ _ _)) _ around
    rw [Filled, Filled, becomes.view, becomes.config, Function.update_of_ne two.symm, Function.update_of_ne one.symm]
  · -- a full node and one key more make two halves around the key that goes up
    have length := List.length_insertIdx_of_le_length inside promoted
    have room := doubled.sound.branchRoom found
    simp only [ids_relabel] at all
    refine balanced.halve becomes ⟨List.mem_append_left _ (List.mem_append_left _ (mem_ids _ _ _)),
      List.mem_append_left _ (List.mem_append_right _ (mem_ids _ _ _))⟩
      (fun other member => all.mem_iff.mpr (List.mem_cons_of_mem _ member)) ⟨?_, ?_⟩ fun other apart spared => ?_
    · simp only [HalfFull, minKeyCount, if_false_true, List.length_take, length]
      omega
    · simp only [HalfFull, minKeyCount, if_false_true, List.length_drop, length]
      omega
    · exact ⟨becomes.rootId ▸ spared.1, apart⟩

end Parent

/-- The insertion of a promoted key: it finds its place above, however high that is. -/
theorem insertIntoParent_climbs {path : List SearchPathEntry}
    (doubled : Doubled items label tree top height path leftId rightId promoted before after outside order) :
    Exhausts (insertIntoParent path promoted leftId rightId) tree ∨
    ∃ next, (insertIntoParent path promoted leftId rightId).run tree = (.ok (), next) ∧
      CarriedUp items label tree path order (HalvesBalanced tree top height leftId rightId outside) next := by
  induction path generalizing tree height promoted leftId rightId before after outside with
  | nil => exact newRoot_carries doubled
  | cons frame rest ih =>
    obtain ⟨_, children, marked⟩ := doubled.twin.found
    obtain ⟨keys, found, -⟩ := of_relabel_branch marked
    by_cases room : keys.length < computeCapacity tree.config .internal
    · exact .inr (parent_takes doubled found room)
    have full := insertIntoParent_full doubled.sound found room rest promoted leftId rightId
    rw [Exhausts, full]
    rcases parent_splits doubled found room with
      failed | ⟨key, siblingId, second, before', after', outside', split, config, high, above, further, balanced⟩
    · exact .inl (Exhausts.bind failed)
    rcases ih above with failed | ⟨next, ran, carried⟩
    · exact .inl (Exhausts.of_bind split failed)
    obtain ⟨top', grown, distinct, keysNow, keeps⟩ := carried.shape
    refine .inr ⟨next, by rw [run_bind_ok split, ran], carried.sound, carried.config.trans config,
      ⟨top', grown, distinct, keysNow, fun halves => keeps (balanced halves)⟩, fun filled => ?_, fun some => ?_⟩
    · rw [← high]
      exact carried.grew fun other member => (further other member).mpr (filled other (List.mem_cons_of_mem _ member))
    · rw [← high]
      obtain ⟨other, member, empty⟩ := some
      rcases List.mem_cons.mp member with rfl | member
      · exact absurd ⟨keys, children, found, Nat.not_lt.mp room⟩ empty
      · exact carried.stayed ⟨other, member, fun filled => empty ((further other member).mp filled)⟩

end Climb

omit [BTreeWalSink ω] in
/-- A leaf that has come apart, with its right half on a new page. -/
theorem leaf_doubled {top : Nat} {leafId siblingId : PageId} {path : List SearchPathEntry} {before after keys front back all : List Key}
    {outside : List PageId} {promoted : Key} {third : BTree ω}
    (within : Within tree.view top tree.rootId (places path) 0 leafId before after outside) (distinct : (leafId :: outside).Nodup)
    (found : tree.view leafId = some (.leaf keys)) (away : tree.view siblingId = none)
    (final : Becomes tree (Function.update (Function.update tree.view leafId (some (.leaf front))) siblingId (some (.leaf back))) third)
    (halves : all = front ++ promoted :: back) (sorted : (before ++ all ++ after).Pairwise (· < ·))
    (matching : promoted.Matches tree.config) :
    Doubled (fun _ keys => keys) (fun key => key) third top 0 path leafId siblingId promoted before after outside
      (before ++ all ++ after) := by
  obtain ⟨alone, rest⟩ := List.nodup_cons.mp distinct
  have different : siblingId ≠ leafId := by
    rintro rfl
    simp [found] at away
  have new : siblingId ∉ outside := fun member => by simpa [away] using within.stands (tree_leaf found) siblingId member
  have leftFound : third.view leafId = some (.leaf front) := by
    rw [final.view, Function.update_of_ne different.symm, Function.update_self]
  have rightFound : third.view siblingId = some (.leaf back) := by rw [final.view, Function.update_self]
  have within' : Within third.view top third.rootId (places path) 0 leafId before after outside := by
    rw [final.rootId]
    refine within.frame fun other member => ?_
    rw [final.view, Function.update_of_ne (ne_of_mem_of_not_mem member new),
      Function.update_of_ne (ne_of_mem_of_not_mem member alone)]
  refine ⟨final.sound, ?_, fun keys part => ?_, ?_⟩
  · rw [relabel_id]
    refine ⟨within', tree_leaf leftFound, tree_leaf rightFound, ?_, ?_⟩
    · simp [ids, different.symm, alone, new, rest]
    · rw [inorder_leaf leftFound, inorder_leaf rightFound, ← halves]
  · rw [List.map_id'] at part
    exact (sorted.sublist part).imp ne_of_lt
  · rw [final.config]
    exact matching

/-- A full leaf falls into two around the key in the middle, which goes up. -/
theorem splitAndInsertLeaf_grows (sound : tree.Sound) {top : Nat} {leafId : PageId} {path : List SearchPathEntry}
    {before after : List Key} {outside : List PageId}
    (within : Within tree.view top tree.rootId (places path) 0 leafId before after outside)
    (distinct : (leafId :: outside).Nodup) {leaf : LeafNode} (standing : tree.leaves.lookup leafId = some leaf) {key : Key}
    (value : PageReference) (inside : KeyComparator.lowerBound leaf.keys key ≤ leaf.keys.length)
    (matching : key.Matches tree.config) {all : List Key}
    (more : leaf.keys.insertIdx (KeyComparator.lowerBound leaf.keys key) key = all)
    (sorted : (before ++ all ++ after).Pairwise (· < ·)) (full : ¬ leaf.keyCount < leaf.capacity) :
    Exhausts (splitAndInsertLeaf leafId path key value) tree ∨
    ∃ next, (splitAndInsertLeaf leafId path key value).run tree = (.ok (), next) ∧
      tree.Grows (before ++ all ++ after) (tree.Balanced top (leafId :: outside) (· = tree.rootId)) next := by
  have ok := sound.leaves leafId leaf standing
  have found : tree.view leafId = some (.leaf leaf.keys) := view_leaf.mpr ⟨leaf, standing, rfl⟩
  have length : all.length = leaf.keys.length + 1 := by rw [← more, List.length_insertIdx_of_le_length inside]
  obtain ⟨refs, entries⟩ : ∃ refs, leaf.refs.insertIdx (KeyComparator.lowerBound leaf.keys key) value = refs := ⟨_, rfl⟩
  have refsLength : refs.length = all.length := by
    rw [← entries, List.length_insertIdx_of_le_length (by rw [ok.refs]; exact inside), ok.refs, length]
  have each : ∀ other ∈ all, other.Matches tree.config := by
    intro other member
    rw [← more, List.mem_insertIdx inside] at member
    exact member.elim (fun same => same ▸ matching) (ok.matching other)
  have room := ok.room
  have middle : all.length / 2 < all.length := by omega
  have promotes : all[all.length / 2]? = some all[all.length / 2] := List.getElem?_eq_getElem middle
  -- the left half stays in the leaf
  obtain ⟨left, assigned, leftOk, leftKeys, -⟩ := LeafNode.assignEntries_ok ok (all.take (all.length / 2))
    (refs.take (all.length / 2)) (by simp only [List.length_take]; omega) (by simp only [List.length_take]; omega)
    fun other member => each other (List.mem_of_mem_take member)
  obtain ⟨first, changed, begun, -⟩ := onLeaf_becomes sound standing (fun node => node.assignEntries _ _) assigned leftOk
  rw [leftKeys] at begun
  rw [splitAndInsertLeaf, Exhausts, run_bind_ok (leaf_found standing)]
  simp only [more, entries, promotes]
  rw [run_bind_ok (ofOption_run rfl _), run_bind_ok changed]
  rcases allocateLeaf_becomes begun.sound leaf.level with failed | ⟨siblingId, second, allocated, away, grown⟩
  · exact .inl (Exhausts.bind failed)
  -- the right half goes to the new sibling
  have empty : second.view siblingId = some (.leaf []) := by rw [grown.view, Function.update_self]
  obtain ⟨sibling, siblingStanding, -⟩ := view_leaf.mp empty
  obtain ⟨right, assignedRight, rightOk, rightKeys, -⟩ :=
    LeafNode.assignEntries_ok (grown.sound.leaves siblingId sibling siblingStanding) (all.drop (all.length / 2 + 1))
      (refs.drop (all.length / 2 + 1)) (by simp only [List.length_drop]; omega)
      (by rw [grown.config, begun.config]; simp only [List.length_drop]; omega)
      fun other member => by rw [grown.config, begun.config]; exact each other (List.mem_of_mem_drop member)
  obtain ⟨third, changedRight, ended, -⟩ := onLeaf_becomes grown.sound siblingStanding
    (fun sibling => sibling.assignEntries _ _) assignedRight rightOk
  rw [rightKeys, grown.view, Function.update_idem, begun.view] at ended
  have final : Becomes tree _ third := (begun.trans grown).trans ended
  rw [begun.view] at away
  have different : siblingId ≠ leafId := by
    rintro rfl
    simp at away
  rw [Function.update_of_ne different] at away
  have halves : all = all.take (all.length / 2) ++ all[all.length / 2] :: all.drop (all.length / 2 + 1) := by
    rw [← List.drop_eq_getElem_cons middle, List.take_append_drop]
  have doubled := leaf_doubled within distinct found away final halves sorted (each _ (List.getElem_mem middle))
  have balances : tree.Balanced top (leafId :: outside) (· = tree.rootId) →
      HalvesBalanced third top 0 leafId siblingId outside := by
    intro balanced
    rw [ok.count, ok.page.capacity] at full
    refine balanced.halve final (by simp [ids]) (fun other member => ?_) ⟨?_, ?_⟩ fun other apart spared => ?_
    · rcases List.mem_cons.mp member with rfl | member
      · simp [ids]
      · exact List.mem_append_right _ member
    · simp only [HalfFull, minKeyCount, if_false_true, List.length_take, length]
      omega
    · simp only [HalfFull, minKeyCount, if_false_true, List.length_drop, length]
      omega
    · exact ⟨final.rootId ▸ spared, apart⟩
  rw [run_bind_ok allocated, run_bind_ok changedRight, run_bind_ok (notify_silent final.sound.silent _)]
  rcases insertIntoParent_climbs doubled with failed | ⟨next, ran, carried⟩
  · exact .inl failed
  · obtain ⟨top', grown, nodup, order, keeps⟩ := carried.shape
    rw [relabel_id] at order
    exact .inr ⟨next, ran, carried.sound, carried.config.trans final.config, top', ⟨grown, nodup, order⟩,
      fun balanced => keeps (balances balanced)⟩

end Rebalance

namespace BTree

/-- A new key takes its place in the leaf that is reached for it. -/
theorem place_grows (sound : tree.Sound) {top : Nat} {order : List Key} (shape : tree.Shape top order)
    (sorted : order.Pairwise (· < ·)) {key : Key} (new : key ∉ order) (matching : key.Matches tree.config)
    {value : PageReference} (valid : value.isValid = true) {leafId : PageId} {path : List SearchPathEntry}
    {before after : List Key} {outside : List PageId} (reached : Reached tree top key leafId path before after outside) :
    Exhausts (place leafId path key value) tree ∨
    ∃ next front back, order = front ++ back ∧ (place leafId path key value).run tree = (.ok (), next) ∧
      (front ++ key :: back).Pairwise (· < ·) ∧ tree.Grows (front ++ key :: back)
        (tree.Balanced top (ids tree.view top tree.rootId) (· = tree.rootId)) next := by
  obtain ⟨leaf, standing, rfl, distinct⟩ := reached.splits shape
  have found : tree.view leafId = some (.leaf leaf.keys) := view_leaf.mpr ⟨leaf, standing, rfl⟩
  have known : ∀ other, other ∈ ids tree.view top tree.rootId ↔ other ∈ leafId :: outside := fun other =>
    (reached.within.plug (tree_leaf found)).2.2.mem_iff
  have ok := sound.leaves leafId leaf standing
  have leafSorted : leaf.keys.Pairwise (· < ·) := sorted.sublist
    ((List.sublist_append_right _ _).trans (List.sublist_append_left _ _))
  obtain ⟨small, large, parts, index, smaller, larger⟩ := KeyComparator.lowerBound_splits (leafSorted.imp le_of_lt) key
  have more : leaf.keys.insertIdx (KeyComparator.lowerBound leaf.keys key) key = small ++ key :: large := by
    rw [parts, ← parts, index, parts, insertIdx_between rfl]
  have inside : KeyComparator.lowerBound leaf.keys key ≤ leaf.keys.length := by
    rw [index, parts, List.length_append]
    omega
  have strict : ∀ item ∈ before ++ leaf.keys ++ after, key ≤ item → key < item := fun item member least =>
    lt_of_le_of_ne least fun same => new (same ▸ member)
  have grown : (before ++ small ++ key :: (large ++ after)).Pairwise (· < ·) := by
    refine pairwise_insert (by simpa only [parts, List.append_assoc] using sorted) (fun other member => ?_)
      fun other member => ?_
    · exact (List.mem_append.mp member).elim (reached.below other) (smaller other)
    · rcases List.mem_append.mp member with member | member
      · exact strict other (by simp [parts, member]) (larger other member)
      · exact strict other (by simp [member]) (reached.above other member)
  have arranged : before ++ (small ++ key :: large) ++ after = before ++ small ++ key :: (large ++ after) := by simp
  have together : before ++ leaf.keys ++ after = before ++ small ++ (large ++ after) := by simp [parts]
  rw [place, Exhausts, run_bind_ok (leaf_found standing)]
  by_cases room : leaf.keyCount < leaf.capacity
  · have absent : leaf.keys[leaf.lowerBound key]? ≠ some key := fun found =>
      new (List.mem_append_left _ (List.mem_append_right _ (List.mem_of_getElem? found)))
    obtain ⟨filled, inserted, filledOk, filledKeys, -⟩ := LeafNode.insert_ok ok valid
      (by rw [← ok.count, ← ok.page.capacity]; exact room) matching absent inside
    obtain ⟨next, changed, ended, -⟩ := onLeaf_becomes sound standing (fun leaf => leaf.insert key value) inserted filledOk
    rw [filledKeys, LeafNode.lowerBound, more] at ended
    have filledFound : next.view leafId = some (.leaf (small ++ key :: large)) := by rw [ended.view, Function.update_self]
    obtain ⟨whole, all, nodes⟩ := (reached.within.frame fun other member => by
      rw [ended.view, Function.update_of_ne (ne_of_mem_of_not_mem member (List.nodup_cons.mp distinct).1)]).plug
        (tree_leaf filledFound)
    refine .inr ⟨next, _, _, together, ?_, grown, ended.sound, ended.config, top, ⟨?_, ?_, ?_⟩, fun balanced => ?_⟩
    · rw [if_pos room, changed]
    · rw [ended.rootId]
      exact whole
    · rw [ended.rootId, nodes.nodup_iff]
      exact distinct
    · rw [ended.rootId, all, inorder_leaf filledFound, arranged]
    · rw [ended.rootId]
      refine balanced.write ended (nodes.mem_iff.mpr List.mem_cons_self)
        (fun other member => nodes.mem_iff.mpr ((known other).mp member)) (fun free => ?_) fun _ _ spared => spared
      have before := balanced.filled _ _ found free
      simp only [HalfFull, parts, List.length_append, List.length_cons] at before ⊢
      omega
  · rw [if_neg room]
    rcases Rebalance.splitAndInsertLeaf_grows sound reached.within distinct standing value inside matching more
      (by rw [arranged]; exact grown) room with failed | ⟨next, ran, grows⟩
    · exact .inl failed
    · rw [arranged] at grows
      obtain ⟨top', shape, keeps⟩ := grows.shape
      exact .inr ⟨next, _, _, together, ran, grown, grows.sound, grows.config, top', shape, fun balanced => keeps
        ⟨balanced.height, fun other stands => (known other).mp (balanced.known other stands), balanced.filled⟩⟩

theorem inserted_silent (silent : tree.walSink = none) (key : Key) (value : PageReference) :
    (inserted key value).run tree = (.ok (), { tree with size := tree.size + 1 }) := by
  rw [inserted, run_bind_ok (run_update _)]
  exact notify_silent (by exact silent) _

theorem insertFirst_grows (sound : tree.Sound) {key : Key} (matching : key.Matches tree.config)
    {value : PageReference} (valid : value.isValid = true) :
    Exhausts (insertFirst key value) tree ∨
    ∃ next, (insertFirst key value).run tree = (.ok (), next) ∧ tree.Grows [key] (∀ id, tree.view id = none) next := by
  rcases allocateLeaf_becomes sound 0 with failed | ⟨leafId, first, allocated, away, grown⟩
  · exact .inl (Exhausts.bind failed)
  have empty : first.view leafId = some (.leaf []) := by rw [grown.view, Function.update_self]
  obtain ⟨leaf, standing, none⟩ := view_leaf.mp empty
  have capacity := matching.capacity .leaf
  have place : leaf.lowerBound key = 0 := by
    rw [LeafNode.lowerBound, none]
    rfl
  obtain ⟨filled, inserted, filledOk, filledKeys, -⟩ :=
    LeafNode.insert_ok (grown.sound.leaves leafId leaf standing) valid
      (by rw [none, grown.config, List.length_nil]; omega) (by rw [grown.config]; exact matching) (by simp [none])
      (by rw [place]; exact Nat.zero_le _)
  obtain ⟨second, changed, ended, -⟩ := onLeaf_becomes grown.sound standing (fun leaf => leaf.insert key value) inserted filledOk
  have heap : second.view = Function.update tree.view leafId (some (.leaf [key])) := by
    rw [ended.view, filledKeys, place, none, grown.view, Function.update_idem]
    rfl
  have found : second.view leafId = some (.leaf [key]) := by rw [heap, Function.update_self]
  refine .inr ⟨{ second with rootId := leafId, height := 1, size := second.size + 1 }, ?_,
    ended.sound.scalars leafId (second.size + 1) 1, ended.config.trans grown.config, 0,
    ⟨tree_leaf found, by simp [ids], inorder_leaf found⟩, fun bare => ?_⟩
  · rw [insertFirst, run_bind_ok allocated, run_bind_ok changed, run_bind_ok (run_update _)]
    exact inserted_silent (by exact ended.sound.silent) key value
  · have only : ∀ other, (second.view other).isSome → other = leafId := by
      intro other stands
      by_contra different
      rw [heap, Function.update_of_ne different, bare] at stands
      cases stands
    refine ⟨rfl, fun other stands => ?_, fun other node stands free => ?_⟩
    · exact List.mem_singleton.mpr (only other stands)
    · exact absurd (only other (by rw [show second.view other = some node from stands]; rfl)) free

/-- Nothing at all, or a balanced tree of these keys. -/
def Packed (tree : BTree ω) (order : List Key) : Prop :=
  (order = [] ∧ ∀ id, tree.view id = none) ∨
    ∃ top, tree.Shape top order ∧ tree.Balanced top (ids tree.view top tree.rootId) (· = tree.rootId)

/-- An insertion of a new key with a valid reference that finds enough pages succeeds. -/
theorem insert_grows {order : List Key} (ordered : tree.Ordered order) {key : Key} (new : key ∉ order)
    (matching : key.Matches tree.config) {value : PageReference} (valid : value.isValid = true) :
    Exhausts (insert key value) tree ∨
    ∃ next front back, order = front ++ back ∧ (insert key value).run tree = (.ok (), next) ∧
      next.config = tree.config ∧ next.Ordered (front ++ key :: back) ∧
      (tree.Packed order → next.Packed (front ++ key :: back)) := by
  rw [insert, if_neg (by simp [valid]), Exhausts, run_bind_ok run_read]
  rcases ordered.standing with ⟨bare, rfl⟩ | ⟨top, shape⟩
  · rw [if_pos (by simp [empty, bare])]
    rcases insertFirst_grows ordered.sound matching valid with failed | ⟨next, ran, grows⟩
    · exact .inl failed
    · obtain ⟨top, shape, keeps⟩ := grows.shape
      refine .inr ⟨next, [], [], rfl, ran, grows.config, ⟨grows.sound, by simp, .inr ⟨top, shape⟩⟩, fun packed => ?_⟩
      rcases packed with ⟨-, nothing⟩ | ⟨top', some, -⟩
      · exact .inr ⟨top, shape, keeps nothing⟩
      · exact absurd bare (some.live ordered.sound)
  · obtain ⟨leafId, path, before, after, outside, walked, reached⟩ := shape.reaches ordered.sound ordered.sorted key
    obtain ⟨leaf, standing, splits, -⟩ := reached.splits shape
    have down := descendForInsert_new ordered.sound standing (shape.live ordered.sound) walked splits new
    rw [if_neg (by simp [empty, shape.live ordered.sound]), run_bind_ok (ofExcept_run down _)]
    rcases place_grows ordered.sound shape ordered.sorted new matching valid reached with
      failed | ⟨next, front, back, apart, placed, sorted, grows⟩
    · exact .inl (Exhausts.bind failed)
    · obtain ⟨top', ⟨whole, distinct, all⟩, keeps⟩ := grows.shape
      refine .inr ⟨{ next with size := next.size + 1 }, front, back, apart, ?_, grows.config,
        ⟨grows.sound.scalars next.rootId (next.size + 1) next.height, sorted, .inr ⟨top', whole, distinct, all⟩⟩, fun packed => ?_⟩
      · rw [run_bind_ok placed, inserted_silent grows.sound.silent]
      · rcases packed with ⟨-, nothing⟩ | ⟨other, same, balanced⟩
        · have stands := shape.grown.stands _ (mem_ids _ _ _)
          rw [nothing] at stands
          cases stands
        · obtain rfl := same.grown.height_unique shape.grown
          obtain ⟨high, known, filled⟩ := keeps balanced
          exact .inr ⟨top', ⟨whole, distinct, all⟩, high, known, filled⟩

end BTree
end Quartz.Btree
