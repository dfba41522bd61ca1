import Mathlib.Algebra.Order.BigOperators.Group.List
import Quartz.Lib.HeapPaths
import Quartz.Proofs.NodeInvariants
import Quartz.Proofs.TreeValidity

/-! Insertions of distinct keys keep the tree balanced and lose no key: every node below the
root is at least half full and lies on one path from the root, all leaves are equally deep,
and the keys of all nodes are the keys that were inserted. -/

namespace Quartz.Btree
open Storage Format TreeM Fallible HeapTree BTree

variable {ω : Type}

namespace BTree

def storedKeys (tree : BTree ω) : List Key :=
  tree.leaves.entries.flatMap (fun entry => entry.2.keys) ++ tree.internals.entries.flatMap fun entry => entry.2.keys

/-- No node holds more keys than fit, and only the root fewer than half of them. -/
def Filled (tree : BTree ω) (id : PageId) (node : BTreeNode) (keys : List Key) : Prop :=
  keys.length ≤ node.capacity ∧ (id ≠ tree.rootId → node.capacity / 2 ≤ keys.length)

/-- A balanced tree that stores these keys, each as often as it is listed. -/
structure Conserves (tree : BTree ω) (inserted : List Key) : Prop where
  leaves : ∀ id leaf, tree.leaves.lookup id = some leaf → tree.Filled id leaf.toBTreeNode leaf.keys
  internals : ∀ id node, tree.internals.lookup id = some node → tree.Filled id node.toBTreeNode node.keys
  paths : ∀ id, id ∈ tree.leaves ∨ id ∈ tree.internals → ∃! path, Path tree.view tree.rootId path id
  depth : ∀ id path, id ∈ tree.leaves → Path tree.view tree.rootId path id → path.length + 1 = tree.height.toNat
  keys : tree.storedKeys.Perm inserted
  size : tree.size.toNat = inserted.length

variable {tree : BTree ω} {top : Nat} {order : List Key}

theorem nodes_perm (sound : tree.Sound) (shape : tree.Shape top order)
    (balanced : tree.Balanced top (ids tree.view top tree.rootId) (· = tree.rootId)) :
    (ids tree.view top tree.rootId).Perm (tree.leaves.keys ++ tree.internals.keys) := by
  have apart : (tree.leaves.keys ++ tree.internals.keys).Nodup := by
    refine List.Nodup.append tree.leaves.keys_nodup tree.internals.keys_nodup fun id inLeaves inInternals => ?_
    exact sound.owned.apart id (AList.mem_keys.mpr inLeaves) (AList.mem_keys.mpr inInternals)
  refine (List.perm_ext_iff_of_nodup shape.distinct apart).mpr fun id => ?_
  rw [List.mem_append, ← AList.mem_keys, ← AList.mem_keys, ← view_isSome]
  exact ⟨shape.grown.stands id, balanced.known id⟩

theorem storedKeys_eq (sound : tree.Sound) :
    tree.storedKeys = (tree.leaves.keys ++ tree.internals.keys).flatMap (nodeKeys tree.view) := by
  rw [List.flatMap_append]
  simp only [AList.keys, List.keys, List.flatMap_map, storedKeys]
  congr 1
  · refine List.flatMap_congr fun entry member => ?_
    have found : tree.leaves.lookup entry.1 = some entry.2 := AList.mem_lookup_iff.mpr member
    simp [nodeKeys, view, found]
  · refine List.flatMap_congr fun entry member => ?_
    have found : tree.internals.lookup entry.1 = some entry.2 := AList.mem_lookup_iff.mpr member
    have noLeaf : tree.leaves.lookup entry.1 = none := AList.lookup_eq_none.mpr fun live =>
      sound.owned.apart entry.1 live (AList.lookup_isSome.mp (by simp [found]))
    simp [nodeKeys, view, noLeaf, found]

theorem Shape.storedKeys_perm (shape : tree.Shape top order) (sound : tree.Sound)
    (balanced : tree.Balanced top (ids tree.view top tree.rootId) (· = tree.rootId)) : tree.storedKeys.Perm order := by
  have nodes := nodes_perm sound shape balanced
  have keys := shape.grown.keys_perm
  rw [shape.order] at keys
  rw [storedKeys_eq sound]
  exact ((nodes.flatMap_right _).symm).trans keys.symm

theorem Sound.nodeKeys_le (sound : tree.Sound) (id : PageId) : (nodeKeys tree.view id).length ≤ 2 ^ 32 := by
  unfold nodeKeys
  split
  next keys found =>
    obtain ⟨leaf, standing, rfl⟩ := view_leaf.mp found
    exact ((sound.leaves id leaf standing).room.trans_lt (computeCapacity_lt _ _)).le
  next keys children found =>
    obtain ⟨-, node, standing, rfl, -⟩ := view_branch.mp found
    exact ((sound.internals id node standing).room.trans_lt (computeCapacity_lt _ _)).le
  next => exact Nat.zero_le _

theorem Shape.order_lt (shape : tree.Shape top order) (sound : tree.Sound) : order.length < 2 ^ 64 := by
  have nodes := sound.owned.live_le shape.distinct fun id member => view_isSome.mp (shape.grown.stands id member)
  have keys := shape.grown.keys_perm.length_eq
  rw [shape.order, List.length_flatMap] at keys
  have total := List.sum_le_card_nsmul ((ids tree.view top tree.rootId).map fun id => (nodeKeys tree.view id).length)
    (2 ^ 32) (by simpa using fun id _ => sound.nodeKeys_le id)
  rw [List.length_map, Nat.nsmul_eq_mul] at total
  have limit : kMaxPageCount.toNat = 1048576 := rfl
  omega

theorem Packed.conserves (packed : tree.Packed order) (sound : tree.Sound)
    (counted : tree.size = UInt64.ofNat order.length) : tree.Conserves order := by
  rcases packed with ⟨rfl, nothing⟩ | ⟨top, shape, balanced⟩
  · have noNode : ∀ id, ¬ (id ∈ tree.leaves ∨ id ∈ tree.internals) := fun id live => by
      simpa [nothing id] using view_isSome.mpr live
    have noLeaf : ∀ id leaf, tree.leaves.lookup id ≠ some leaf := fun id leaf found =>
      noNode id (.inl (AList.lookup_isSome.mp (by simp [found])))
    have noInternal : ∀ id node, tree.internals.lookup id ≠ some node := fun id node found =>
      noNode id (.inr (AList.lookup_isSome.mp (by simp [found])))
    have noKeys : ∀ id, nodeKeys tree.view id = [] := fun id => by simp [nodeKeys, nothing id]
    refine ⟨fun id leaf found => absurd found (noLeaf id leaf), fun id node found => absurd found (noInternal id node),
      fun id live => absurd live (noNode id), fun id path live => absurd (.inl live) (noNode id), ?_, by simp [counted]⟩
    simp [storedKeys_eq sound, noKeys]
  · have fill : ∀ id node, tree.view id = some node → id ≠ tree.rootId → HalfFull tree.config node := balanced.filled
    refine ⟨fun id leaf found => ⟨?_, fun below => ?_⟩, fun id node found => ⟨?_, fun below => ?_⟩, fun id live => ?_,
      fun id path live way => ?_, shape.storedKeys_perm sound balanced, ?_⟩
    · have ok := sound.leaves id leaf found
      exact ok.page.capacity ▸ ok.room
    · have ok := sound.leaves id leaf found
      exact ok.page.capacity ▸ fill id _ (view_leaf.mpr ⟨leaf, found, rfl⟩) below
    · have ok := sound.internals id node found
      exact ok.page.capacity ▸ ok.room
    · have ok := sound.internals id node found
      have noLeaf : id ∉ tree.leaves := fun live => sound.owned.apart id live (AList.lookup_isSome.mp (by simp [found]))
      exact ok.page.capacity ▸ fill id _ (view_branch.mpr ⟨noLeaf, node, found, rfl, rfl⟩) below
    · obtain ⟨path, way⟩ := shape.grown.path_of_mem (balanced.known id (view_isSome.mpr live))
      exact ⟨path, way, fun other again => again.unique way shape.grown shape.distinct⟩
    · obtain ⟨leaf, found⟩ := Option.isSome_iff_exists.mp (AList.lookup_isSome.mpr live)
      rw [way.length_leaf shape.grown (view_leaf.mpr ⟨leaf, found, rfl⟩), balanced.height]
      have low := height_le shape.grown
      have few := sound.owned.live_le tree.internals.keys_nodup fun other member => .inr (AList.mem_keys.mpr member)
      have limit : kMaxPageCount.toNat = 1048576 := rfl
      exact (UInt32.toNat_ofNat_of_lt' (by rw [UInt32.size]; omega)).symm
    · rw [counted]
      exact UInt64.toNat_ofNat_of_lt' (shape.order_lt sound)

variable [BTreeWalSink ω]

theorem insert_size {after : BTree ω} {key : Key} {value : PageReference}
    (done : (insert key value).run tree = (.ok (), after)) : after.size = tree.size + 1 := by
  rw [insert_eq] at done
  obtain ⟨_, middle, settled, counted⟩ := bind_ok done
  have same : ((settle key value).run tree).2.size = tree.size := ((size_rules tree.size).settle trivial value).run rfl
  rw [settled] at same
  have noted : Keeps (fun tree : BTree ω => tree.size = middle.size + 1) (notify (.insert key value)) := notify_size _ _
  have last := noted.run (show ({ middle with size := middle.size + 1 } : BTree ω).size = middle.size + 1 from rfl)
  rw [inserted, run_bind_ok (run_update _)] at counted
  rw [counted] at last
  exact last.trans (congrArg (· + 1) same)

end BTree

namespace TreeCall

variable [BTreeWalSink ω] {tree : BTree ω} {order : List Key}

def insertions (entries : List (Key × PageReference)) : List TreeCall :=
  entries.map fun entry => .insert entry.1 entry.2

/-- The keys that come with a valid reference; the others are refused. -/
def accepted (entries : List (Key × PageReference)) : List Key :=
  (entries.filter fun entry => entry.2.isValid).map Prod.fst

/-- One insertion of a new key. -/
theorem insertion_packs (ordered : tree.Ordered order) (packed : tree.Packed order)
    (counted : tree.size = UInt64.ofNat order.length) {entry : Key × PageReference} (new : entry.1 ∉ order)
    (matching : entry.1.Matches tree.config) (pages : ¬ Exhausts (BTree.insert entry.1 entry.2) tree) :
    ∃ order', (step tree (.insert entry.1 entry.2)).config = tree.config ∧
      (step tree (.insert entry.1 entry.2)).Ordered order' ∧ (step tree (.insert entry.1 entry.2)).Packed order' ∧
      (step tree (.insert entry.1 entry.2)).size = UInt64.ofNat order'.length ∧
      order'.Perm (order ++ accepted [entry]) := by
  by_cases valid : entry.2.isValid = true
  · obtain ⟨next, front, back, rfl, ran, config, after, packs⟩ :=
      (insert_grows ordered new matching valid).resolve_left pages
    have stepped : step tree (.insert entry.1 entry.2) = next := congrArg Prod.snd ran
    rw [stepped]
    refine ⟨front ++ entry.1 :: back, config, after, packs packed, ?_, ?_⟩
    · rw [insert_size ran, counted, List.length_append, List.length_append, List.length_cons, ← Nat.add_assoc, UInt64.ofNat_add _ 1]
      rfl
    · have kept : accepted [entry] = [entry.1] := by simp [accepted, valid]
      rw [kept]
      exact List.perm_middle.trans (List.perm_append_singleton _ _).symm
  · have refused : step tree (.insert entry.1 entry.2) = tree := by
      rw [step, perform, BTree.insert, if_pos (by simp [valid])]
      rfl
    have dropped : accepted [entry] = [] := by simp [accepted, valid]
    rw [refused, dropped, List.append_nil]
    exact ⟨order, rfl, ordered, packed, counted, List.Perm.refl _⟩

/-- The run lemma, from any balanced tree that holds none of the keys. -/
theorem insertions_pack {entries : List (Key × PageReference)} (ordered : tree.Ordered order)
    (packed : tree.Packed order) (counted : tree.size = UInt64.ofNat order.length)
    (matching : ∀ entry ∈ entries, entry.1.Matches tree.config) (new : ∀ entry ∈ entries, entry.1 ∉ order)
    (once : (entries.map Prod.fst).Nodup)
    (pages : Runs.AtEachStep step (fun tree call => ¬ Exhausts call.perform tree) tree (insertions entries)) :
    (Runs.after step tree (insertions entries)).Conserves (order ++ accepted entries) := by
  induction entries generalizing tree order with
  | nil => simpa [insertions, accepted] using packed.conserves ordered.sound counted
  | cons entry rest ih =>
    obtain ⟨now, later⟩ := Runs.atEachStep_cons.mp pages
    obtain ⟨fresh, once⟩ := List.nodup_cons.mp once
    obtain ⟨order', config, after, packs, counts, perm⟩ := insertion_packs ordered packed counted
      (new entry List.mem_cons_self) (matching entry List.mem_cons_self) now
    have conserved := ih after packs counts (by rw [config]; exact fun other member => matching other (List.mem_cons_of_mem _ member))
      (fun other member inside => ?_) once later
    · have parts : accepted (entry :: rest) = accepted [entry] ++ accepted rest := by
        simp [accepted, ← List.filter_append, ← List.map_append]
      have same : (order' ++ accepted rest).Perm (order ++ accepted (entry :: rest)) := by
        rw [parts, ← List.append_assoc]
        exact perm.append_right _
      exact { conserved with keys := conserved.keys.trans same, size := conserved.size.trans same.length_eq }
    · -- the keys of the new order are the old ones and this entry's
      rcases List.mem_append.mp (perm.subset inside) with old | same
      · exact new other (List.mem_cons_of_mem _ member) old
      · have key : other.1 = entry.1 := by
          simp only [accepted, List.mem_map, List.mem_filter, List.mem_singleton] at same
          obtain ⟨_, ⟨rfl, -⟩, same⟩ := same
          exact same.symm
        exact fresh (key ▸ List.mem_map_of_mem member)

/-- After each of a run of insertions of distinct keys the tree is balanced and stores the keys
inserted so far. -/
theorem insertions_conserve (space : Space.SpaceManager) (sound : space.pageAllocator.Sound) (config : BTreeNodeConfig)
    (entries : List (Key × PageReference)) (matching : ∀ entry ∈ entries, entry.1.Matches config)
    (once : (entries.map Prod.fst).Nodup)
    (pages : Runs.AtEachStep step (fun tree call => ¬ Exhausts call.perform tree) (BTree.create space config : BTree ω)
      (insertions entries)) (done : List (Key × PageReference)) (inside : done <+: entries) :
    (Runs.after step (BTree.create space config : BTree ω) (insertions done)).Conserves (accepted done) := by
  obtain ⟨rest, rfl⟩ := inside
  have start : (BTree.create space config : BTree ω).Packed [] := .inl ⟨rfl, fun id => rfl⟩
  have early := fun first next (within : first ++ [next] <+: insertions done) =>
    pages first next (within.trans (by rw [insertions, insertions, List.map_append]; exact List.prefix_append _ _))
  rw [List.map_append] at once
  exact insertions_pack (ordered_create sound config) start rfl
    (fun entry member => matching entry (List.mem_append_left _ member)) (by simp) once.of_append_left early

/-- A leaf is split, and of the last entry the reference is refused. -/
theorem insertions_conserve_split :
    (Runs.after step (BTree.create (Space.SpaceManager.withPolicy .firstFit) { keyType := .binary, binaryKeySize := 256 } : BTree Empty)
      (insertions (wideEntries ++ [(wideKey 15, .invalid)]))).Conserves (wideEntries.map Prod.fst) := by
  refine insertions_conserve _ PageAllocator.sound_new _ (wideEntries ++ [(wideKey 15, .invalid)]) (fun entry member => ?_)
    (by decide +kernel) (by decide +kernel) _ (List.prefix_refl _)
  rcases List.mem_append.mp member with inside | last
  · obtain ⟨byte, -, rfl⟩ := List.mem_map.mp inside
    exact wideKey_matches _
  · obtain rfl := List.mem_singleton.mp last
    exact wideKey_matches 15

end TreeCall
end Quartz.Btree
