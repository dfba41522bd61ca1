import Quartz.Lib.Runs
import Quartz.Proofs.NodePages

/-! Which nodes come back from their pages. An operation that is accepted writes whatever keys the
node then holds, and a load stops at the first binary key that does not have the size of the
configuration. -/

namespace Quartz.Btree
open Storage Serialization Format Pages

/-- The node that is loaded from the page has the keys and the references of the leaf. -/
def LeafNode.Reloads (leaf : LeafNode) : Prop :=
  (fromPage leaf.page).keyCount = leaf.keyCount ∧ (fromPage leaf.page).keys = leaf.keys ∧
    (fromPage leaf.page).refs = leaf.refs

def InternalNode.Reloads (node : InternalNode) : Prop :=
  (fromPage node.page).keyCount = node.keyCount ∧ (fromPage node.page).keys = node.keys ∧
    (fromPage node.page).children = node.children

namespace LeafNode

variable {config : BTreeNodeConfig} {leaf : LeafNode} {keys : List Key} {refs : List PageReference}

/-- A leaf that was made under the configuration, with whatever keys. -/
structure Shaped (config : BTreeNodeConfig) (leaf : LeafNode) : Prop where
  made : leaf.config = config
  capacity : leaf.capacity = computeCapacity config .leaf
  count : leaf.keyCount = leaf.keys.length
  room : leaf.keys.length ≤ computeCapacity config .leaf
  refs : leaf.refs.length = leaf.keys.length

theorem shaped_create (pageId : PageId) (config : BTreeNodeConfig) : (create pageId config).Shaped config :=
  ⟨rfl, rfl, rfl, Nat.zero_le _, rfl⟩

/-- What is accepted is written. -/
theorem Shaped.setEntries (shaped : leaf.Shaped config) (same : refs.length = keys.length)
    (room : keys.length ≤ computeCapacity config .leaf) (done : (leaf.setEntries keys refs).1.ok = true) :
    (leaf.setEntries keys refs).2.Shaped config ∧
      (leaf.setEntries keys refs).2.Holds (leaf.setEntries keys refs).2.entryBytes ∧
      (leaf.setEntries keys refs).2.keys = keys := by
  rcases leaf.setEntries_cases keys refs with ⟨fits, stored⟩ | ⟨-, refused⟩
  · have small := Nat.lt_of_le_of_lt room (computeCapacity_lt config .leaf)
    rw [stored]
    exact ⟨⟨shaped.made, shaped.capacity, Nat.mod_eq_of_lt small, room, same⟩, BTreeNode.holds_stored _ _ fits, rfl⟩
  · rw [refused] at done
    cases done

theorem Shaped.step (shaped : leaf.Shaped config) {call : LeafCall} (done : (call.perform leaf).1.ok = true) :
    (call.step leaf).Shaped config ∧ (call.step leaf).Holds (call.step leaf).entryBytes ∧
      ∀ key ∈ (call.step leaf).keys, key ∈ leaf.keys ∨ key ∈ call.keys := by
  have capacity := shaped.capacity
  rcases perform_cases shaped.count shaped.refs (capacity ▸ shaped.room) call with
    ⟨text, refused⟩ | ⟨keys, refs, sets, same, room, known⟩
  · rw [refused] at done
    cases done
  · rw [sets] at done
    rw [LeafCall.step, sets]
    obtain ⟨after, holds, held⟩ := shaped.setEntries same (capacity ▸ room) done
    exact ⟨after, holds, by rw [held]; exact known⟩

theorem Shaped.reloads_iff (shaped : leaf.Shaped config) (holds : leaf.Holds leaf.entryBytes) :
    leaf.Reloads ↔ ∀ key ∈ leaf.keys, key.sized config.binaryKeySize = true := by
  rw [← takeWhile_zip_iff shaped.refs, Reloads, fromPage_holds holds shaped.count shaped.refs, shaped.made]
  exact and_iff_right rfl

/-- The leaf stands in its page after accepted calls, with keys that they brought. -/
theorem written_after (config : BTreeNodeConfig) (pageId : PageId) {known : Key → Prop} {calls : List LeafCall}
    (some : calls ≠ []) (brought : ∀ call ∈ calls, ∀ key ∈ call.keys, known key)
    (accepted : Runs.AtEachStep LeafCall.step (fun leaf call => (call.perform leaf).1.ok = true) (create pageId config) calls) :
    let leaf := Runs.after LeafCall.step (create pageId config) calls
    leaf.Shaped config ∧ leaf.Holds leaf.entryBytes ∧ ∀ key ∈ leaf.keys, known key :=
  Runs.after_accepted (fun leaf => leaf.Holds leaf.entryBytes) (·.keys) (fun _ _ shaped done => shaped.step done) some
    (shaped_create pageId config) rfl brought accepted

end LeafNode

namespace InternalNode

variable {config : BTreeNodeConfig} {node : InternalNode} {keys : List Key} {children : List PageReference}

/-- An internal node that was made under the configuration, with whatever keys. -/
structure Shaped (config : BTreeNodeConfig) (node : InternalNode) : Prop where
  made : node.config = config
  capacity : node.capacity = computeCapacity config .internal
  count : node.keyCount = node.keys.length
  room : node.keys.length ≤ computeCapacity config .internal
  children : node.children.length = node.keys.length + 1

theorem shaped_create (pageId : PageId) (config : BTreeNodeConfig) : (create pageId config).Shaped config :=
  ⟨rfl, rfl, rfl, Nat.zero_le _, rfl⟩

theorem Shaped.setEntries (shaped : node.Shaped config) (same : children.length = keys.length + 1)
    (room : keys.length ≤ computeCapacity config .internal) (done : (node.setEntries keys children).1.ok = true) :
    (node.setEntries keys children).2.Shaped config ∧
      (node.setEntries keys children).2.Holds (node.setEntries keys children).2.entryBytes ∧
      (node.setEntries keys children).2.keys = keys := by
  rcases node.setEntries_cases keys children with ⟨fits, stored⟩ | ⟨-, refused⟩
  · have small := Nat.lt_of_le_of_lt room (computeCapacity_lt config .internal)
    rw [stored]
    exact ⟨⟨shaped.made, shaped.capacity, Nat.mod_eq_of_lt small, room, same⟩, BTreeNode.holds_stored _ _ fits, rfl⟩
  · rw [refused] at done
    cases done

theorem Shaped.step (shaped : node.Shaped config) {call : InternalCall} (done : (call.perform node).1.ok = true) :
    (call.step node).Shaped config ∧ (call.step node).Holds (call.step node).entryBytes ∧
      ∀ key ∈ (call.step node).keys, key ∈ node.keys ∨ key ∈ call.keys := by
  have capacity := shaped.capacity
  rcases perform_cases shaped.count shaped.children capacity (capacity ▸ shaped.room) call with
    ⟨text, refused⟩ | ⟨keys, children, sets, same, room, known⟩
  · rw [refused] at done
    cases done
  · rw [sets] at done
    rw [InternalCall.step, sets]
    obtain ⟨after, holds, held⟩ := shaped.setEntries same (capacity ▸ room) done
    exact ⟨after, holds, by rw [held]; exact known⟩

theorem Shaped.reloads_iff (shaped : node.Shaped config) (holds : node.Holds node.entryBytes) :
    node.Reloads ↔ ∀ key ∈ node.keys, key.sized config.binaryKeySize = true := by
  obtain ⟨first, others, below⟩ := List.exists_cons_of_length_eq_add_one shaped.children
  have length : others.length = node.keys.length := by simpa [below] using shaped.children
  rw [← takeWhile_zip_iff length, Reloads, fromPage_holds holds shaped.count below length, shaped.made, below, List.cons_inj_right]
  exact and_iff_right rfl

theorem written_after (config : BTreeNodeConfig) (pageId : PageId) {known : Key → Prop} {calls : List InternalCall}
    (some : calls ≠ []) (brought : ∀ call ∈ calls, ∀ key ∈ call.keys, known key)
    (accepted : Runs.AtEachStep InternalCall.step (fun node call => (call.perform node).1.ok = true) (create pageId config) calls) :
    let node := Runs.after InternalCall.step (create pageId config) calls
    node.Shaped config ∧ node.Holds node.entryBytes ∧ ∀ key ∈ node.keys, known key :=
  Runs.after_accepted (fun node => node.Holds node.entryBytes) (·.keys) (fun _ _ shaped done => shaped.step done) some
    (shaped_create pageId config) rfl brought accepted

end InternalNode

/-- After accepted calls, at least one, a node comes back from its page exactly when the binary keys
it holds have the size of the configuration. Calls that bring no other keys lead to such nodes only. -/
theorem accepted_nodes_reload_iff (config : BTreeNodeConfig) (pageId : PageId) :
    (∀ calls : List LeafCall, calls ≠ [] →
      Runs.AtEachStep LeafCall.step (fun leaf call => (call.perform leaf).1.ok = true) (LeafNode.create pageId config) calls →
      ((Runs.after LeafCall.step (LeafNode.create pageId config) calls).Reloads ↔
        ∀ key ∈ (Runs.after LeafCall.step (LeafNode.create pageId config) calls).keys,
          key.sized config.binaryKeySize = true) ∧
      ((∀ call ∈ calls, ∀ key ∈ call.keys, key.sized config.binaryKeySize = true) →
        (Runs.after LeafCall.step (LeafNode.create pageId config) calls).Reloads)) ∧
    ∀ calls : List InternalCall, calls ≠ [] →
      Runs.AtEachStep InternalCall.step (fun node call => (call.perform node).1.ok = true)
        (InternalNode.create pageId config) calls →
      ((Runs.after InternalCall.step (InternalNode.create pageId config) calls).Reloads ↔
        ∀ key ∈ (Runs.after InternalCall.step (InternalNode.create pageId config) calls).keys,
          key.sized config.binaryKeySize = true) ∧
      ((∀ call ∈ calls, ∀ key ∈ call.keys, key.sized config.binaryKeySize = true) →
        (Runs.after InternalCall.step (InternalNode.create pageId config) calls).Reloads) := by
  refine ⟨fun calls some accepted => ?_, fun calls some accepted => ?_⟩
  · obtain ⟨shaped, holds, -⟩ := LeafNode.written_after config pageId some (fun _ _ _ _ => trivial) accepted
    have sizes := shaped.reloads_iff holds
    exact ⟨sizes, fun sized => sizes.mpr (LeafNode.written_after config pageId some sized accepted).2.2⟩
  · obtain ⟨shaped, holds, -⟩ := InternalNode.written_after config pageId some (fun _ _ _ _ => trivial) accepted
    have sizes := shaped.reloads_iff holds
    exact ⟨sizes, fun sized => sizes.mpr (InternalNode.written_after config pageId some sized accepted).2.2⟩

theorem accepted_nodes_reload_pair :
    (Runs.after LeafCall.step (LeafNode.create 5 { keyType := .binary, binaryKeySize := 2 })
        [.insert (.binary [7, 1] (by decide)) (.make 8 1 0)]).Reloads ∧
      (Runs.after InternalCall.step (InternalNode.create 5 { keyType := .binary, binaryKeySize := 2 })
        [.assignEntries [.binary [7, 1] (by decide)] [.make 8 1 0, .make 9 1 0]]).Reloads :=
  ⟨((accepted_nodes_reload_iff { keyType := .binary, binaryKeySize := 2 } 5).1
      [.insert (.binary [7, 1] (by decide)) (.make 8 1 0)] (by decide) (by decide +kernel)).2 (by decide),
    ((accepted_nodes_reload_iff { keyType := .binary, binaryKeySize := 2 } 5).2
      [.assignEntries [.binary [7, 1] (by decide)] [.make 8 1 0, .make 9 1 0]] (by decide) (by decide +kernel)).2 (by decide)⟩

/-- A key of one byte is accepted where two are configured, and is lost in the page. -/
theorem short_key_is_accepted :
    Runs.AtEachStep LeafCall.step (fun leaf call => (call.perform leaf).1.ok = true)
        (LeafNode.create 5 { keyType := .binary, binaryKeySize := 2 }) [.insert (.binary [7] (by decide)) (.make 8 1 0)] ∧
      ¬ (Runs.after LeafCall.step (LeafNode.create 5 { keyType := .binary, binaryKeySize := 2 })
        [.insert (.binary [7] (by decide)) (.make 8 1 0)]).Reloads := by
  have accepted : Runs.AtEachStep LeafCall.step (fun leaf call => (call.perform leaf).1.ok = true)
      (LeafNode.create 5 { keyType := .binary, binaryKeySize := 2 })
      [.insert (.binary [7] (by decide)) (.make 8 1 0)] := by decide +kernel
  obtain ⟨shaped, holds, -⟩ := LeafNode.written_after _ 5 (List.cons_ne_nil _ _) (fun _ _ _ _ => trivial) accepted
  refine ⟨accepted, fun reloads => ?_⟩
  have sized := (shaped.reloads_iff holds).mp reloads
  exact absurd (sized (.binary [7] (by decide)) (by decide +kernel)) (by decide)

end Quartz.Btree
