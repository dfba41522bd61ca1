import Quartz.Btree.BTree

/-! Cursors: positions in one node or in a whole tree. There is no chain of leaves, so a step
across the edge of a leaf looks for the leaf from the root. -/

namespace Quartz.Btree
open Storage Format

inductive CursorMode (ω : Type) where
  | none
  | leaf (node : LeafNode)
  | internal (node : InternalNode)
  | tree (tree : BTree ω)

structure Cursor (ω : Type) where
  mode : CursorMode ω := .none
  leafId : PageId := kInvalidPageId
  index : Nat := 0
  atEnd : Bool := false

abbrev CursorM (ω : Type) := Fallible (Cursor ω) Failure

namespace BTree

variable {ω : Type}

/-- The walk down along one side. A walk that is longer than there are internal nodes never ends. -/
def edge (tree : BTree ω) (side : InternalNode → Nat) : Nat → PageId → Except Failure PageId
  | 0, _ => .error .diverges
  | fuel + 1, id =>
    match tree.internals.lookup id with
    | none => .ok id
    | some node =>
      match node.children[side node]? with
      | none => .error .outOfRange
      | some child => edge tree side fuel child.pageId

def leftmost (tree : BTree ω) (id : PageId) : Except Failure PageId :=
  tree.edge (fun _ => 0) (tree.internals.keys.length + 1) id

def rightmost (tree : BTree ω) (id : PageId) : Except Failure PageId :=
  tree.edge (·.keyCount) (tree.internals.keys.length + 1) id

/-- The place of a page among the children of a node, or zero. -/
def childIndex (node : InternalNode) (id : PageId) : Nat → Nat → Except Failure Nat
  | 0, _ => .ok 0
  | remaining + 1, place =>
    match node.children[place]? with
    | none => .error .outOfRange
    | some child => if child.pageId = id then .ok place else childIndex node id remaining (place + 1)

/-- The path above a leaf. The loop that builds it jumps to the leaf after its first round, so
only the root is ever searched. -/
def pathToLeaf (tree : BTree ω) (leafId : PageId) : Except Failure (List SearchPathEntry) :=
  if tree.rootId = leafId then .ok []
  else
    match tree.internals.lookup tree.rootId with
    | none => .error (.status (Status.invalidArgument "Cursor: leaf not reachable"))
    | some node =>
      match childIndex node leafId (node.keyCount + 1) 0 with
      | .error failure => .error failure
      | .ok index => .ok [⟨tree.rootId, index⟩]

def leafAfter (tree : BTree ω) : List SearchPathEntry → Except Failure (Option PageId)
  | [] => .ok none
  | frame :: rest =>
    match tree.internals.lookup frame.pageId with
    | none => .error .outOfRange
    | some parent =>
      if frame.childIndex + 1 ≤ parent.keyCount then
        match parent.children[frame.childIndex + 1]? with
        | none => .error .outOfRange
        | some child => (tree.leftmost child.pageId).map some
      else leafAfter tree rest

def leafBefore (tree : BTree ω) : List SearchPathEntry → Except Failure (Option PageId)
  | [] => .ok none
  | frame :: rest =>
    if frame.childIndex > 0 then
      match tree.internals.lookup frame.pageId with
      | none => .error .outOfRange
      | some parent =>
        match parent.children[frame.childIndex - 1]? with
        | none => .error .outOfRange
        | some child => (tree.rightmost child.pageId).map some
    else leafBefore tree rest

end BTree

namespace Cursor

variable {ω : Type}

def valid (cursor : Cursor ω) : Bool :=
  match cursor.mode with
  | .tree tree => !cursor.atEnd && (tree.leaves.lookup cursor.leafId).any fun leaf => cursor.index < leaf.keyCount
  | .leaf node => cursor.index < node.keys.length
  | .internal node => cursor.index < node.keys.length
  | .none => false

def isEnd (cursor : Cursor ω) : Bool :=
  match cursor.mode with
  | .tree _ => cursor.atEnd
  | _ => !cursor.valid

def bindTree (tree : BTree ω) (atEnd : Bool) : Cursor ω := { mode := .tree tree, atEnd := atEnd }

def refuse {α : Type} (message : String) : CursorM ω α := Fallible.fail (.status (Status.invalidArgument message))

/-- A failing move that leaves the cursor at the end. -/
def stop (message : String) : CursorM ω Unit := do
  Fallible.update fun cursor => { cursor with atEnd := true }
  refuse message

def ofExcept {α : Type} : Except Failure α → CursorM ω α
  | .ok value => pure value
  | .error failure => Fallible.fail failure

def standAtLast (tree : BTree ω) (id : PageId) : CursorM ω Unit := do
  Fallible.update fun cursor => { cursor with leafId := id }
  match tree.leaves.lookup id with
  | none => Fallible.fail .outOfRange
  | some leaf => Fallible.update fun cursor => { cursor with index := leaf.keyCount - 1, atEnd := false }

def seekBegin : CursorM ω Unit := do
  match (← Fallible.read).mode with
  | .tree tree =>
    if tree.empty then Fallible.update fun cursor => { cursor with atEnd := true }
    else
      let id ← ofExcept (tree.leftmost tree.rootId)
      Fallible.update fun cursor => { cursor with leafId := id, index := 0, atEnd := false }
  | _ => refuse "Cursor: tree not bound"

def advanceToNextLeaf : CursorM ω Unit := do
  let cursor ← Fallible.read
  match cursor.mode with
  | .tree tree =>
    if tree.empty then stop "Cursor: cannot advance"
    else
      match tree.pathToLeaf cursor.leafId with
      | .error (.status _) => stop "Cursor: leaf not reachable"
      | .error failure => Fallible.fail failure
      | .ok path =>
        match ← ofExcept (tree.leafAfter path) with
        | none => stop "Cursor: end of tree"
        | some id => Fallible.update fun cursor => { cursor with leafId := id, index := 0, atEnd := false }
  | _ => stop "Cursor: cannot advance"

def retreatToPreviousLeaf : CursorM ω Unit := do
  let cursor ← Fallible.read
  match cursor.mode with
  | .tree tree =>
    if tree.empty then refuse "Cursor: cannot retreat"
    else
      let path ← ofExcept (tree.pathToLeaf cursor.leafId)
      match ← ofExcept (tree.leafBefore path) with
      | none => refuse "Cursor: beginning of tree"
      | some id => standAtLast tree id
  | _ => refuse "Cursor: cannot retreat"

def next : CursorM ω Unit := do
  let cursor ← Fallible.read
  match cursor.mode with
  | .tree tree =>
    if cursor.atEnd then refuse "Cursor: end of tree"
    else
      match tree.leaves.lookup cursor.leafId with
      | none => Fallible.fail .outOfRange
      | some leaf =>
        if cursor.index + 1 < leaf.keyCount then Fallible.update fun cursor => { cursor with index := cursor.index + 1 }
        else advanceToNextLeaf
  | _ =>
    if !cursor.valid then refuse "Cursor: invalid position"
    else
      Fallible.update fun cursor => { cursor with index := cursor.index + 1 }
      if !(← Fallible.read).valid then refuse "Cursor: end of node"

def previous : CursorM ω Unit := do
  let cursor ← Fallible.read
  match cursor.mode with
  | .tree tree =>
    if cursor.atEnd then
      if tree.empty then refuse "Cursor: empty tree"
      else
        let id ← ofExcept (tree.rightmost tree.rootId)
        standAtLast tree id
    else if cursor.index > 0 then Fallible.update fun cursor => { cursor with index := cursor.index - 1 }
    else retreatToPreviousLeaf
  | .none => refuse "Cursor: not bound to a node"
  | _ =>
    if cursor.index = 0 then refuse "Cursor: beginning of node"
    else Fallible.update fun cursor => { cursor with index := cursor.index - 1 }

/-- The key of a cursor that is not bound. -/
def scratchKey : Key := .uint32 0

/-- Under a tree the index is not checked. -/
def currentKey (cursor : Cursor ω) : Except Failure Key :=
  match cursor.mode with
  | .tree tree =>
    match if cursor.atEnd then none else tree.leaves.lookup cursor.leafId with
    | none => .ok scratchKey
    | some leaf => (leaf.keys[cursor.index]?.map .ok).getD (.error .outOfRange)
  | .leaf node => .ok (node.keys[cursor.index]?.getD scratchKey)
  | .internal node => .ok (node.keys[cursor.index]?.getD scratchKey)
  | .none => .ok scratchKey

def currentReference (cursor : Cursor ω) : Except Failure PageReference :=
  match cursor.mode with
  | .tree tree =>
    match if cursor.atEnd then none else tree.leaves.lookup cursor.leafId with
    | none => .ok .invalid
    | some leaf => (leaf.refs[cursor.index]?.map .ok).getD (.error .outOfRange)
  | .leaf node => .ok (node.refs[cursor.index]?.getD .invalid)
  | .internal node => (node.children[cursor.index + 1]?.map .ok).getD (.error .outOfRange)
  | .none => .ok .invalid

end Cursor

namespace BTree

variable {ω : Type}

/-- The status of `seekBegin` is dropped. -/
def beginCursor (tree : BTree ω) : Cursor ω := (Cursor.seekBegin.run (Cursor.bindTree tree false)).2

def endCursor (tree : BTree ω) : Cursor ω := Cursor.bindTree tree true

/-- Stands at a place in a leaf, or at the start of the next leaf when the place is behind its entries. -/
def standAt (tree : BTree ω) (id : PageId) (place : LeafNode → Nat) : CursorM ω Unit := do
  match tree.leaves.lookup id with
  | none => Fallible.fail .outOfRange
  | some leaf =>
    Fallible.update fun cursor => { cursor with leafId := id, index := place leaf }
    if place leaf ≥ leaf.keyCount then Cursor.advanceToNextLeaf else pure ()

/-- The search for a bound of a key: the descent, then a place in the leaf it ends in. -/
def bound (tree : BTree ω) (key : Key) (place : LeafNode → Nat → Nat) : CursorM ω Unit := do
  Fallible.update fun _ => Cursor.bindTree tree tree.empty
  if tree.empty then pure ()
  else
    let found ← Cursor.ofExcept (tree.descendToLeaf key false)
    tree.standAt found.1 (place · found.2.1)

def lowerBound (tree : BTree ω) (key : Key) : CursorM ω Unit := tree.bound key fun _ index => index

def upperBound (tree : BTree ω) (key : Key) : CursorM ω Unit := tree.bound key fun leaf _ => leaf.upperBound key

end BTree
end Quartz.Btree
