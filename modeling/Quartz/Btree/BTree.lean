import Mathlib.Data.List.AList
import Quartz.Btree.InternalNode
import Quartz.Lib.Fallible
import Quartz.Space.SpaceManager

/-! The tree: its nodes by page id, the pages they own, the sink that hears of every change,
and the descent to a leaf. -/

namespace Quartz.Btree
open Storage Format Space

/-- What a tree tells its sink. -/
inductive TreeEvent where
  | insert (key : Key) (value : PageReference)
  | erase (key : Key)
  | pageAllocate (pageId : PageId)
  | pageDeallocate (pageId : PageId)
  | nodeSplit (leftId rightId : PageId) (promoted : Key)
  | nodeMerge (survivorId removedId : PageId)
  deriving DecidableEq, Repr

/-- The events that are not about a key of the client. -/
def TreeEvent.structural : TreeEvent → Bool
  | .insert _ _ => false
  | .erase _ => false
  | _ => true

/-- The abstract sink: it answers every event with a status. -/
class BTreeWalSink (ω : Type) where
  notify : ω → TreeEvent → Status × ω

/-- A tree that is never given a sink. -/
instance : BTreeWalSink Empty where
  notify sink := sink.elim

/-- `reissued` is a ghost: the ids that were handed out while a node already had them. -/
structure BTree (ω : Type) where
  space : SpaceManager
  config : BTreeNodeConfig := {}
  rootId : PageId := kInvalidPageId
  size : UInt64 := 0
  height : UInt32 := 0
  walSink : Option ω := none
  leaves : AList (fun _ : PageId => LeafNode) := ∅
  internals : AList (fun _ : PageId => InternalNode) := ∅
  reissued : List PageId := []

/-- How a call ends when it does not succeed: a status, an exception of `at`, or not at all. -/
inductive Failure where
  | status (status : Status)
  | outOfRange
  | diverges
  deriving DecidableEq, Repr

abbrev TreeM (ω : Type) := Fallible (BTree ω) Failure

/-- A frame of the search path. The path is a list with its top in front. -/
structure SearchPathEntry where
  pageId : PageId
  childIndex : Nat
  deriving DecidableEq, Repr

namespace BTree

variable {ω : Type}

def empty (tree : BTree ω) : Bool := tree.rootId == kInvalidPageId

def isLive (tree : BTree ω) (id : PageId) : Bool := id ∈ tree.leaves || id ∈ tree.internals

def makeIndexRef (id : PageId) : PageReference := PageReference.make id 1 6

/-- The walk down from a page. A walk that is longer than there are internal nodes comes
back to one of them and never ends. -/
def descend (tree : BTree ω) (key : Key) :
    Nat → PageId → List SearchPathEntry → Except Failure (PageId × List SearchPathEntry)
  | 0, _, _ => .error .diverges
  | fuel + 1, current, path =>
    if current ∈ tree.leaves then .ok (current, path)
    else
      match tree.internals.lookup current with
      | none => .error .outOfRange
      | some node =>
        match node.children[node.lowerBound key]? with
        | none => .error .outOfRange
        | some child =>
          if !child.isValid then .error (.status (Status.corruption "BTree: invalid child reference"))
          else descend tree key fuel child.pageId (⟨current, node.lowerBound key⟩ :: path)

/-- The leaf on the way to the key, the index in it and the path above it. -/
def descendToLeaf (tree : BTree ω) (key : Key) (exactMatch : Bool) :
    Except Failure (PageId × Nat × List SearchPathEntry) :=
  if tree.empty then .error (.status (Status.invalidArgument "BTree: tree is empty"))
  else
    match tree.descend key (tree.internals.keys.length + 1) tree.rootId [] with
    | .error failure => .error failure
    | .ok (leafId, path) =>
      match tree.leaves.lookup leafId with
      | none => .error .outOfRange
      | some leaf =>
        if exactMatch then
          if leaf.find key ≥ leaf.keyCount then .error (.status (Status.invalidArgument "BTree: key not found"))
          else
            match leaf.keys[leaf.find key]? with
            | none => .error .outOfRange
            | some found =>
              if !KeyComparator.equal found key then .error (.status (Status.invalidArgument "BTree: key not found"))
              else .ok (leafId, leaf.find key, path)
        else .ok (leafId, leaf.lowerBound key, path)

def descendForInsert (tree : BTree ω) (key : Key) : Except Failure (PageId × Nat × List SearchPathEntry) :=
  match tree.descendToLeaf key false with
  | .error failure => .error failure
  | .ok (leafId, index, path) =>
    match tree.leaves.lookup leafId with
    | none => .error .outOfRange
    | some leaf =>
      if !tree.config.allowDuplicates && index < leaf.keyCount then
        match leaf.keys[index]? with
        | none => .error .outOfRange
        | some found =>
          if KeyComparator.equal found key then .error (.status (Status.invalidArgument "BTree: duplicate key"))
          else .ok (leafId, index, path)
      else .ok (leafId, index, path)

def find (tree : BTree ω) (key : Key) : Except Failure PageReference :=
  match tree.descendToLeaf key true with
  | .error failure => .error failure
  | .ok (leafId, index, _) =>
    match (tree.leaves.lookup leafId).bind (·.refs[index]?) with
    | none => .error .outOfRange
    | some ref => .ok ref

/-- A status of any kind is read as absence. -/
def contains (tree : BTree ω) (key : Key) : Except Failure Bool :=
  match tree.find key with
  | .ok _ => .ok true
  | .error (.status _) => .ok false
  | .error failure => .error failure

end BTree

namespace TreeM

variable {ω : Type}

def check (status : Status) : TreeM ω Unit := if status.ok then pure () else Fallible.fail (.status status)

def ofExcept {α : Type} : Except Failure α → TreeM ω α
  | .ok value => pure value
  | .error failure => Fallible.fail failure

/-- An access with `at`. -/
def ofOption {α : Type} : Option α → TreeM ω α
  | some value => pure value
  | none => Fallible.fail .outOfRange

def notify [BTreeWalSink ω] (event : TreeEvent) : TreeM ω Unit := do
  match (← Fallible.read).walSink with
  | none => pure ()
  | some sink =>
    Fallible.update fun tree => { tree with walSink := some (BTreeWalSink.notify sink event).2 }
    check (BTreeWalSink.notify sink event).1

def leaf (id : PageId) : TreeM ω LeafNode := do ofOption ((← Fallible.read).leaves.lookup id)

def internal (id : PageId) : TreeM ω InternalNode := do ofOption ((← Fallible.read).internals.lookup id)

/-- A change of a node in place; what it has written stays when its status is not OK. -/
def onLeaf (id : PageId) (change : LeafNode → Status × LeafNode) : TreeM ω Unit := do
  let node ← leaf id
  Fallible.update fun tree => { tree with leaves := tree.leaves.insert id (change node).2 }
  check (change node).1

def onInternal (id : PageId) (change : InternalNode → Status × InternalNode) : TreeM ω Unit := do
  let node ← internal id
  Fallible.update fun tree => { tree with internals := tree.internals.insert id (change node).2 }
  check (change node).1

def takePage (failed : Status) : TreeM ω PageId := do
  let tree ← Fallible.read
  Fallible.update fun tree => { tree with space := tree.space.allocatePage.2 }
  if tree.space.allocatePage.1 = kInvalidPageId then Fallible.fail (.status failed)
  else
    if tree.isLive tree.space.allocatePage.1 then
      Fallible.update fun after => { after with reissued := tree.space.allocatePage.1 :: after.reissued }
    pure tree.space.allocatePage.1

def allocateLeaf [BTreeWalSink ω] (level : UInt32) : TreeM ω PageId := do
  let pageId ← takePage (Status.outOfMemory "BTree: failed to allocate leaf page")
  let tree ← Fallible.read
  if pageId ∈ tree.leaves then Fallible.fail (.status (Status.corruption "BTree: duplicate leaf page id"))
  else
    Fallible.update fun tree => { tree with
      leaves := tree.leaves.insert pageId (LeafNode.create pageId { tree.config with level := level }) }
    notify (.pageAllocate pageId)
    pure pageId

def allocateInternal [BTreeWalSink ω] (level : UInt32) : TreeM ω PageId := do
  let pageId ← takePage (Status.outOfMemory "BTree: failed to allocate internal page")
  let tree ← Fallible.read
  if pageId ∈ tree.internals then Fallible.fail (.status (Status.corruption "BTree: duplicate internal page id"))
  else
    Fallible.update fun tree => { tree with
      internals := tree.internals.insert pageId (InternalNode.create pageId { tree.config with level := level }) }
    notify (.pageAllocate pageId)
    pure pageId

/-- The status of the sink is dropped here. -/
def releaseNode [BTreeWalSink ω] (id : PageId) : TreeM ω Unit := do
  (notify (.pageDeallocate id)).ignore
  Fallible.update fun tree =>
    if id ∈ tree.leaves then { tree with leaves := tree.leaves.erase id }
    else if id ∈ tree.internals then { tree with internals := tree.internals.erase id }
    else tree
  Fallible.update fun tree => { tree with space := (tree.space.freePage id).2 }

end TreeM
end Quartz.Btree
