import Quartz.Btree.BTree
import Quartz.Wal.LogManager

/-! The adapter that turns what a tree tells its sink into log records. -/

namespace Quartz.Wal
open Storage Format Btree Serialization

/-- The clock gives the time of each record in turn. `writing` and `framed` are the writer that puts a payload
and a frame together; what takes the writer to append leaves them out. `appended` is a ghost: every record that
was handed to the manager, under the number it got, and what the manager answered. -/
structure BTreeWalAdapter where
  manager : LogManager
  clock : Nat → UInt64
  writing : Writing := appending
  framed : LogRecord → List UInt8 := LogWriter.frame
  appended : List (LogRecord × Status) := []

namespace BTreeWalAdapter

def append (adapter : BTreeWalAdapter) (type : LogRecordType) (pageId : PageId) (payload : List UInt8) :
    Status × BTreeWalAdapter :=
  let record := { LogRecord.make type pageId 0 (adapter.clock adapter.appended.length) with payload := payload }
  let (status, manager) := adapter.manager.append record adapter.framed
  (status, { adapter with
    manager := manager
    appended := adapter.appended ++ [({ record with lsn := adapter.manager.writer.nextLsn }, status)] })

/-- The blocks of an entry; only a valid reference is behind its key. -/
def entryBlocks (key : Key) (ref : PageReference) : List (List UInt8) :=
  key.blocks ++ if ref.isValid then [ref.serialize] else []

def appendKeyRecord (adapter : BTreeWalAdapter) (type : LogRecordType) (pageId : PageId) (key : Key)
    (ref : PageReference) : Status × BTreeWalAdapter :=
  adapter.append type pageId (adapter.writing (entryBlocks key ref))

def onInsert (adapter : BTreeWalAdapter) (key : Key) (value : PageReference) : Status × BTreeWalAdapter :=
  adapter.appendKeyRecord .pageUpdate value.pageId key value

def onErase (adapter : BTreeWalAdapter) (key : Key) : Status × BTreeWalAdapter :=
  adapter.appendKeyRecord .pageDelete kInvalidPageId key .invalid

def onPageAllocate (adapter : BTreeWalAdapter) (pageId : PageId) : Status × BTreeWalAdapter :=
  adapter.append .allocation pageId []

def onPageDeallocate (adapter : BTreeWalAdapter) (pageId : PageId) : Status × BTreeWalAdapter :=
  adapter.append .deallocation pageId []

def onNodeSplit (adapter : BTreeWalAdapter) (leftId rightId : PageId) (promotedKey : Key) : Status × BTreeWalAdapter :=
  adapter.append .nodeSplit leftId (adapter.writing (Bytes.encode 4 rightId.toNat :: promotedKey.blocks))

def onNodeMerge (adapter : BTreeWalAdapter) (survivorId removedId : PageId) : Status × BTreeWalAdapter :=
  adapter.append .nodeMerge survivorId (adapter.writing [Bytes.encode 4 removedId.toNat])

instance : BTreeWalSink BTreeWalAdapter where
  notify adapter
    | .insert key value => adapter.onInsert key value
    | .erase key => adapter.onErase key
    | .pageAllocate pageId => adapter.onPageAllocate pageId
    | .pageDeallocate pageId => adapter.onPageDeallocate pageId
    | .nodeSplit leftId rightId promoted => adapter.onNodeSplit leftId rightId promoted
    | .nodeMerge survivorId removedId => adapter.onNodeMerge survivorId removedId

end BTreeWalAdapter
end Quartz.Wal
