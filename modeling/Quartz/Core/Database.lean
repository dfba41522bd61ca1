import Quartz.Pages.HeaderPage
import Quartz.Recovery.RecoveryManager
import Quartz.Wal.BTreeWalAdapter

/-! The database: a data file, a tree and the log that the tree's changes are written to. Every
call is made in an environment, which says what the files at a path are and which operations on them
fail. -/

namespace Quartz.Core
open Storage Format Pages Btree Wal Recovery

structure DatabaseOptions where
  enableWal : Bool := true
  recoverOnOpen : Bool := true
  truncateWalOnCheckpoint : Bool := false
  btreeConfig : BTreeNodeConfig := {}
  deriving DecidableEq, Repr

/-- `walAdapter` has the log manager in it. The tree is kept without a sink; `sinkSet` says whether
its pointer to the adapter is set. -/
structure Database where
  options : DatabaseOptions := {}
  isOpen : Bool := false
  file : DatabaseFile := {}
  tree : BTree BTreeWalAdapter
  walAdapter : BTreeWalAdapter
  sinkSet : Bool := false
  lastRecovery : RecoveryResult := {}

/-- The files at the path when it is opened, and what fails on the way. -/
structure OpenCall where
  path : String
  createIfMissing : Bool := true
  data : Option (List UInt8) := none
  log : Option (List UInt8) := none
  dataOpenFails : Bool := false
  dataWriteFails : Bool := false
  logFault : Option InitializeFault := none
  deriving DecidableEq, Repr

structure CloseFaults where
  flush : Option FlushFault := none
  shutdown : Option FlushFault := none
  logCloseFails : Bool := false
  dataCloseFails : Bool := false
  deriving DecidableEq, Repr

/-- A stream that is not open sees the file that is at the path then. -/
def mount (file : DatabaseFile) (contents : Option (List UInt8)) : DatabaseFile :=
  if file.isOpen then file else { file with contents := contents }

namespace Database

def create (options : DatabaseOptions) (clock : Nat → UInt64) : Database where
  options := options
  tree := BTree.create (Space.SpaceManager.withPolicy .firstFit) options.btreeConfig
  walAdapter := { manager := {}, clock := clock }

def wal (database : Database) : LogManager := database.walAdapter.manager

def setWal (database : Database) (manager : LogManager) : Database :=
  { database with walAdapter := { database.walAdapter with manager := manager } }

def walPathFor (dataPath : String) : String := dataPath ++ ".wal"

/-- The status of the last flush is dropped. -/
def initializeStorage (database : Database) (call : OpenCall) : Status × Database :=
  let file := mount database.file call.data
  let (status, file) :=
    if call.dataOpenFails then file.openFailing call.path call.createIfMissing
    else file.openFile call.path call.createIfMissing
  if !status.ok then (status, { database with file := file })
  else if call.createIfMissing || file.fileSize < Pages.kPageSize then
    let page := HeaderPage.create kVersionMajor kVersionMinor 0
    let (status, file) :=
      if call.dataWriteFails then (Status.ioError "Failed to write to file", file.struck true)
      else file.writePage page.header page.layout.serialize
    if !status.ok then (status, { database with file := file })
    else (Status.success, { database with file := file.flush.2 })
  else (Status.success, { database with file := file })

def initializeWal (database : Database) (call : OpenCall) : Status × Database :=
  let wal := database.wal
  let wal := { wal with file := { wal.file with file := mount wal.file.file call.log } }
  let (status, wal) := wal.initializeUnder call.logFault (walPathFor call.path) call.createIfMissing
  (status, database.setWal wal)

def runRecovery (database : Database) : Except Failure Unit × Database :=
  let ((ended, tree, result), wal) := RecoveryManager.recover database.wal database.tree
  (ended, { database.setWal wal with tree := tree, lastRecovery := result })

def opened (database : Database) : Database :=
  { database with isOpen := true, sinkSet := database.sinkSet || database.options.enableWal }

/-- Statuses of the cleanup are dropped; an exception of the recovery leaves everything as it is. -/
def openDatabase (database : Database) (call : OpenCall) : Except Failure Unit × Database :=
  if database.isOpen then (.error (.status (Status.invalidArgument "Database: already open")), database)
  else
    let (status, database) := database.initializeStorage call
    if !status.ok then (.error (.status status), database)
    else if database.options.enableWal then
      let (status, database) := database.initializeWal call
      if !status.ok then (.error (.status status), { database with file := database.file.close.2 })
      else if database.options.recoverOnOpen then
        match database.runRecovery with
        | (.ok _, database) => (.ok (), database.opened)
        | (.error (.status status), database) =>
          (.error (.status status), { database.setWal database.wal.shutdown.2 with file := database.file.close.2 })
        | (.error failure, database) => (.error failure, database)
      else (.ok (), database.opened)
    else (.ok (), database.opened)

def closeFile (database : Database) (faults : CloseFaults) : Status × Database :=
  let (status, file) := if faults.dataCloseFails then database.file.closeFailing else database.file.close
  (status, { database with file := file, isOpen := false })

/-- The sink is taken away before the log is flushed. -/
def close (database : Database) (faults : CloseFaults) : Status × Database :=
  if !database.isOpen then (Status.success, database)
  else if database.options.enableWal then
    let database := { database with sinkSet := false }
    let (status, wal) := database.wal.flushUnder faults.flush
    let database := database.setWal wal
    if !status.ok then (status, database)
    else
      let (status, wal) := database.wal.shutdownUnder faults.shutdown faults.logCloseFails
      let database := database.setWal wal
      if !status.ok then (status, database) else database.closeFile faults
  else database.closeFile faults

/-- A call of the tree, with the sink that is set. -/
def onTree (database : Database) (call : TreeCall) : Except Failure Unit × Database :=
  let (ended, tree) := call.perform.run
    { database.tree with walSink := if database.sinkSet then some database.walAdapter else none }
  (ended, { database with
    tree := { tree with walSink := none }, walAdapter := tree.walSink.getD database.walAdapter })

/-- What `insert` and `erase` have in common. -/
def update (database : Database) (call : TreeCall) (fault : Option FlushFault) : Except Failure Unit × Database :=
  if !database.isOpen then (.error (.status (Status.invalidArgument "Database: not open")), database)
  else
    match database.onTree call with
    | (.error failure, database) => (.error failure, database)
    | (.ok _, database) =>
      if database.options.enableWal then
        let (status, wal) := database.wal.flushUnder fault
        (if status.ok then .ok () else .error (.status status), database.setWal wal)
      else (.ok (), database)

def insert (database : Database) (key : Key) (value : PageReference) (fault : Option FlushFault) :
    Except Failure Unit × Database := database.update (.insert key value) fault

def erase (database : Database) (key : Key) (fault : Option FlushFault) : Except Failure Unit × Database :=
  database.update (.erase key) fault

/-- The clock and the order in which the tree is walked are the caller's. -/
def checkpoint (database : Database) (truncateWal : Bool) (timestamp : UInt64)
    (walk : ∀ tree : BTree BTreeWalAdapter, tree.Enumeration) (fault : Option FlushFault) : Status × Database :=
  if !database.isOpen then (Status.invalidArgument "Database: not open", database)
  else if !database.options.enableWal then (Status.invalidArgument "Database: WAL not enabled", database)
  else
    let doTruncate := truncateWal || database.options.truncateWalOnCheckpoint
    let (status, wal) := RecoveryManager.checkpoint fault database.tree (walk database.tree) timestamp database.wal doTruncate
    (status, database.setWal wal)

end Database

inductive DatabaseCall where
  | openDatabase (call : OpenCall)
  | insert (key : Key) (value : PageReference) (fault : Option FlushFault)
  | erase (key : Key) (fault : Option FlushFault)
  | checkpoint (truncateWal : Bool) (timestamp : UInt64) (walk : ∀ tree : BTree BTreeWalAdapter, tree.Enumeration)
      (fault : Option FlushFault)
  | close (faults : CloseFaults)

namespace DatabaseCall

def ofStatus (result : Status × Database) : Except Failure Unit × Database :=
  (if result.1.ok then .ok () else .error (.status result.1), result.2)

def perform (call : DatabaseCall) (database : Database) : Except Failure Unit × Database :=
  match call with
  | openDatabase call => database.openDatabase call
  | insert key value fault => database.insert key value fault
  | erase key fault => database.erase key fault
  | checkpoint truncateWal timestamp walk fault => ofStatus (database.checkpoint truncateWal timestamp walk fault)
  | close faults => ofStatus (database.close faults)

def step (database : Database) (call : DatabaseCall) : Database := (call.perform database).2

end DatabaseCall
end Quartz.Core
