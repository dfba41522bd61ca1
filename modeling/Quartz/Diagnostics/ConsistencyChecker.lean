import Quartz.Core.Database

/-! The consistency check of an open database. -/

namespace Quartz.Diagnostics
open Storage Btree Wal Recovery Quartz.Core

namespace ConsistencyChecker

def check (database : Database) : Except Failure Unit × Database :=
  if !database.isOpen then
    (.error (.status (Status.invalidArgument "ConsistencyChecker: database not open")), database)
  else
    match TreeValidator.validate database.tree with
    | .error failure => (.error failure, database)
    | .ok _ =>
      if database.options.enableWal then
        let (status, wal) := database.wal.validate
        if !status.ok then (.error (.status status), database.setWal wal)
        else
          let (ended, wal) := RecoveryValidator.verifyLogicalConsistency wal database.tree
          (ended, database.setWal wal)
      else (.ok (), database)

end ConsistencyChecker
end Quartz.Diagnostics
