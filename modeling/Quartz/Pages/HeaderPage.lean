import Quartz.Pages.IndexPage
import Quartz.Storage.DatabaseFile

/-! The page at the front of a database file, and how a page is written to the file. -/

namespace Quartz

namespace Pages
open Storage

def kVersionMajor : UInt32 := 1
def kVersionMinor : UInt32 := 0
def kDatabaseMagic : UInt32 := 0x51444231
def kHeaderPageId : PageId := 0

/-- The reserved words at the end are kept as their bytes. -/
structure DatabaseHeader where
  magic : UInt32 := 0
  majorVersion : UInt32 := 0
  minorVersion : UInt32 := 0
  pageSize : UInt32 := 0
  databaseId : Bytes.Block 16 := .zeros 16
  creationTimestamp : UInt64 := 0
  modificationTimestamp : UInt64 := 0
  featureFlags : UInt64 := 0
  superblockPageId : UInt32 := 0
  headerChecksum : UInt32 := 0
  reserved : Bytes.Block 64 := .zeros 64
  deriving DecidableEq, Repr

def DatabaseHeader.serialize (header : DatabaseHeader) : List UInt8 :=
  Bytes.encode 4 header.magic.toNat ++ Bytes.encode 4 header.majorVersion.toNat ++
    Bytes.encode 4 header.minorVersion.toNat ++ Bytes.encode 4 header.pageSize.toNat ++ header.databaseId.bytes ++
    Bytes.encode 8 header.creationTimestamp.toNat ++ Bytes.encode 8 header.modificationTimestamp.toNat ++
    Bytes.encode 8 header.featureFlags.toNat ++ Bytes.encode 4 header.superblockPageId.toNat ++
    Bytes.encode 4 header.headerChecksum.toNat ++ header.reserved.bytes

structure HeaderPageLayout where
  databaseHeader : DatabaseHeader := {}
  superblockPageId : PageId := 0
  flags : UInt64 := 0
  formatVersion : UInt32 := 0
  reserved : Bytes.Block 3888 := .zeros 3888
  deriving DecidableEq, Repr

def HeaderPageLayout.serialize (layout : HeaderPageLayout) : List UInt8 :=
  layout.databaseHeader.serialize ++ Bytes.encode 4 layout.superblockPageId.toNat ++
    Bytes.encode 8 layout.flags.toNat ++ Bytes.encode 4 layout.formatVersion.toNat ++ layout.reserved.bytes

structure HeaderPage where
  header : PageHeader := PageHeader.make kHeaderPageId 1
  layout : HeaderPageLayout := {}
  deriving DecidableEq, Repr

def encodeVersion (major minor : UInt32) : UInt32 := (major <<< 16) ||| (minor &&& 0xFFFF)

def HeaderPage.create (majorVersion minorVersion : UInt32) (featureFlags : UInt64) : HeaderPage where
  layout :=
    { databaseHeader :=
        { magic := kDatabaseMagic, majorVersion := majorVersion, minorVersion := minorVersion
          pageSize := UInt32.ofNat kPageSize }
      superblockPageId := 1
      flags := featureFlags
      formatVersion := encodeVersion majorVersion minorVersion }

end Pages

namespace Storage.DatabaseFile
open Pages

/-- The header of the page object is written in front of the payload. -/
def writePage (file : DatabaseFile) (header : PageHeader) (payload : List UInt8) : Status × DatabaseFile :=
  if header.pageId = kInvalidPageId then (Status.invalidArgument "Cannot write page with invalid ID", file)
  else
    let (status, file) := file.seekTo (header.pageId.toNat * kPageSize)
    if !status.ok then (status, file)
    else
      let (status, file) := file.writeBytes header.serialize
      if !status.ok then (status, file) else file.writeBytes payload

end Storage.DatabaseFile
end Quartz
