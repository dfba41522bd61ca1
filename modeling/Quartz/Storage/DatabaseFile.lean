import Mathlib.Algebra.Group.Nat.Defs
import Quartz.Lib.Splice
import Quartz.Status

/-! A file and the stream over it. The file is an ideal byte array that keeps what was
written across closing and reopening; the stream has the position and the two flags of
a `std::fstream`. -/

namespace Quartz.Storage

structure DatabaseFile where
  /-- The file at the path, if there is one. -/
  contents : Option (List UInt8) := none
  path : String := ""
  isOpen : Bool := false
  position : Nat := 0
  eof : Bool := false
  fail : Bool := false
  size : Nat := 0
  deriving DecidableEq, Repr

namespace DatabaseFile

def bytes (file : DatabaseFile) : List UInt8 := file.contents.getD []

/-- Opening clears the flags. An existing file is never truncated. -/
def openFile (file : DatabaseFile) (path : String) (create : Bool) : Status × DatabaseFile :=
  if file.isOpen then (Status.ioError ("File already open: " ++ file.path), file)
  else
    let opened := { file with path := path, isOpen := true, position := 0, eof := false, fail := false }
    match file.contents with
    | none =>
      if create then (Status.success, { opened with contents := some [], size := 0 })
      else (Status.ioError ("Failed to open file: " ++ path), { file with path := path, fail := true })
    | some bytes => (Status.success, { opened with size := bytes.length })

def close (file : DatabaseFile) : Status × DatabaseFile :=
  if !file.isOpen then (Status.success, file)
  else (Status.success, { file with isOpen := false, path := "", size := 0 })

def flush (file : DatabaseFile) : Status × DatabaseFile :=
  if !file.isOpen then (Status.ioError "File not open", file)
  else if file.fail then (Status.ioError "Failed to flush file", file)
  else (Status.success, file)

def fileSize (file : DatabaseFile) : Nat := file.size

/-- Seeking to an offset of a page or of the log, all below 2^63. It clears the end-of-file flag; a stream that has
failed stays where it is. -/
def seekTo (file : DatabaseFile) (position : Nat) : Status × DatabaseFile :=
  if !file.isOpen then (Status.ioError "File not open", file)
  else if file.fail then (Status.ioError "Failed to seek in file", { file with eof := false })
  else (Status.success, { file with eof := false, position := position })

/-- The position is cast to a signed `std::streamoff`: from 2^63 on it is negative, and the stream fails. -/
def seek (file : DatabaseFile) (position : UInt64) : Status × DatabaseFile :=
  if position.toNat < 2 ^ 63 then file.seekTo position.toNat
  else if !file.isOpen then (Status.ioError "File not open", file)
  else (Status.ioError "Failed to seek in file", { file with eof := false, fail := true })

/-- Reads over the destination. A read past the end copies what there is, leaves the rest
of the destination, sets both flags and is reported as a success. -/
def readBytes (file : DatabaseFile) (destination : List UInt8) : Status × List UInt8 × DatabaseFile :=
  if !file.isOpen then (Status.ioError "File not open", destination, file)
  else if file.fail || file.eof then
    (if file.eof then Status.success else Status.ioError "Failed to read from file", destination,
      { file with fail := true })
  else
    let available := (file.bytes.drop file.position).take destination.length
    let short := decide (available.length < destination.length)
    (Status.success, available ++ destination.drop available.length,
      { file with position := file.position + available.length, eof := short, fail := short })

def writeBytes (file : DatabaseFile) (source : List UInt8) : Status × DatabaseFile :=
  if !file.isOpen then (Status.ioError "File not open", file)
  else if file.fail || file.eof then (Status.ioError "Failed to write to file", { file with fail := true })
  else
    let position := file.position + source.length
    (Status.success, { file with
      contents := some (if source.isEmpty then file.bytes else Splice.write 0 file.bytes file.position source)
      position := position
      size := if position > file.size then position else file.size })

/-- Cutting or extending the file reopens the stream. -/
def resize (file : DatabaseFile) (newSize : Nat) : Status × DatabaseFile :=
  if !file.isOpen then (Status.ioError "File not open", file)
  else (Status.success, { file with
    contents := some (file.bytes.take newSize ++ List.replicate (newSize - file.bytes.length) 0)
    size := newSize
    position := 0
    eof := false
    fail := false })

end DatabaseFile
end Quartz.Storage
