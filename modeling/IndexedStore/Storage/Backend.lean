import IndexedStore.Storage.Files
import IndexedStore.Storage.Target
import IndexedStore.SortedMap

/-!
Storage for byte strings by name: in memory, or as files of one directory. A file is written
under another name first and then moved to its place, so a reader never sees a part of it.
-/
namespace IndexedStore.Storage

/-- An open directory: where it is, and how long the names of its files may be, given how long its
own path is written. -/
structure Folder where
  place : Place
  room : Nat

def Folder.file? (folder : Folder) (name : String) : Option Place :=
  if name.utf8ByteSize ≤ folder.room then some (folder.place ++ [name]) else none

inductive Backend where
  | memory (blobs : SortedMap Bytes)
  | directory (files : Files) (folder : Folder)

namespace Backend

def suffix : String := ".tbl"

def fileName (target : String) : String := target ++ suffix

def draftName (target : String) : String := "." ++ target ++ ".tmp"

def emptyDirectory : Backend := .directory .empty ⟨[], Path.room ⟨""⟩⟩

def targetOf? (fileName : String) : Option String :=
  let cs := fileName.toList
  let stem := cs.take (cs.length - suffix.length)
  if suffix.toList.isSuffixOf cs && isTarget (String.ofList stem) then some (String.ofList stem)
  else none

/-- Opens a directory as storage, making it where it is missing; the files are as they are left. -/
def openDirectory (files : Files) (path : Path) : Except StorageError Backend × Files :=
  match files.makeDirectories path with
  | (.error fault, files) => (.error (.io fault.message), files)
  | (.ok (), files) =>
    match files.locate path with
    | .ok place => (.ok (.directory files ⟨place, path.room⟩), files)
    | .error fault => (.error (.io fault.message), files)

def refuse {α : Type} (fault : PathFault) : Except StorageError α := .error (.io fault.message)

def get (b : Backend) (target : String) : Except StorageError (Option Bytes) :=
  if !isTarget target then .error (.invalidTarget target)
  else
    match b with
    | .memory blobs => .ok (SortedMap.get? blobs target)
    | .directory files folder =>
      match folder.file? (fileName target) with
      | none => refuse .tooLong
      | some place =>
        match files.node? place with
        | none => .ok none
        | some (.file contents) => .ok (some contents)
        | some .directory => refuse .isDirectory

def put (b : Backend) (target : String) (bytes : Bytes) : Except StorageError Unit × Backend :=
  if !isTarget target then (.error (.invalidTarget target), b)
  else
    match b with
    | .memory blobs => (.ok (), .memory (SortedMap.insert blobs target bytes))
    | .directory files folder =>
      match folder.file? (draftName target), folder.file? (fileName target) with
      | some draft, some place =>
        match files.write draft bytes with
        | none => (refuse .isDirectory, b)
        | some drafted =>
          match drafted.rename draft place with
          | some files => (.ok (), .directory files folder)
          | none => (refuse .isDirectory, .directory drafted folder)
      | _, _ => (refuse .tooLong, b)

def remove (b : Backend) (target : String) : Except StorageError Bool × Backend :=
  if !isTarget target then (.error (.invalidTarget target), b)
  else
    match b with
    | .memory blobs =>
      (.ok (SortedMap.contains blobs target), .memory (SortedMap.erase blobs target))
    | .directory files folder =>
      match folder.file? (fileName target) with
      | none => (refuse .tooLong, b)
      | some place =>
        match files.node? place with
        | none => (.ok false, b)
        | some (.file _) => (.ok true, .directory (files.erase place) folder)
        | some .directory => (refuse .isDirectory, b)

def targets : Backend → List String
  | .memory blobs => SortedMap.names blobs
  | .directory files folder =>
    ((files.names folder.place).filterMap targetOf?).mergeSort (· ≤ ·)

end Backend
end IndexedStore.Storage
