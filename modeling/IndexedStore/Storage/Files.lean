import IndexedStore.Bytes
import IndexedStore.Storage.Path

/-!
Files in a tree of directories. The working directory and those above it exist; what else exists
is listed with its place. A path is followed step by step, and each step starts from a directory,
so a detour through a directory that is missing leads nowhere.
-/
namespace IndexedStore.Storage

inductive Node where
  | file (contents : Bytes)
  | directory
deriving DecidableEq

structure Files where
  nodes : List (Place × Node)

namespace Files

def nameLimit : Nat := 255

def empty : Files := ⟨[]⟩

def node? (fs : Files) (place : Place) : Option Node :=
  if place.isTop then some .directory else (fs.nodes.find? (·.1 == place)).map (·.2)

def isDirectory (fs : Files) (place : Place) : Bool :=
  match fs.node? place with
  | some .directory => true
  | _ => false

def set (fs : Files) (place : Place) (node : Node) : Files :=
  ⟨(place, node) :: fs.nodes.filter (·.1 != place)⟩

def erase (fs : Files) (place : Place) : Files := ⟨fs.nodes.filter (·.1 != place)⟩

def write (fs : Files) (place : Place) (contents : Bytes) : Option Files :=
  if fs.isDirectory place || !fs.isDirectory place.parent then none
  else some (fs.set place (.file contents))

/-- Moves a file over what is at another place, unless that is a directory. -/
def rename (fs : Files) (source target : Place) : Option Files :=
  match fs.node? source with
  | some (.file contents) =>
    if fs.isDirectory target then none else some ((fs.erase source).set target (.file contents))
  | _ => none

def names (fs : Files) (directory : Place) : List String :=
  fs.nodes.filterMap fun (place, _) =>
    match place.getLast? with
    | some name => if place.dropLast = directory then some name else none
    | none => none

def follow (fs : Files) (place : Place) : List String → Except PathFault Place
  | [] => .ok place
  | word :: rest =>
    match fs.node? place with
    | none => .error .missing
    | some (.file _) => .error .notDirectory
    | some .directory =>
      if word.utf8ByteSize > nameLimit then .error .tooLong
      else fs.follow (place.step word) rest

def locate (fs : Files) (path : Path) : Except PathFault Place :=
  match path.fault? with
  | some fault => .error fault
  | none => fs.follow [] path.steps

def read (fs : Files) (path : Path) : Except PathFault Bytes :=
  match fs.locate path with
  | .error fault => .error fault
  | .ok place =>
    match fs.node? place with
    | some (.file contents) => .ok contents
    | some .directory => .error .isDirectory
    | none => .error .missing

def makeDirectory (fs : Files) (steps : List String) : Except PathFault Files :=
  match fs.follow [] (steps.filter (· != "")) with
  | .error fault => .error fault
  | .ok place =>
    match fs.node? place with
    | some .directory => .ok fs
    | some (.file _) => .error .notDirectory
    | none => .ok (fs.set place .directory)

/-- Makes the directory of the first steps, and before it the directories of those that follow as
far as they are missing. What was made stays made when a later one cannot be. -/
def makeChain (fs : Files) : List (List String) → Except PathFault Unit × Files
  | [] => (.ok (), fs)
  | steps :: outer =>
    match fs.makeDirectory steps with
    | .ok fs => (.ok (), fs)
    | .error .missing =>
      match fs.makeChain outer with
      | (.error fault, fs) => (.error fault, fs)
      | (.ok (), fs) =>
        match fs.makeDirectory steps with
        | .ok fs => (.ok (), fs)
        | .error fault => (.error fault, fs)
    | .error fault => (.error fault, fs)

def makeDirectories (fs : Files) (path : Path) : Except PathFault Unit × Files :=
  match path.fault? with
  | some fault => (.error fault, fs)
  | none => fs.makeChain path.ancestors

end Files
end IndexedStore.Storage
