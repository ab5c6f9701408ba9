/-!
Places of files and directories, and the paths that are written to lead to them. A place is the
list of names from the working directory on; a path may take detours.
-/
namespace IndexedStore.Storage

/-- The names from the working directory on. Only leading names may be `..`, and only the first
may be `/`, the root of all directories. -/
abbrev Place := List String

namespace Place

def isTop (place : Place) : Bool := place.all fun name => name == ".." || name == "/"

/-- The directory that a place is in; the root of all is in itself. -/
def parent (place : Place) : Place :=
  if place == ["/"] then place
  else if place.isTop then place ++ [".."]
  else place.dropLast

def text : Place → String
  | [] => "."
  | "/" :: names => "/" ++ "/".intercalate names
  | names => "/".intercalate names

def step (place : Place) (word : String) : Place :=
  if word == "" || word == "." then place
  else if word == ".." then place.parent
  else if word == "/" then ["/"]
  else place ++ [word]

end Place

inductive PathFault where
  | missing
  | notDirectory
  | isDirectory
  | tooLong
  | malformed
deriving DecidableEq, Repr

def PathFault.message : PathFault → String
  | missing => "no such file or directory"
  | notDirectory => "not a directory"
  | isDirectory => "is a directory"
  | tooLong => "file name too long"
  | malformed => "malformed file name"

structure Path where
  text : String
deriving DecidableEq, Repr

namespace Path

def sizeLimit : Nat := 4095

def fault? (path : Path) : Option PathFault :=
  if path.text.toList.contains '\x00' then some .malformed
  else if path.text.utf8ByteSize > sizeLimit then some .tooLong
  else none

/-- A path with a slash at its end, unless it is the working directory left unwritten. -/
def within (path : Path) : String :=
  if path.text.isEmpty || path.text.endsWith "/" then path.text else path.text ++ "/"

def child (path : Path) (name : String) : Path := ⟨path.within ++ name⟩

def room (path : Path) : Nat := sizeLimit - path.within.utf8ByteSize

def isIdle (word : String) : Bool := word == "" || word == "."

/-- The steps between the slashes. A slash in front is a step to the root, and after a slash at
the end comes an empty step. -/
def steps (path : Path) : List String :=
  let named := (path.text.splitOn "/").filter (· != "")
  let first := if path.text.startsWith "/" then ["/"] else []
  let last := if path.text.endsWith "/" && !named.isEmpty then [""] else []
  first ++ named ++ last

/-- The steps of the paths that end with a step to another place, given steps from the last one
back; the longest comes first. -/
def movesFrom : List String → List (List String)
  | [] => []
  | word :: before =>
    if isIdle word then movesFrom before else (word :: before).reverse :: movesFrom before

/-- The steps of the paths that a path goes on from, the nearest first and its own in front: each
lacks the last step to another place of the one before. -/
def ancestors (path : Path) : List (List String) :=
  path.steps :: (movesFrom path.steps.reverse).tail

def placesFrom (place : Place) : List String → List Place
  | [] => []
  | word :: rest =>
    if isIdle word then placesFrom place rest
    else place.step word :: placesFrom (place.step word) rest

def places (path : Path) : List Place := placesFrom [] path.steps

end Path
end IndexedStore.Storage
