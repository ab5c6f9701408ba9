import IndexedStore.Storage.Backend

/-!
The calls of a storage as data, and calls that break off. Keeping bytes in a directory opens a
draft, writes and settles it, and moves it to its place; the outside may end this at any of these
steps.
-/
namespace IndexedStore.Storage

inductive Call where
  | get (target : String)
  | put (target : String) (bytes : Bytes)
  | remove (target : String)
  | targets

def Call.target? : Call → Option String
  | get target => some target
  | put target _ => some target
  | remove target => some target
  | targets => none

inductive Reply where
  | found (bytes : Option Bytes)
  | done
  | flag (b : Bool)
  | names (list : List String)
deriving DecidableEq

inductive PutFault where
  | opening
  /-- Only so many bytes are written. -/
  | writing (written : Nat)
  | settling
  | moving

/-- What the draft holds when keeping bytes breaks off; before it is opened nothing becomes of
it. -/
def PutFault.draft? (bytes : Bytes) : PutFault → Option Bytes
  | opening => none
  | writing written => some (bytes.take written)
  | settling => some bytes
  | moving => some bytes

/-- A call, or one to keep bytes that breaks off for a reason of the outside. -/
inductive Attempt where
  | call (c : Call)
  | broken (target : String) (bytes : Bytes) (fault : PutFault) (reason : String)

def Attempt.isCall : Attempt → Bool
  | call _ => true
  | broken .. => false

namespace Backend

/-- Keeps bytes under a name up to a step at which that breaks off. In memory nothing does. -/
def putBroken (b : Backend) (target : String) (bytes : Bytes) (fault : PutFault)
    (reason : String) : Except StorageError Unit × Backend :=
  if !isTarget target then (.error (.invalidTarget target), b)
  else
    match b with
    | .memory _ => b.put target bytes
    | .directory files folder =>
      match folder.file? (draftName target), fault.draft? bytes with
      | some draft, some written =>
        match files.write draft written with
        | some drafted => (.error (.io reason), .directory drafted folder)
        | none => (refuse .isDirectory, b)
      | _, _ => (.error (.io reason), b)

def answer (b : Backend) : Call → Except StorageError Reply × Backend
  | .get target => ((b.get target).map .found, b)
  | .put target bytes =>
    let (result, b) := b.put target bytes
    (result.map fun _ => .done, b)
  | .remove target =>
    let (result, b) := b.remove target
    (result.map .flag, b)
  | .targets => (.ok (.names b.targets), b)

def attempted (b : Backend) : Attempt → Backend
  | .call c => (b.answer c).2
  | .broken target bytes fault reason => (b.putBroken target bytes fault reason).2

def after (b : Backend) (attempts : List Attempt) : Backend := attempts.foldl attempted b

def answers (b : Backend) : List Attempt → List (Except StorageError Reply)
  | [] => []
  | .call c :: rest => (b.answer c).1 :: (b.attempted (.call c)).answers rest
  | .broken target bytes fault reason :: rest =>
    (b.attempted (.broken target bytes fault reason)).answers rest

end Backend
end IndexedStore.Storage
