import IndexedStore.Cli.Run
import IndexedStore.Uuid

/-!
The program. It looks at the paths that the arguments name, runs over what it saw, and writes down
what has changed.
-/
namespace IndexedStore.Cli

def observe (place : Storage.Place) : IO (Option Storage.Node) := do
  try
    let real ← IO.FS.realPath place.text
    if ← real.isDir then return some .directory
    return some (.file (← IO.FS.readBinFile real).toList)
  catch _ => return none

def observeAll (paths : List Storage.Path) : IO Storage.Files :=
  (paths.flatMap Storage.Path.places).foldlM (fun files place => do
    match ← observe place with
    | some node => return files.set place node
    | none => return files) .empty

def writeFile (path : String) (contents : Bytes) : IO Unit := do
  let draft := path ++ ".tmp"
  IO.FS.writeBinFile draft ⟨contents.toArray⟩
  IO.FS.rename draft path

def writeChanges (before after : Storage.Files) : IO Unit :=
  after.nodes.reverse.forM fun (place, node) => do
    if before.node? place != some node then
      match node with
      | .directory => IO.FS.createDir place.text
      | .file contents => writeFile place.text contents

end IndexedStore.Cli

open IndexedStore

def main (arguments : List String) : IO UInt32 := do
  let before ← Cli.observeAll (Cli.paths arguments)
  let seed := Bytes.toNat (← IO.getRandomBytes 16).toList
  let e := Cli.run arguments ⟨fun n => Uuid.ofNat (seed + n), 0⟩ before
  try
    Cli.writeChanges before e.files
  catch error =>
    IO.eprint (Cli.errorLine (.storage (.io (toString error))))
    return 1
  IO.print e.output
  IO.eprint e.errors
  return e.exit.toUInt32
