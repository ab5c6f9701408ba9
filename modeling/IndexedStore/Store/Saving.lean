import IndexedStore.Cbor.Shapes
import IndexedStore.Store.Basic

/-!
Saving a store to storage and restoring it. An archive holds the records and the fields of the
declared indexes; indexes are built anew on the way back.
-/
namespace IndexedStore.Store

def archive (s : Store) : Archive :=
  ⟨s.name, s.config.keyField, s.contents.catalog.secondary.map (·.2.fields),
    s.contents.snapshots⟩

def saveAs (s : Store) (w : World) (target : String) : Outcome Unit :=
  let (result, storage) := w.storage.put target s.archive.toCbor.encode
  ⟨result.mapError .storage, s, { w with storage := storage }⟩

def save (s : Store) (w : World) : Outcome Unit := s.saveAs w s.name

def readArchive (bytes : Bytes) : Except StoreError Archive :=
  match Cbor.readArchive? bytes with
  | some archive => .ok archive
  | none => .error (.value (.decodingFailed "malformed"))

/-- The contents of an archive, with the indexes of some settings and its own. -/
def unpacked (config : Config) (archive : Archive) : Except ArgumentFault Contents :=
  match (Contents.empty config.versionLimit).declareIndexes (config.indexes ++ archive.indexes) with
  | .error fault => .error fault
  | .ok contents =>
    let records := archive.records.mergeSort fun a b => a.position ≤ b.position
    .ok (records.foldl (fun c r => (c.upsert r.key r.fields true false).contents) contents)

/-- Replaces the contents by what was saved under the store's name; tells whether there was
anything. -/
def restore (s : Store) (w : World) : Outcome Bool :=
  tracked <| s.usable w <|
    match w.storage.get s.name with
    | .error error => ⟨.error (.storage error), s, w⟩
    | .ok none => ⟨.ok false, s, w⟩
    | .ok (some bytes) =>
      match readArchive bytes with
      | .error error => ⟨.error error, s, w⟩
      | .ok archive =>
        match unpacked s.config archive with
        | .error fault => ⟨.error (.invalidArguments fault), s, w⟩
        | .ok contents =>
          let s := { s with contents := { contents with revision := s.revision } }
          ⟨.ok true, (s.announce .batch none).dropViews, w⟩

def purge (s : Store) (w : World) : Outcome Bool :=
  let (result, storage) := w.storage.remove s.name
  ⟨result.mapError .storage, s, { w with storage := storage }⟩

end IndexedStore.Store
