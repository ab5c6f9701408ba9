import IndexedStore.Store.Basic

/-!
Writing single records. A store with a remote side sends each write first and changes nothing
when it is refused; within a batch of the caller's own, writes stay local and tell nobody.
-/
namespace IndexedStore

structure SetOptions where
  batch : Bool
  overwrite : Bool

structure DeleteOptions where
  batch : Bool
  reindex : Bool

namespace Store

/-- The key that fields bring: the key text of the key field, unless it is missing or null. -/
def keyOf? (s : Store) (data : Fields) : Option String :=
  match s.config.keyField with
  | none => none
  | some field =>
    match SortedMap.get? data field with
    | none => none
    | some .null => none
    | some v => some v.keyText

/-- The key for new fields: the one given, the one they bring, or one made up. -/
def chooseKey (s : Store) (keys : KeySupply) (given : Option String) (data : Fields) :
    String × KeySupply :=
  match given with
  | some key => (key, keys)
  | none =>
    match s.keyOf? data with
    | some key => (key, keys)
    | none => keys.next

def remotely (s : Store) (w : World)
    (exchange : Http.Collection → Http.Client → Nat → Http.Exchange Unit) : Outcome Unit :=
  match s.remote with
  | none => ⟨.ok (), s, w⟩
  | some remote =>
    let e := exchange remote w.client w.now
    ⟨e.result, { s with remote := some e.collection }, { w with client := e.client }⟩

def storeLocally (s : Store) (key : String) (data : Fields) (options : SetOptions) :
    Snapshot × Store :=
  let stored := s.contents.upsert key data options.overwrite s.config.versioning
  let s := { s with contents := stored.contents, stats.writes := s.stats.writes + 1 }
  if options.batch then (stored.snapshot, { s with contents := s.contents.bump })
  else (stored.snapshot, (s.announce stored.kind (some key)).dropViews)

/-- The write that tells the remote side of new fields: a record that is there is replaced by
what it becomes, and another one is added. -/
def remoteSet (s : Store) (key : String) (data : Fields) (overwrite : Bool)
    (remote : Http.Collection) (client : Http.Client) (now : Nat) : Http.Exchange Unit :=
  match s.contents.record? key with
  | some r => remote.update client now key (Contents.mergedFields r.fields data overwrite)
  | none => remote.create client now data

def set (s : Store) (w : World) (given : Option String) (data : Fields) (options : SetOptions) :
    Outcome Snapshot :=
  tracked <| s.usable w <|
    let (key, keys) := s.chooseKey w.keys given data
    let w := { w with keys := keys }
    let sent :=
      if options.batch then ⟨.ok (), s, w⟩
      else s.remotely w (s.remoteSet key data options.overwrite)
    match sent.result with
    | .error error => ⟨.error error, sent.store, sent.world⟩
    | .ok () =>
      let (snapshot, s) := sent.store.storeLocally key data options
      ⟨.ok snapshot, s, sent.world⟩

def deleted (s : Store) (key : String) (options : DeleteOptions) : Store :=
  let s := { s with stats.deletes := s.stats.deletes + 1 }
  if options.batch then { s with contents := s.contents.bump }
  else (s.announce .deleted (some key)).dropViews

def deleteLocally (s : Store) (key : String) (options : DeleteOptions) :
    Except StoreError Snapshot × Store :=
  match s.contents.catalog.position? key with
  | none => (.error (.recordNotFound key), s)
  | some position =>
    match if options.batch then s.contents.hollow position else s.contents.cut position with
    | none => (.error (.recordNotFound key), s)
    | some (removed, contents) =>
      if options.batch then
        (.ok removed.snapshot, { s with contents := contents }.deleted key options)
      else if options.reindex then
        match contents.reindex with
        | .error _ => (.error .poisoned, { s with contents := contents }.poison)
        | .ok contents =>
          let s := { s with contents := contents, stats.reindexes := s.stats.reindexes + 1 }
          (.ok removed.snapshot, s.deleted key options)
      else
        (.ok removed.snapshot,
          { s with contents := contents.compactFrom position }.deleted key options)

def delete (s : Store) (w : World) (target : Target) (options : DeleteOptions) :
    Outcome Snapshot :=
  tracked <| s.usable w <|
    match s.contents.find? target with
    | none => ⟨.error (.recordNotFound target.describe), s, w⟩
    | some r =>
      let sent :=
        if options.batch then ⟨.ok (), s, w⟩
        else s.remotely w fun remote client now => remote.delete client now r.key
      match sent.result with
      | .error error => ⟨.error error, sent.store, sent.world⟩
      | .ok () =>
        let (result, s) := sent.store.deleteLocally r.key options
        ⟨result, s, sent.world⟩

/-- The fields that an undo goes back to: those of a label, or else the oldest kept. -/
def undoFields? (s : Store) (key : String) (label : Option String) : Option Fields :=
  match label with
  | some label => s.contents.versions.get? key label
  | none => (s.contents.versions.oldest? key).map (·.2)

def undo (s : Store) (w : World) (key : String) (label : Option String) : Outcome Snapshot :=
  match s.undoFields? key label with
  | none => tracked ⟨.error (.noPreviousVersion key), s, w⟩
  | some fields => s.set w (some key) fields ⟨false, true⟩

def reindex (s : Store) (w : World) : Outcome Unit :=
  s.usable w <|
    match s.contents.reindex with
    | .error _ => ⟨.error .poisoned, s.poison, w⟩
    | .ok contents =>
      let s := { s with contents := contents, stats.reindexes := s.stats.reindexes + 1 }
      ⟨.ok (), (s.announce .reindexed none).dropViews, w⟩

def clear (s : Store) : Store :=
  ({ s with contents := s.contents.clear }.announce .cleared none).dropViews

end Store
end IndexedStore
