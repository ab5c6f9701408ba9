import IndexedStore.Store.Writing

/-!
Batches: many records stored or deleted at once. Items that cannot be applied are skipped and
reported; one event tells of the whole batch.
-/
namespace IndexedStore

inductive BatchKind where
  | set
  | delete
deriving DecidableEq, Repr

/-- The keys of the items that were applied, and the others by their place with the reason. -/
structure BatchReport where
  succeeded : List String
  failed : List (Nat × StoreError)

namespace BatchReport

def empty : BatchReport := ⟨[], []⟩

def total (r : BatchReport) : Nat := r.succeeded.length + r.failed.length

def isComplete (r : BatchReport) : Bool := r.failed.isEmpty

def keys (r : BatchReport) : Except StoreError (List String) :=
  if r.isComplete then .ok r.succeeded else .error (.batchFailed r.failed.length r.total)

end BatchReport

inductive BatchItem where
  | store (key : String) (data : Fields)
  | remove (key : String)

namespace Store

/-- Makes an item ready. A given key goes before the one that the item brings. -/
def prepared (s : Store) (keys : KeySupply) (kind : BatchKind) (given : Option String)
    (item : Value) : Except StoreError BatchItem × KeySupply :=
  match kind, item with
  | .set, .map data =>
    let (key, keys) := s.chooseKey keys given data
    (.ok (.store key data), keys)
  | .set, other => (.error (.expectedObject (.batchItem other.kind)), keys)
  | .delete, .map data =>
    match given.or (s.keyOf? data) with
    | some key => (.ok (.remove key), keys)
    | none => (.error (.invalidArguments .deleteKeyless), keys)
  | .delete, .null => (.error (.invalidArguments .deleteNull), keys)
  | .delete, other => (.ok (.remove (given.getD other.keyText)), keys)

def preparedAll (s : Store) (keys : KeySupply) (kind : BatchKind) :
    List (Option String × Value) → List (Except StoreError BatchItem) × KeySupply
  | [] => ([], keys)
  | (given, item) :: rest =>
    let (first, keys) := s.prepared keys kind given item
    let (others, keys) := preparedAll s keys kind rest
    (first :: others, keys)

def applied (s : Store) : BatchItem → Except StoreError String × Store
  | .store key data =>
    let stored := s.contents.upsert key data false s.config.versioning
    (.ok key, { s with contents := stored.contents, stats.writes := s.stats.writes + 1 })
  | .remove key =>
    match (s.contents.catalog.position? key).bind s.contents.hollow with
    | some (_, contents) =>
      (.ok key, { s with contents := contents, stats.deletes := s.stats.deletes + 1 })
    | none => (.error (.recordNotFound key), s)

def appliedAll (s : Store) (place : Nat) :
    List (Except StoreError BatchItem) → BatchReport × Store
  | [] => (.empty, s)
  | item :: rest =>
    let (result, s) := match item with
      | .ok item => s.applied item
      | .error error => (.error error, s)
    match result with
    | .ok key =>
      let (report, s) := appliedAll s (place + 1) rest
      ({ report with succeeded := key :: report.succeeded }, s)
    | .error error =>
      let s := { s with stats.errors := s.stats.errors + 1 }
      let (report, s) := appliedAll s (place + 1) rest
      ({ report with failed := (place, error) :: report.failed }, s)

/-- Applies items with the keys given for some of them. A batch that replaces drops all records
first. -/
def batchKeyed (s : Store) (w : World) (kind : BatchKind) (items : List (Option String × Value))
    (replace : Bool) : Outcome BatchReport :=
  s.usable w <|
    let (ready, keys) := s.preparedAll w.keys kind items
    let w := { w with keys := keys }
    let s := if replace then { s with contents := s.contents.clear } else s
    let (report, s) := s.appliedAll 0 ready
    match s.contents.reindex with
    | .error _ => ⟨.error .poisoned, s.poison, w⟩
    | .ok contents =>
      let s := { s with contents := contents, stats.reindexes := s.stats.reindexes + 1 }
      ⟨.ok report, (s.announce .batch none).dropViews, w⟩

def batchDetailed (s : Store) (w : World) (kind : BatchKind) (items : List Value)
    (replace : Bool) : Outcome BatchReport :=
  s.batchKeyed w kind (items.map fun item => (none, item)) replace

/-- Applies items; an item that fails is a failure of the batch. -/
def batch (s : Store) (w : World) (kind : BatchKind) (items : List Value) (replace : Bool) :
    Outcome BatchReport :=
  let o := s.batchDetailed w kind items replace
  match o.result with
  | .error _ => o
  | .ok report =>
    if report.isComplete then o
    else tracked ⟨.error (.batchFailed report.failed.length report.total), o.store, o.world⟩

end Store
end IndexedStore
