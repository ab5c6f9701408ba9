import IndexedStore.Config
import IndexedStore.Http.Collection
import IndexedStore.Sorting.Views
import IndexedStore.Stats
import IndexedStore.Storage.Backend
import IndexedStore.Store.Contents
import IndexedStore.Workers

/-!
A store, and the world around it. What the world decides is data: the keys it makes up, the
answers of the remote side, the bytes in storage, the time, and the state of the worker threads.
An operation takes a store and a world and gives back its result with both as they are after it.
-/
namespace IndexedStore

structure KeySupply where
  key : Nat → String
  used : Nat

def KeySupply.next (k : KeySupply) : String × KeySupply :=
  (k.key k.used, { k with used := k.used + 1 })

structure World where
  keys : KeySupply
  client : Http.Client
  storage : Storage.Backend
  workers : Workers
  now : Nat

structure Store where
  config : Config
  contents : Contents
  views : ViewCache
  feed : EventFeed
  stats : Stats
  /-- Whether the store got hold of worker threads. -/
  pooled : Bool
  remote : Option Http.Collection
  /-- Whether a reindex failed; nothing works after that. -/
  poisoned : Bool

structure Outcome (α : Type) where
  result : Except StoreError α
  store : Store
  world : World

namespace Store

variable {α : Type}

def tracked (o : Outcome α) : Outcome α :=
  match o.result with
  | .ok _ => o
  | .error _ =>
    { o with store.stats.errors := o.store.stats.errors + 1 }

def usable (s : Store) (w : World) (run : Outcome α) : Outcome α :=
  if s.poisoned then ⟨.error .poisoned, s, w⟩ else run

def build (config : Config) (remote : Option Http.Collection) (w : World) :
    Except StoreError Store × World :=
  match (Contents.empty config.versionLimit).declareIndexes config.indexes with
  | .error fault => (.error (.invalidArguments fault), w)
  | .ok contents =>
    let (pooled, workers) :=
      if config.useWorkers then w.workers.shared config.workerThreads else (false, w.workers)
    (.ok ⟨config, contents, .empty, .empty config.eventHistory, .zero, pooled, remote, false⟩,
      { w with workers := workers })

def create (config : Config) (w : World) : Except StoreError Store × World := build config none w

/-- A store that writes through to the remote collection of its address. -/
def createRemote (config : Config) (w : World) : Except StoreError Store × World :=
  match config.uri with
  | none => (.error (.invalidArguments .remoteWithoutUri), w)
  | some uri =>
    let cache := Http.Cache.empty config.httpCacheCapacity config.httpCacheLifetime
    build config (some ⟨uri, config.headers, cache⟩) w

def name (s : Store) : String := s.config.name

def revision (s : Store) : Nat := s.contents.revision

def size (s : Store) : Nat := s.contents.size

def keys (s : Store) : List String := s.contents.keys

def verify (s : Store) : List Catalog.Problem := s.contents.problems

def summary (s : Store) : String :=
  let records := s.size
  let revision := s.revision
  "RecordStore \x7b name: " ++ Text.quoted s.name ++
    s!", records: {records}, revision: {revision}, .. \x7d"

def announce (s : Store) (kind : EventKind) (key : Option String) : Store :=
  let contents := s.contents.bump
  { s with contents := contents, feed := s.feed.emit ⟨contents.revision, kind, key⟩ }

def dropViews (s : Store) : Store := { s with views := .empty }

def poison (s : Store) : Store := { s with poisoned := true }

def declareIndex (s : Store) (w : World) (fields : List String) : Outcome String :=
  s.usable w <| tracked <|
    match s.contents.declareIndex fields with
    | .ok (signature, contents) => ⟨.ok signature, { s with contents := contents }, w⟩
    | .error fault => ⟨.error (.invalidArguments fault), s, w⟩

def findTarget (s : Store) (target : Target) : Except StoreError Snapshot :=
  match s.contents.find? target with
  | some r => .ok r.snapshot
  | none => .error (.recordNotFound target.describe)

def selected (s : Store) : Selector → Except StoreError (List Snapshot)
  | .all => .ok s.contents.snapshots
  | .key key => (s.findTarget (.key key)).map ([·])
  | .position p => (s.findTarget (.position p)).map ([·])
  | .list targets => targets.mapM s.findTarget
  | .range start count => .ok ((s.contents.snapshots.drop start).take count)

def get (s : Store) (w : World) (selector : Selector) : Outcome (List Snapshot) :=
  s.usable w <| tracked
    ⟨s.selected selector, { s with stats.reads := s.stats.reads + 1 }, w⟩

def record (s : Store) (w : World) (key : String) : Outcome Snapshot :=
  let o := s.get w (.key key)
  match o.result with
  | .ok (found :: _) => ⟨.ok found, o.store, o.world⟩
  | .ok [] => ⟨.error (.recordNotFound key), o.store, o.world⟩
  | .error error => ⟨.error error, o.store, o.world⟩

/-- The different values of a field in the order in which they are first met, told apart by key
text. -/
def unique (s : Store) (field : String) : List Value :=
  (s.contents.live.foldl (fun (seen : List String × List Value) r =>
    let v := Fields.value r.fields field
    if seen.1.contains v.keyText then seen else (v.keyText :: seen.1, v :: seen.2))
    ([], [])).2.reverse

def only (s : Store) (field : String) : List Value :=
  s.contents.live.map fun r => Fields.value r.fields field

def labels (s : Store) (key : String) : List String := s.contents.versions.labels key

def poll (s : Store) (cursor limit : Nat) : List Event := s.feed.poll cursor limit

def subscribe (s : Store) : Nat × Store :=
  let (inbox, feed) := s.feed.subscribe
  (inbox, { s with feed := feed })

def drain (s : Store) (inbox : Nat) : Option (List Event) × Store :=
  let (events, feed) := s.feed.drain inbox
  (events, { s with feed := feed })

end Store
end IndexedStore
