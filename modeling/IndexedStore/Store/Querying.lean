import IndexedStore.Query.Plan
import IndexedStore.Sorting.Buckets
import IndexedStore.Store.Basic

/-!
Queries and sorted views of a store.
-/
namespace IndexedStore.Store

/-- The value of a job over some records, counted by where it runs, which depends on their
number. -/
def offloaded {α : Type} (s : Store) (w : World) (records : Nat) (fails : Bool)
    (make : Unit → α) : α × Store × World :=
  let (x, path, workers) :=
    w.workers.run (s.pooled && s.config.offloadThreshold ≤ records) fails make
  let w := { w with workers := workers }
  match path with
  | .worker =>
    (x, { s with stats.workerDispatches := s.stats.workerDispatches + 1 }, w)
  | .fallback =>
    (x, { s with
      stats.workerDispatches := s.stats.workerDispatches + 1,
      stats.workerFallbacks := s.stats.workerFallbacks + 1 }, w)
  | .inline => (x, s, w)

def admitted (s : Store) (w : World) (q : Where) : Outcome (List Snapshot) :=
  s.usable w <|
    match q.compile with
    | .error fault => ⟨.error (.invalidArguments fault), s, w⟩
    | .ok condition =>
      match Plan.choose q s.contents.catalog with
      | .lookup signature bucket =>
        let found := s.contents.snapshotsAt (s.contents.catalog.lookup signature bucket)
        ⟨.ok found, { s with stats.indexLookups := s.stats.indexLookups + 1 }, w⟩
      | .scan =>
        let records := s.contents.snapshots
        let s := { s with stats.scans := s.stats.scans + 1 }
        let (found, s, w) := s.offloaded w records.length (Plan.scanFaults condition records)
          fun _ => Plan.scanned condition records
        ⟨.ok found, s, w⟩

def select (s : Store) (w : World) (q : Where) : Outcome (List Snapshot) :=
  tracked (s.admitted w q)

def filtered (s : Store) (w : World) (filter : Option Where) : Outcome (List Snapshot) :=
  match filter with
  | some q => s.admitted w q
  | none => ⟨.ok s.contents.snapshots, s, w⟩

def sortedAnew (s : Store) (w : World) (order : SortOrder) (filter : Option Where)
    (viewKey : Option String) : Outcome (List Snapshot) :=
  let o := s.filtered w filter
  match o.result with
  | .error error => ⟨.error error, o.store, o.world⟩
  | .ok records =>
    let s := { o.store with stats.sorts := o.store.stats.sorts + 1 }
    if records.isEmpty then ⟨.ok [], s, o.world⟩
    else
      let (sorted, s, w) := s.offloaded o.world records.length false
        fun _ => Sorting.bucketSort order records
      let views := match viewKey with
        | some key => s.views.put key s.revision sorted
        | none => s.views
      ⟨.ok sorted, { s with views := views }, w⟩

/-- The view that is kept for the present revision, unless views are to be made anew. -/
def keptView? (s : Store) (viewKey : Option String) (anew : Bool) : Option (List Snapshot) :=
  if anew then none else viewKey.bind fun key => s.views.get? key s.revision

def sort (s : Store) (w : World) (order : SortOrder) (filter : Option Where) (anew : Bool) :
    Outcome (List Snapshot) :=
  tracked <| s.usable w <|
    let viewKey := ViewCache.keyFor order filter
    let s := if anew then s.dropViews else s
    match s.keptView? viewKey anew with
    | some records =>
      ⟨.ok records, { s with stats.viewHits := s.stats.viewHits + 1 }, w⟩
    | none => s.sortedAnew w order filter viewKey

end IndexedStore.Store
