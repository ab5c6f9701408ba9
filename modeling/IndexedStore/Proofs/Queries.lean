import IndexedStore.Proofs.BucketOrder
import IndexedStore.Proofs.Bulk

/-!
What reads, queries and sorted views answer, as functions of the contents alone, and what they
leave as it was. Only sorting touches anything beyond the counts, and it touches the kept views.
-/
namespace IndexedStore

namespace Contents

def admitted (c : Contents) (q : Where) : Except StoreError (List Snapshot) :=
  match q.compile with
  | .error fault => .error (.invalidArguments fault)
  | .ok condition =>
    match Plan.choose q c.catalog with
    | .lookup signature bucket => .ok (c.snapshotsAt (c.catalog.lookup signature bucket))
    | .scan => .ok (Plan.scanned condition c.snapshots)

def filtered (c : Contents) : Option Where → Except StoreError (List Snapshot)
  | some q => c.admitted q
  | none => .ok c.snapshots

def sorted (c : Contents) (order : SortOrder) (filter : Option Where) :
    Except StoreError (List Snapshot) :=
  (c.filtered filter).map (Sorting.bucketSort order)

end Contents

namespace Sorting

variable {r : Snapshot}

/-- Sorting loses no record and makes up none. -/
theorem mem_bucketSort (order : SortOrder) (records : List Snapshot) :
    r ∈ bucketSort order records ↔ r ∈ records :=
  (stableSort_bucketSort order records).perm.mem_iff

end Sorting

/-- A job has the same value on every path, and its path does not depend on the value. -/
theorem Workers.run_eq {α : Type} (w : Workers) (hasPool fails : Bool) (make : Unit → α) :
    w.run hasPool fails make = (make (), w.offload hasPool fails) := by
  unfold offload run attempt
  split_ifs with hinline
  · rfl
  · cases fails || w.losses.headD false <;> rfl

namespace Store

variable {s s' : Store} {w : World}

/-! ### Reads -/

theorem get_alike (hs : s.poisoned = false) (selector : Selector) :
    (s.get w selector).result = s.selected selector ∧ s.Alike (s.get w selector).store := by
  unfold get
  rw [usable_eq hs, tracked_result]
  have hcounted : s.Alike { s with stats.reads := s.stats.reads + 1 } :=
    ⟨rfl, rfl, rfl, rfl, rfl, rfl⟩
  exact ⟨rfl, hcounted.trans (tracked_alike (⟨s.selected selector, _, w⟩ : Outcome _))⟩

theorem record_alike (hs : s.poisoned = false) (key : String) :
    s.Alike (s.record w key).store := by
  have halike := (get_alike (w := w) hs (.key key)).2
  unfold record
  dsimp only
  split
  · exact halike
  · exact halike
  · exact halike

/-! ### Queries -/

/-- The value of a job is had wherever it runs, and only the counts of jobs are touched. -/
theorem offloaded_spec {α : Type} (s : Store) (w : World) (records : Nat) (fails : Bool)
    (make : Unit → α) :
    (s.offloaded w records fails make).1 = make () ∧
      s.Alike (s.offloaded w records fails make).2.1 := by
  unfold offloaded
  rw [Workers.run_eq]
  generalize w.workers.offload (s.pooled && s.config.offloadThreshold ≤ records) fails = job
  obtain ⟨path, workers⟩ := job
  cases path with
  | worker => exact ⟨rfl, rfl, rfl, rfl, rfl, rfl, rfl⟩
  | fallback => exact ⟨rfl, rfl, rfl, rfl, rfl, rfl, rfl⟩
  | «inline» => exact ⟨rfl, Alike.refl s⟩

theorem admitted_spec (hs : s.poisoned = false) (q : Where) :
    (s.admitted w q).result = s.contents.admitted q ∧ s.Alike (s.admitted w q).store := by
  unfold admitted Contents.admitted
  rw [usable_eq hs]
  cases q.compile with
  | error fault => exact ⟨rfl, Alike.refl s⟩
  | ok condition =>
    dsimp only
    cases Plan.choose q s.contents.catalog with
    | lookup signature bucket => exact ⟨rfl, rfl, rfl, rfl, rfl, rfl, rfl⟩
    | scan =>
      have hcounted : s.Alike { s with stats.scans := s.stats.scans + 1 } :=
        ⟨rfl, rfl, rfl, rfl, rfl, rfl⟩
      obtain ⟨hfound, halike⟩ := offloaded_spec { s with stats.scans := s.stats.scans + 1 } w
        s.contents.snapshots.length (Plan.scanFaults condition s.contents.snapshots)
        fun _ => Plan.scanned condition s.contents.snapshots
      exact ⟨congrArg Except.ok hfound, hcounted.trans halike⟩

theorem select_spec (hs : s.poisoned = false) (q : Where) :
    (s.select w q).result = s.contents.admitted q ∧ s.Alike (s.select w q).store := by
  obtain ⟨hresult, halike⟩ := admitted_spec (w := w) hs q
  unfold select
  rw [tracked_result]
  exact ⟨hresult, halike.trans (tracked_alike _)⟩

theorem filtered_spec (hs : s.poisoned = false) (filter : Option Where) :
    (s.filtered w filter).result = s.contents.filtered filter ∧
      s.Alike (s.filtered w filter).store := by
  cases filter with
  | none => exact ⟨rfl, Alike.refl s⟩
  | some q => exact admitted_spec hs q

/-! ### Sorted views -/

/-- Sorting anew keeps the sorted view under its key, unless there is nothing to sort. -/
theorem sortedAnew_spec (hs : s.poisoned = false) (order : SortOrder) (filter : Option Where)
    (viewKey : Option String) :
    (s.sortedAnew w order filter viewKey).result = s.contents.sorted order filter ∧
    ((s.Alike (s.sortedAnew w order filter viewKey).store ∧
        (viewKey = none ∨ ∀ records, s.contents.sorted order filter = .ok records →
          records = [])) ∨
      ∃ key records, viewKey = some key ∧ s.contents.sorted order filter = .ok records ∧
        records ≠ [] ∧
        ({ s with views := s.views.put key s.revision records } : Store).Alike
          (s.sortedAnew w order filter viewKey).store) := by
  obtain ⟨hresult, halike⟩ := filtered_spec (w := w) hs filter
  unfold sortedAnew Contents.sorted
  rw [← hresult]
  generalize s.filtered w filter = o at halike
  cases hfound : o.result with
  | error e =>
    dsimp only
    rw [hfound]
    exact ⟨rfl, Or.inl ⟨halike, Or.inr fun _ h => absurd h (by simp [Except.map])⟩⟩
  | ok records =>
    dsimp only
    rw [hfound]
    have hcounted : o.store.Alike
        { o.store with stats.sorts := o.store.stats.sorts + 1 } := ⟨rfl, rfl, rfl, rfl, rfl, rfl⟩
    cases records with
    | nil =>
      exact ⟨rfl, Or.inl ⟨halike.trans hcounted, Or.inr fun _ h => (Except.ok.inj h).symm⟩⟩
    | cons r rest =>
      obtain ⟨hsorted, hjob⟩ := offloaded_spec
        { o.store with stats.sorts := o.store.stats.sorts + 1 } o.world (r :: rest).length false
        fun _ => Sorting.bucketSort order (r :: rest)
      have hoffloaded := (halike.trans hcounted).trans hjob
      refine ⟨congrArg Except.ok hsorted, ?_⟩
      cases viewKey with
      | none => exact Or.inl ⟨hoffloaded, Or.inl rfl⟩
      | some key =>
        have hsome : Sorting.bucketSort order (r :: rest) ≠ [] := List.ne_nil_of_mem
          ((Sorting.mem_bucketSort order (r :: rest)).mpr (List.mem_cons_self ..))
        refine Or.inr ⟨key, _, rfl, rfl, hsome, hoffloaded.config, hoffloaded.contents, ?_,
          hoffloaded.feed, hoffloaded.poisoned, hoffloaded.remote⟩
        change ViewCache.put _ key (Contents.revision _) _ =
          ViewCache.put _ key (Contents.revision _) _
        rw [hsorted, hoffloaded.views, hoffloaded.contents]

def viewsBefore (s : Store) (anew : Bool) : ViewCache := if anew then .empty else s.views

/-- A sort gives out a view that is kept for the present revision, or sorts anew and keeps the
view, unless it has no key or no records. -/
theorem sort_cases (hs : s.poisoned = false) (order : SortOrder) (filter : Option Where)
    (anew : Bool) :
    (∃ key records, anew = false ∧ ViewCache.keyFor order filter = some key ∧
      s.views.get? key s.revision = some records ∧
      (s.sort w order filter anew).result = .ok records ∧
      s.Alike (s.sort w order filter anew).store) ∨
    (s.keptView? (ViewCache.keyFor order filter) anew = none ∧
      (s.sort w order filter anew).result = s.contents.sorted order filter ∧
      ((({ s with views := s.viewsBefore anew } : Store).Alike
          (s.sort w order filter anew).store ∧
        (ViewCache.keyFor order filter = none ∨
          ∀ records, s.contents.sorted order filter = .ok records → records = [])) ∨
      ∃ key records, ViewCache.keyFor order filter = some key ∧
        s.contents.sorted order filter = .ok records ∧ records ≠ [] ∧
        ({ s with views := (s.viewsBefore anew).put key s.revision records } : Store).Alike
          (s.sort w order filter anew).store)) := by
  have hbefore : (if anew then s.dropViews else s) =
      { s with views := s.viewsBefore anew } := by
    unfold viewsBefore
    split_ifs <;> rfl
  have hkept : ({ s with views := s.viewsBefore anew } : Store).keptView?
      (ViewCache.keyFor order filter) anew =
        s.keptView? (ViewCache.keyFor order filter) anew := by
    unfold keptView? viewsBefore
    split_ifs <;> rfl
  unfold sort
  rw [usable_eq hs, tracked_result]
  dsimp only
  rw [hbefore, hkept]
  cases hview : s.keptView? (ViewCache.keyFor order filter) anew with
  | some records =>
    left
    unfold keptView? at hview
    split_ifs at hview with hanew
    obtain ⟨key, hkey, hget⟩ := Option.bind_eq_some_iff.mp hview
    refine ⟨key, records, by simpa using hanew, hkey, hget, rfl, ?_⟩
    have hviews : s.viewsBefore anew = s.views := by
      unfold viewsBefore
      rw [if_neg hanew]
    rw [hviews]
    have hcounted : s.Alike { s with stats.viewHits := s.stats.viewHits + 1 } :=
      ⟨rfl, rfl, rfl, rfl, rfl, rfl⟩
    exact hcounted.trans (tracked_alike (⟨.ok records, _, w⟩ : Outcome (List Snapshot)))
  | none =>
    right
    obtain ⟨hresult, hstore⟩ := sortedAnew_spec (s := { s with views := s.viewsBefore anew })
      (w := w) hs order filter (ViewCache.keyFor order filter)
    have htracked := tracked_alike (({ s with views := s.viewsBefore anew } : Store).sortedAnew w
      order filter (ViewCache.keyFor order filter))
    refine ⟨rfl, hresult, ?_⟩
    rcases hstore with ⟨halike, hnothing⟩ | ⟨key, records, hkey, hsorted, hsome, halike⟩
    · exact Or.inl ⟨halike.trans htracked, hnothing⟩
    · exact Or.inr ⟨key, records, hkey, hsorted, hsome, halike.trans htracked⟩

end Store
end IndexedStore
