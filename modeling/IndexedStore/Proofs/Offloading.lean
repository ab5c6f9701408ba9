import IndexedStore.Proofs.Selection
import IndexedStore.Proofs.WorkerSetups

/-!
Work handed to worker threads. Two runs that differ at most in what has to do with workers give
the same answers and end the same but for the counts of jobs, for a query gives what it would
give without workers wherever its jobs run. The first job that a worker loses is the last one
that a worker gets.
-/
namespace IndexedStore

/-! ### Predicates that make no job fail -/

def Predicate.reliable (p : Predicate) : Predicate := { p with faulty := false }

def Clause.reliable : Clause → Clause
  | .equals expected => .equals expected
  | .satisfies p => .satisfies p.reliable

namespace Where

def reliable (q : Where) : Where := ⟨q.clauses.map fun e => (e.1, e.2.reliable)⟩

/-- What is read off each clause without regard to failures stays the same. -/
theorem map_reliable {β : Type} (g : String × Clause → β)
    (hg : ∀ field p, g (field, .satisfies p.reliable) = g (field, .satisfies p)) (q : Where) :
    q.reliable.clauses.map g = q.clauses.map g := by
  unfold reliable
  rw [List.map_map]
  refine List.map_congr_left fun e _ => ?_
  obtain ⟨field, clause⟩ := e
  cases clause with
  | equals expected => rfl
  | satisfies p => exact hg field p

theorem any_reliable (g : String × Clause → Bool)
    (hg : ∀ field p, g (field, .satisfies p.reliable) = g (field, .satisfies p)) (q : Where) :
    q.reliable.clauses.any g = q.clauses.any g := by
  have hany := congrArg (List.any · id) (map_reliable g hg q)
  simp only [List.any_map] at hany
  exact hany

theorem fault?_reliable (q : Where) : q.reliable.fault? = q.fault? := by
  have hempty : q.reliable.clauses.isEmpty = q.clauses.isEmpty := List.isEmpty_map
  have hfield : (q.reliable.clauses.any fun e => e.1.isEmpty) =
      q.clauses.any fun e => e.1.isEmpty := any_reliable _ (fun _ _ => rfl) q
  unfold fault?
  rw [hempty, hfield]

theorem hasPredicates_reliable (q : Where) : q.reliable.hasPredicates = q.hasPredicates :=
  any_reliable _ (fun _ _ => rfl) q

theorem signature_reliable (q : Where) : q.reliable.signature = q.signature :=
  congrArg Bucket.signature (map_reliable Prod.fst (fun _ _ => rfl) q)

theorem bucket_reliable (q : Where) : q.reliable.bucket = q.bucket :=
  congrArg (fun parts => String.ofList (Bucket.joined parts)) (map_reliable _ (fun _ _ => rfl) q)

theorem cacheKey?_reliable (q : Where) : q.reliable.cacheKey? = q.cacheKey? := by
  have hrequired := congrArg (List.filterMap id) (map_reliable (fun e => match e.2 with
    | .equals expected => some (e.1, expected.toJson)
    | .satisfies _ => none) (fun _ _ => rfl) q)
  rw [List.filterMap_map, List.filterMap_map] at hrequired
  unfold cacheKey?
  rw [hasPredicates_reliable]
  exact congrArg (fun members => if q.hasPredicates then none
    else some (Json.compact (.object members))) hrequired

theorem admits_reliable (q : Where) (fields : Fields) :
    q.reliable.admits fields = q.admits fields := by
  have hall := congrArg (List.all · id) (map_reliable (fun e => match e.2 with
    | .equals expected => expected.looseEq (Fields.value fields e.1)
    | .satisfies p => p.test (Fields.value fields e.1)) (fun _ _ => rfl) q)
  simp only [List.all_map] at hall
  exact hall

/-- A scan finds the same records whether or not its predicates make jobs fail. -/
theorem compile_reliable (q : Where) :
    (∃ fault, q.compile = .error fault ∧ q.reliable.compile = .error fault) ∨
    ∃ condition condition', q.compile = .ok condition ∧ q.reliable.compile = .ok condition' ∧
      ∀ records, Plan.scanned condition' records = Plan.scanned condition records := by
  cases hfault : q.fault? with
  | some fault =>
    left
    refine ⟨fault, ?_, ?_⟩
    · unfold compile
      rw [hfault]
    · unfold compile
      rw [fault?_reliable, hfault]
  | none =>
    right
    obtain ⟨condition, hcompile, hholds⟩ := exists_compile hfault
    obtain ⟨condition', hcompile', hholds'⟩ := exists_compile ((fault?_reliable q).trans hfault)
    refine ⟨condition, condition', hcompile, hcompile', fun records => ?_⟩
    refine List.filter_congr fun r _ => ?_
    rw [hholds, hholds', admits_reliable]

theorem choose_reliable (q : Where) (c : Catalog) :
    Plan.choose q.reliable c = Plan.choose q c := by
  unfold Plan.choose
  rw [hasPredicates_reliable, signature_reliable, bucket_reliable]

end Where

theorem ViewCache.keyFor_reliable (order : SortOrder) (filter : Option Where) :
    keyFor order (filter.map Where.reliable) = keyFor order filter := by
  cases filter with
  | none => rfl
  | some q =>
    unfold keyFor
    rw [Option.map_some]
    dsimp only
    rw [Where.cacheKey?_reliable]

def Operation.reliable : Operation → Operation
  | .select filter => .select filter.reliable
  | .sort order filter anew => .sort order (filter.map Where.reliable) anew
  | operation => operation

/-! ### Stores and worlds without workers -/

def Config.workless (c : Config) : Config := c.withSetup .none

def World.workless (w : World) : World := w.withSetup .none

def Store.workless (s : Store) : Store := s.withSetup .none

def Outcome.workless {α : Type} (o : Outcome α) : Outcome α := o.withSetup .none

namespace Store

variable {α : Type} {s s' : Store} {w w' : World} {operation : Operation}

/-- A job gives its value and touches nothing but what has to do with workers. -/
theorem offloaded_workless (s : Store) (w : World) (records : Nat) (fails : Bool)
    (make : Unit → α) :
    (s.offloaded w records fails make).1 = make () ∧
      (s.offloaded w records fails make).2.1.workless = s.workless ∧
      (s.offloaded w records fails make).2.2.workless = w.workless := by
  unfold offloaded
  rw [Workers.run_eq]
  generalize w.workers.offload _ fails = job
  obtain ⟨path, workers⟩ := job
  cases path <;> exact ⟨rfl, rfl, rfl⟩

theorem tracked_workless (o : Outcome α) : (tracked o).workless = tracked o.workless :=
  tracked_withSetup .none o

theorem usable_workless (s : Store) (w : World) (run : Outcome α) :
    (s.usable w run).workless = s.workless.usable w.workless run.workless :=
  usable_withSetup s w .none run

/-- A scan gives the same records wherever it runs. -/
theorem admitted_workless (s : Store) (w : World) (q : Where) :
    (s.admitted w q).workless = (s.workless.admitted w.workless q.reliable).workless := by
  unfold admitted
  rw [usable_workless, usable_workless]
  congr 1
  have hcontents : s.workless.contents = s.contents := rfl
  rcases q.compile_reliable with ⟨fault, hq, hq'⟩ | ⟨condition, condition', hq, hq', hscanned⟩
  · rw [hq, hq']
    rfl
  rw [hq, hq']
  dsimp only
  rw [Where.choose_reliable, hcontents]
  cases Plan.choose q s.contents.catalog with
  | lookup signature bucket => rfl
  | scan =>
    obtain ⟨hfound, hstore, hworld⟩ := offloaded_workless
      { s with stats.scans := s.stats.scans + 1 } w s.contents.snapshots.length
      (Plan.scanFaults condition s.contents.snapshots)
      fun _ => Plan.scanned condition s.contents.snapshots
    obtain ⟨hfound', hstore', hworld'⟩ := offloaded_workless
      { s.workless with stats.scans := s.workless.stats.scans + 1 } w.workless
      s.contents.snapshots.length (Plan.scanFaults condition' s.contents.snapshots)
      fun _ => Plan.scanned condition' s.contents.snapshots
    have hsame := hfound.trans ((hscanned _).symm.trans hfound'.symm)
    exact (Outcome.mk.injEq ..).mpr
      ⟨congrArg Except.ok hsame, hstore.trans hstore'.symm, hworld.trans hworld'.symm⟩

theorem filtered_workless (s : Store) (w : World) (filter : Option Where) :
    (s.filtered w filter).workless =
      (s.workless.filtered w.workless (filter.map Where.reliable)).workless := by
  cases filter with
  | none => rfl
  | some q => exact admitted_workless s w q

/-- A view is kept whether or not a worker has sorted it. -/
theorem sortedAnew_workless (s : Store) (w : World) (order : SortOrder) (filter : Option Where)
    (viewKey : Option String) :
    (s.sortedAnew w order filter viewKey).workless =
      (s.workless.sortedAnew w.workless order (filter.map Where.reliable) viewKey).workless := by
  have hfiltered := filtered_workless s w filter
  unfold sortedAnew
  generalize s.filtered w filter = o at hfiltered
  generalize s.workless.filtered w.workless (filter.map Where.reliable) = o' at hfiltered
  obtain ⟨result, t, v⟩ := o
  obtain ⟨result', t', v'⟩ := o'
  obtain ⟨rfl, hstore, hworld⟩ := Outcome.mk.inj hfiltered
  cases result with
  | error e => exact hfiltered
  | ok records =>
    have hcounted : ({ t with stats.sorts := t.stats.sorts + 1 } : Store).workless =
        ({ t' with stats.sorts := t'.stats.sorts + 1 } : Store).workless :=
      congrArg (fun t : Store => ({ t with stats.sorts := t.stats.sorts + 1 } : Store)) hstore
    dsimp only
    split_ifs
    · exact (Outcome.mk.injEq ..).mpr ⟨rfl, hcounted, hworld⟩
    · obtain ⟨hsorted, hjob, hleft⟩ := offloaded_workless
        { t with stats.sorts := t.stats.sorts + 1 } v records.length false
        fun _ => Sorting.bucketSort order records
      obtain ⟨hsorted', hjob', hleft'⟩ := offloaded_workless
        { t' with stats.sorts := t'.stats.sorts + 1 } v' records.length false
        fun _ => Sorting.bucketSort order records
      rw [hsorted, hsorted']
      have hsame := (hjob.trans hcounted).trans hjob'.symm
      have hworlds := (hleft.trans hworld).trans hleft'.symm
      cases viewKey with
      | none => exact (Outcome.mk.injEq ..).mpr ⟨rfl, hsame, hworlds⟩
      | some key =>
        have hviews := congrArg (fun t : Store => ({ t with
          views := t.views.put key t.revision (Sorting.bucketSort order records) } : Store)) hsame
        exact (Outcome.mk.injEq ..).mpr ⟨rfl, hviews, hworlds⟩

theorem sort_workless (s : Store) (w : World) (order : SortOrder) (filter : Option Where)
    (anew : Bool) :
    (s.sort w order filter anew).workless =
      (s.workless.sort w.workless order (filter.map Where.reliable) anew).workless := by
  unfold sort
  rw [tracked_workless, tracked_workless, usable_workless, usable_workless,
    ViewCache.keyFor_reliable]
  congr 2
  have hbefore : (if anew then s.workless.dropViews else s.workless) =
      (if anew then s.dropViews else s).workless := by
    cases anew <;> rfl
  dsimp only
  rw [hbefore]
  generalize (if anew then s.dropViews else s) = t
  have hkept : ∀ viewKey, t.workless.keptView? viewKey anew = t.keptView? viewKey anew :=
    fun _ => rfl
  rw [hkept]
  cases t.keptView? (ViewCache.keyFor order filter) anew with
  | some records => rfl
  | none => exact sortedAnew_workless t w order filter _

/-- An operation does the same without workers. -/
theorem perform_workless (s : Store) (w : World) (operation : Operation) :
    (s.perform w operation).workless =
      (s.workless.perform w.workless operation.reliable).workless := by
  cases hop : operation.offloads with
  | false =>
    have hreliable : operation.reliable = operation := by
      cases operation with
      | select _ | sort => exact absurd hop (by simp [Operation.offloads])
      | _ => rfl
    have hsame : (s.perform w operation).workless = s.workless.perform w.workless operation :=
      perform_withSetup hop .none
    rw [hreliable, ← hsame]
    rfl
  | true =>
    cases operation with
    | select filter =>
      have hselect : (s.select w filter).workless =
          (s.workless.select w.workless filter.reliable).workless := by
        unfold select
        rw [tracked_workless, tracked_workless, admitted_workless]
      exact congrArg (Outcome.map _) hselect
    | sort order filter anew => exact congrArg (Outcome.map _) (sort_workless s w order filter anew)
    | _ => exact absurd hop (by simp [Operation.offloads])

/-! ### Two runs -/

def stepWorkless (step : World × Operation) : World × Operation :=
  (step.1.workless, step.2.reliable)

def trace (s : Store) : List (World × Operation) → List (Except StoreError Answer × World)
  | [] => []
  | (w, operation) :: rest =>
    let o := s.perform w operation
    (o.result, o.world.workless) :: o.store.trace rest

/-- Two stores that differ at most in what has to do with workers stay so, and answer alike. -/
theorem runs_alike {steps steps' : List (World × Operation)} (h : s'.workless = s.workless)
    (hsteps : steps'.map stepWorkless = steps.map stepWorkless) :
    s'.trace steps' = s.trace steps ∧ (s'.after steps').workless = (s.after steps).workless := by
  induction steps generalizing s s' steps' with
  | nil =>
    obtain rfl := List.map_eq_nil_iff.mp hsteps
    exact ⟨rfl, h⟩
  | cons step rest ih =>
    obtain ⟨step', rest', rfl, hstep, hrest⟩ := List.map_eq_cons_iff.mp hsteps
    obtain ⟨hworld, hoperation⟩ := Prod.mk.inj hstep
    have hsame : (s'.perform step'.1 step'.2).workless = (s.perform step.1 step.2).workless := by
      rw [perform_workless, perform_workless s, h, hworld, hoperation]
    obtain ⟨hresult, hstore, hleft⟩ := Outcome.mk.inj hsame
    obtain ⟨htrace, hafter⟩ := ih hstore hrest
    exact ⟨congrArg₂ List.cons (Prod.ext hresult hleft) htrace, hafter⟩

theorem build_workless (config : Config) (remote : Option Http.Collection) (w : World) :
    (build config remote w).1.map workless =
        (build config.workless remote w.workless).1.map workless ∧
      (build config remote w).2.workless = w.workless := by
  unfold build
  have hdeclared : (Contents.empty config.workless.versionLimit).declareIndexes
      config.workless.indexes =
      (Contents.empty config.versionLimit).declareIndexes config.indexes := rfl
  rw [hdeclared]
  cases (Contents.empty config.versionLimit).declareIndexes config.indexes <;> exact ⟨rfl, rfl⟩

theorem make_workless {make : Config → World → Except StoreError Store × World}
    (hmake : make = create ∨ make = createRemote) (config : Config) (w : World) :
    (make config w).1.map workless = (make config.workless w.workless).1.map workless ∧
      (make config w).2.workless = w.workless := by
  rcases hmake with rfl | rfl
  · exact build_workless config none w
  · unfold createRemote
    have huri : config.workless.uri = config.uri := rfl
    rw [huri]
    cases config.uri with
    | none => exact ⟨rfl, rfl⟩
    | some uri => exact build_workless config _ w

end Store

/-! ### The paths of jobs -/

namespace Workers

variable {w w' w'' : Workers} {jobs jobs' : List JobPath}

/-- How jobs, the latest first, may lead from one state of the workers to another. -/
structure Runs (w w' : Workers) (jobs : List JobPath) : Prop where
  paths : w'.paths = jobs ++ w.paths
  idle : w.disabled = true → w'.disabled = true ∧ ∀ path ∈ jobs, path = .inline
  givenUp : .fallback ∈ jobs → w'.disabled = true
  ordered : jobs.Pairwise fun later earlier => earlier = .fallback → later = .inline

theorem Runs.refl (w : Workers) : w.Runs w [] :=
  ⟨rfl, fun h => ⟨h, fun _ hpath => absurd hpath List.not_mem_nil⟩,
    fun h => absurd h List.not_mem_nil, .nil⟩

theorem Runs.trans (h : w.Runs w' jobs) (h' : w'.Runs w'' jobs') : w.Runs w'' (jobs' ++ jobs) := by
  refine ⟨?_, ?_, ?_, ?_⟩
  · rw [h'.paths, h.paths, List.append_assoc]
  · intro hdisabled
    obtain ⟨hmid, hidle⟩ := h.idle hdisabled
    obtain ⟨hlast, hidle'⟩ := h'.idle hmid
    refine ⟨hlast, fun path hpath => ?_⟩
    rcases List.mem_append.mp hpath with hpath | hpath
    · exact hidle' path hpath
    · exact hidle path hpath
  · intro hlost
    rcases List.mem_append.mp hlost with hlost | hlost
    · exact h'.givenUp hlost
    · exact (h'.idle (h.givenUp hlost)).1
  · refine List.pairwise_append.mpr ⟨h'.ordered, h.ordered, ?_⟩
    rintro later hlater earlier hearlier rfl
    exact (h'.idle (h.givenUp hearlier)).2 later hlater

theorem runs_offload (w : Workers) (hasPool fails : Bool) :
    w.Runs (w.offload hasPool fails).2 [(w.offload hasPool fails).1] := by
  unfold offload run attempt logged
  split_ifs with hinline
  · exact ⟨rfl, fun h => ⟨h, by simp⟩, fun h => absurd h (by simp), List.pairwise_singleton _ _⟩
  · have henabled : w.disabled = false := by simp_all
    have hnever : ∀ {p : Prop}, w.disabled = true → p :=
      fun h => absurd (henabled.symm.trans h) (by simp)
    cases fails || w.losses.headD false with
    | true => exact ⟨rfl, hnever, fun _ => rfl, List.pairwise_singleton _ _⟩
    | false => exact ⟨rfl, hnever, fun h => absurd h (by simp), List.pairwise_singleton _ _⟩

theorem runs_shared (w : Workers) (threads : Nat) : w.Runs (w.shared threads).2 [] := by
  unfold shared
  split_ifs with hdisabled
  · exact Runs.refl w
  · exact ⟨rfl, fun h => absurd h hdisabled, fun h => absurd h List.not_mem_nil, .nil⟩
  · exact ⟨rfl, fun h => absurd h hdisabled, fun h => absurd h List.not_mem_nil, .nil⟩

end Workers

namespace Store

variable {α : Type} {s t : Store} {w v : World} {operation : Operation} {jobs jobs' : List JobPath}

/-- The jobs that lead from a store and its world to others: workers run them, and the store
counts those that were handed out and those that were lost. -/
structure Delegates (s : Store) (w : World) (t : Store) (v : World) (jobs : List JobPath) :
    Prop where
  runs : w.workers.Runs v.workers jobs
  dispatches : t.stats.workerDispatches =
    s.stats.workerDispatches + jobs.countP fun path => path != .inline
  fallbacks : t.stats.workerFallbacks = s.stats.workerFallbacks + jobs.count .fallback

theorem delegates_nothing (h : t.setup v = s.setup w) : s.Delegates w t v [] := by
  obtain ⟨-, -, -, -, hdispatches, hfallbacks, hworkers⟩ := WorkerSetup.mk.inj h
  refine ⟨?_, hdispatches, hfallbacks⟩
  rw [hworkers]
  exact .refl w.workers

theorem Delegates.trans {u : Store} {x : World} (h : s.Delegates w t v jobs)
    (h' : t.Delegates v u x jobs') : s.Delegates w u x (jobs' ++ jobs) := by
  refine ⟨h.runs.trans h'.runs, ?_, ?_⟩
  · rw [h'.dispatches, h.dispatches, List.countP_append]
    omega
  · rw [h'.fallbacks, h.fallbacks, List.count_append]
    omega

theorem delegates_offloaded (s : Store) (w : World) (records : Nat) (fails : Bool)
    (make : Unit → α) :
    ∃ path, s.Delegates w (s.offloaded w records fails make).2.1
      (s.offloaded w records fails make).2.2 [path] := by
  unfold offloaded
  rw [Workers.run_eq]
  have hruns := w.workers.runs_offload (s.pooled && s.config.offloadThreshold ≤ records) fails
  generalize w.workers.offload (s.pooled && s.config.offloadThreshold ≤ records) fails = job
    at hruns
  obtain ⟨path, workers⟩ := job
  cases path with
  | worker => exact ⟨.worker, hruns, rfl, rfl⟩
  | fallback => exact ⟨.fallback, hruns, rfl, rfl⟩
  | «inline» => exact ⟨.inline, hruns, rfl, rfl⟩

/-- The jobs of a run that may not take place. -/
theorem delegates_usable {run : Outcome α} (h : ∃ jobs, s.Delegates w run.store run.world jobs) :
    ∃ jobs, s.Delegates w (s.usable w run).store (s.usable w run).world jobs := by
  unfold usable
  split_ifs
  · exact ⟨[], delegates_nothing rfl⟩
  · exact h

theorem delegates_tracked {o : Outcome α} (h : ∃ jobs, s.Delegates w o.store o.world jobs) :
    ∃ jobs, s.Delegates w (tracked o).store (tracked o).world jobs := by
  obtain ⟨jobs, h⟩ := h
  obtain ⟨result, t, v⟩ := o
  cases result with
  | ok x => exact ⟨jobs, h⟩
  | error e => exact ⟨jobs, h.runs, h.dispatches, h.fallbacks⟩

theorem delegates_admitted (s : Store) (w : World) (q : Where) :
    ∃ jobs, s.Delegates w (s.admitted w q).store (s.admitted w q).world jobs := by
  refine delegates_usable ?_
  cases q.compile with
  | error fault => exact ⟨[], delegates_nothing rfl⟩
  | ok condition =>
    dsimp only
    cases Plan.choose q s.contents.catalog with
    | lookup signature bucket => exact ⟨[], delegates_nothing rfl⟩
    | scan =>
      obtain ⟨path, hruns, hdispatches, hfallbacks⟩ := delegates_offloaded
        { s with stats.scans := s.stats.scans + 1 } w s.contents.snapshots.length
        (Plan.scanFaults condition s.contents.snapshots)
        fun _ => Plan.scanned condition s.contents.snapshots
      exact ⟨[path], hruns, hdispatches, hfallbacks⟩

theorem delegates_sortedAnew (s : Store) (w : World) (order : SortOrder) (filter : Option Where)
    (viewKey : Option String) :
    ∃ jobs, s.Delegates w (s.sortedAnew w order filter viewKey).store
      (s.sortedAnew w order filter viewKey).world jobs := by
  have hfiltered : ∃ jobs, s.Delegates w (s.filtered w filter).store (s.filtered w filter).world
      jobs := by
    cases filter with
    | none => exact ⟨[], delegates_nothing rfl⟩
    | some q => exact delegates_admitted s w q
  obtain ⟨jobs, hfiltered⟩ := hfiltered
  unfold sortedAnew
  generalize s.filtered w filter = o at hfiltered
  obtain ⟨result, t, v⟩ := o
  cases result with
  | error e => exact ⟨jobs, hfiltered⟩
  | ok records =>
    have hcounted : s.Delegates w { t with stats.sorts := t.stats.sorts + 1 } v jobs :=
      ⟨hfiltered.runs, hfiltered.dispatches, hfiltered.fallbacks⟩
    dsimp only
    split_ifs
    · exact ⟨jobs, hcounted⟩
    · obtain ⟨path, hjob⟩ := delegates_offloaded { t with stats.sorts := t.stats.sorts + 1 } v
        records.length false fun _ => Sorting.bucketSort order records
      obtain ⟨hruns, hdispatches, hfallbacks⟩ := hcounted.trans hjob
      exact ⟨_, hruns, hdispatches, hfallbacks⟩

theorem delegates_sort (s : Store) (w : World) (order : SortOrder) (filter : Option Where)
    (anew : Bool) :
    ∃ jobs, s.Delegates w (s.sort w order filter anew).store (s.sort w order filter anew).world
      jobs := by
  refine delegates_tracked (delegates_usable ?_)
  dsimp only
  have hbefore : (if anew then s.dropViews else s).setup w = s.setup w := by
    cases anew <;> rfl
  generalize (if anew then s.dropViews else s) = t at hbefore
  cases t.keptView? (ViewCache.keyFor order filter) anew with
  | some records => exact ⟨[], delegates_nothing hbefore⟩
  | none =>
    obtain ⟨jobs, hjobs⟩ := delegates_sortedAnew t w order filter (ViewCache.keyFor order filter)
    exact ⟨_, (delegates_nothing hbefore).trans hjobs⟩

/-- An operation hands out jobs in order, and counts them. -/
theorem delegates_perform (s : Store) (w : World) (operation : Operation) :
    ∃ jobs, s.Delegates w (s.perform w operation).store (s.perform w operation).world jobs := by
  cases hop : operation.offloads with
  | false => exact ⟨[], delegates_nothing (perform_setup hop)⟩
  | true =>
    cases operation with
    | select filter => exact delegates_tracked (delegates_admitted s w filter)
    | sort order filter anew => exact delegates_sort s w order filter anew
    | _ => exact absurd hop (by simp [Operation.offloads])

end Store

inductive Task where
  | create (config : Config) (w : World)
  | createRemote (config : Config) (w : World)
  | perform (s : Store) (w : World) (operation : Operation)

namespace Workers

def done (workers : Workers) : Task → Workers
  | .create config w => (Store.create config { w with workers := workers }).2.workers
  | .createRemote config w => (Store.createRemote config { w with workers := workers }).2.workers
  | .perform s w operation => (s.perform { w with workers := workers } operation).world.workers

def afterTasks (workers : Workers) (tasks : List Task) : Workers := tasks.foldl done workers

theorem runs_build (config : Config) (remote : Option Http.Collection) (w : World) :
    w.workers.Runs (Store.build config remote w).2.workers [] := by
  unfold Store.build
  cases (Contents.empty config.versionLimit).declareIndexes config.indexes with
  | error fault => exact .refl w.workers
  | ok contents =>
    dsimp only
    split_ifs
    · exact runs_shared w.workers config.workerThreads
    · exact .refl w.workers

theorem runs_createRemote (config : Config) (w : World) :
    w.workers.Runs (Store.createRemote config w).2.workers [] := by
  unfold Store.createRemote
  cases config.uri with
  | none => exact .refl w.workers
  | some uri => exact runs_build config _ w

theorem exists_runs_done (workers : Workers) (task : Task) :
    ∃ jobs, workers.Runs (workers.done task) jobs := by
  cases task with
  | create config w => exact ⟨[], runs_build config none { w with workers := workers }⟩
  | createRemote config w => exact ⟨[], runs_createRemote config { w with workers := workers }⟩
  | perform s w operation =>
    obtain ⟨jobs, hjobs⟩ := s.delegates_perform { w with workers := workers } operation
    exact ⟨jobs, hjobs.runs⟩

theorem exists_runs_afterTasks (workers : Workers) (tasks : List Task) :
    ∃ jobs, workers.Runs (workers.afterTasks tasks) jobs := by
  induction tasks generalizing workers with
  | nil => exact ⟨[], .refl workers⟩
  | cons task rest ih =>
    obtain ⟨jobs, hjobs⟩ := exists_runs_done workers task
    obtain ⟨jobs', hjobs'⟩ := ih (workers.done task)
    exact ⟨jobs' ++ jobs, hjobs.trans hjobs'⟩

end Workers

namespace Store

/-! ### Workers and what is answered -/

/-- Two stores whose settings differ at most in those of workers, made in worlds that differ at
most in the workers, are both made or both refused. Any operations, their predicates making
whichever jobs fail, in worlds that differ at most in the workers, answer the same on both and do
the same to the worlds, and the stores end the same but for what has to do with workers. In a
process, no job goes to a worker after one was lost; and the jobs of a store are those it
counts. -/
theorem same_with_other_workers {make : Config → World → Except StoreError Store × World}
    (hmake : make = create ∨ make = createRemote) {config config' : Config} {w w' : World}
    (hconfig : config'.workless = config.workless) (hworld : w'.workless = w.workless) :
    ((∀ e, (make config w).1 = .error e → (make config' w').1 = .error e) ∧
      ∀ s, (make config w).1 = .ok s → ∃ s', (make config' w').1 = .ok s' ∧
        ∀ steps steps', steps'.map stepWorkless = steps.map stepWorkless →
          s'.trace steps' = s.trace steps ∧
          (s'.after steps').contents = (s.after steps).contents ∧
          (s'.after steps').feed = (s.after steps).feed ∧
          (s'.after steps').workless = (s.after steps).workless) ∧
    (∀ (workers : Workers) (tasks : List Task), workers.paths = [] →
      (workers.afterTasks tasks).paths.Pairwise
        fun later earlier => earlier = .fallback → later = .inline) ∧
    ∀ (t : Store) (v : World) (operation : Operation),
      let o := t.perform v operation
      ∃ jobs, o.world.workers.paths = jobs ++ v.workers.paths ∧
        o.store.stats.workerDispatches =
          t.stats.workerDispatches + (jobs.countP fun path => path != .inline) ∧
        o.store.stats.workerFallbacks = t.stats.workerFallbacks + jobs.count .fallback := by
  have hmade : (make config' w').1.map workless = (make config w).1.map workless := by
    rw [(make_workless hmake config w).1, (make_workless hmake config' w').1, hconfig, hworld]
  refine ⟨⟨?_, ?_⟩, ?_, ?_⟩
  · intro e he
    rw [he] at hmade
    cases hother : (make config' w').1 with
    | error e' =>
      rw [hother] at hmade
      exact congrArg Except.error (Except.error.inj hmade)
    | ok s' =>
      rw [hother] at hmade
      exact absurd hmade (by simp [Except.map])
  · intro s hs
    rw [hs] at hmade
    cases hother : (make config' w').1 with
    | error e' =>
      rw [hother] at hmade
      exact absurd hmade (by simp [Except.map])
    | ok s' =>
      rw [hother] at hmade
      refine ⟨s', rfl, fun steps steps' hsteps => ?_⟩
      obtain ⟨htrace, hafter⟩ := runs_alike (Except.ok.inj hmade) hsteps
      have hcontents : (s'.after steps').workless.contents = (s.after steps).workless.contents :=
        congrArg Store.contents hafter
      have hfeed : (s'.after steps').workless.feed = (s.after steps).workless.feed :=
        congrArg Store.feed hafter
      exact ⟨htrace, hcontents, hfeed, hafter⟩
  · intro workers tasks hnone
    obtain ⟨jobs, hjobs⟩ := workers.exists_runs_afterTasks tasks
    rw [hjobs.paths, hnone, List.append_nil]
    exact hjobs.ordered
  · intro t v operation
    obtain ⟨jobs, hjobs⟩ := delegates_perform t v operation
    exact ⟨jobs, hjobs.runs.paths, hjobs.dispatches, hjobs.fallbacks⟩

def inlineConfig : Config :=
  { Config.standard with useWorkers := false, workerThreads := 7, offloadThreshold := 3 }

def foundAndSorted (faulty : Bool) (w : World) : List (World × Operation) :=
  [(w, .set (some "r") [("x", .bool true)] ⟨false, false⟩),
    (w, .select ⟨[("x", .satisfies ⟨fun _ => true, faulty⟩)]⟩),
    (w, .sort ⟨[⟨"x", .ascending⟩]⟩ none false)]

def disabledWorld : World := { World.bare with workers := { Workers.fresh with disabled := true } }

/-- A store on which a worker job fails, beside one that has no workers, in a world in which they
have been given up. -/
theorem same_with_failing_worker :
    inlineConfig.workless = Config.standard.workless ∧
      disabledWorld.workless = World.bare.workless ∧
      (plain.after (foundAndSorted true .bare)).stats.workerFallbacks = 1 ∧
      ∃ s', (create inlineConfig disabledWorld).1 = .ok s' ∧
        s'.trace (foundAndSorted false disabledWorld) = plain.trace (foundAndSorted true .bare) ∧
        (s'.after (foundAndSorted false disabledWorld)).stats.workerFallbacks = 0 := by
  have hconfig : inlineConfig.workless = Config.standard.workless := rfl
  have hworld : disabledWorld.workless = World.bare.workless := rfl
  obtain ⟨⟨-, hmade⟩, -, -⟩ := same_with_other_workers (Or.inl rfl) hconfig hworld
  obtain ⟨s', hs', hruns⟩ := hmade plain create_plain
  obtain ⟨htrace, -⟩ := hruns (foundAndSorted true .bare) (foundAndSorted false disabledWorld) rfl
  refine ⟨hconfig, hworld, rfl, s', hs', htrace, ?_⟩
  obtain rfl := Except.ok.inj hs'
  rfl

end Store
end IndexedStore
