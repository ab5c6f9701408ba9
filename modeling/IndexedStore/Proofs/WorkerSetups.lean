import IndexedStore.Proofs.Bulk

/-!
What worker threads bring into a store: some settings, the hold on a pool, and two counts; and
into its world the threads themselves. Operations that hand out no work go their way with any of
this exchanged for something else, and leave it as it is.
-/
namespace IndexedStore

structure WorkerSetup where
  useWorkers : Bool
  workerThreads : Nat
  offloadThreshold : Nat
  pooled : Bool
  dispatches : Nat
  fallbacks : Nat
  workers : Workers

def WorkerSetup.none : WorkerSetup := ⟨false, 0, 0, false, 0, 0, .fresh⟩

def Config.withSetup (c : Config) (f : WorkerSetup) : Config :=
  { c with
    useWorkers := f.useWorkers
    workerThreads := f.workerThreads
    offloadThreshold := f.offloadThreshold }

def World.withSetup (w : World) (f : WorkerSetup) : World := { w with workers := f.workers }

namespace Store

def withSetup (s : Store) (f : WorkerSetup) : Store :=
  { s with
    config := s.config.withSetup f
    stats.workerDispatches := f.dispatches
    stats.workerFallbacks := f.fallbacks
    pooled := f.pooled }

def setup (s : Store) (w : World) : WorkerSetup :=
  ⟨s.config.useWorkers, s.config.workerThreads, s.config.offloadThreshold, s.pooled,
    s.stats.workerDispatches, s.stats.workerFallbacks, w.workers⟩

end Store

def Outcome.withSetup {α : Type} (o : Outcome α) (f : WorkerSetup) : Outcome α :=
  ⟨o.result, o.store.withSetup f, o.world.withSetup f⟩

namespace Store

variable {α : Type} (s : Store) (w : World) (f : WorkerSetup)

@[simp] theorem withSetup_contents : (s.withSetup f).contents = s.contents := rfl

@[simp] theorem withSetup_remote : (s.withSetup f).remote = s.remote := rfl

@[simp] theorem withSetup_poisoned : (s.withSetup f).poisoned = s.poisoned := rfl

theorem tracked_withSetup (o : Outcome α) :
    (tracked o).withSetup f = tracked (o.withSetup f) := by
  obtain ⟨result, s, w⟩ := o
  cases result <;> rfl

theorem usable_withSetup (run : Outcome α) :
    (s.usable w run).withSetup f =
      (s.withSetup f).usable (w.withSetup f) (run.withSetup f) := by
  unfold usable
  rw [withSetup_poisoned]
  split_ifs <;> rfl

/-! ### Reads and single writes -/

theorem declareIndex_withSetup (fields : List String) :
    (s.declareIndex w fields).withSetup f =
      (s.withSetup f).declareIndex (w.withSetup f) fields := by
  unfold declareIndex
  rw [usable_withSetup, tracked_withSetup, withSetup_contents]
  cases s.contents.declareIndex fields <;> rfl

theorem selected_withSetup (selector : Selector) :
    (s.withSetup f).selected selector = s.selected selector := by
  cases selector <;> rfl

theorem get_withSetup (selector : Selector) :
    (s.get w selector).withSetup f = (s.withSetup f).get (w.withSetup f) selector := by
  unfold get
  rw [usable_withSetup, tracked_withSetup, selected_withSetup]
  rfl

theorem record_withSetup (key : String) :
    (s.record w key).withSetup f = (s.withSetup f).record (w.withSetup f) key := by
  unfold record
  rw [← get_withSetup]
  dsimp only
  generalize s.get w (.key key) = o
  obtain ⟨result, s, w⟩ := o
  rcases result with e | _ | _ <;> rfl

theorem remotely_withSetup
    (exchange : Http.Collection → Http.Client → Nat → Http.Exchange Unit) :
    (s.remotely w exchange).withSetup f =
      (s.withSetup f).remotely (w.withSetup f) exchange := by
  unfold remotely
  rw [withSetup_remote]
  cases s.remote <;> rfl

theorem sent_withSetup (batch : Bool)
    (exchange : Http.Collection → Http.Client → Nat → Http.Exchange Unit) :
    (if batch then ⟨.ok (), s.withSetup f, w.withSetup f⟩
      else (s.withSetup f).remotely (w.withSetup f) exchange) =
    (if batch then (⟨.ok (), s, w⟩ : Outcome Unit)
      else s.remotely w exchange).withSetup f := by
  cases batch with
  | true => rfl
  | false => exact (remotely_withSetup s w f exchange).symm

theorem storeLocally_withSetup (key : String) (data : Fields) (options : SetOptions) :
    (s.withSetup f).storeLocally key data options =
      ((s.storeLocally key data options).1,
        (s.storeLocally key data options).2.withSetup f) := by
  unfold storeLocally
  cases options.batch <;> rfl

theorem set_withSetup (given : Option String) (data : Fields) (options : SetOptions) :
    (s.set w given data options).withSetup f =
      (s.withSetup f).set (w.withSetup f) given data options := by
  unfold set
  rw [tracked_withSetup, usable_withSetup]
  congr 2
  dsimp only
  have hkey : (s.withSetup f).chooseKey (w.withSetup f).keys given data =
      s.chooseKey w.keys given data := rfl
  rw [hkey]
  generalize s.chooseKey w.keys given data = chosen
  have hsent : (if options.batch then
      (⟨.ok (), s.withSetup f, { w.withSetup f with keys := chosen.2 }⟩ : Outcome Unit)
      else (s.withSetup f).remotely { w.withSetup f with keys := chosen.2 }
        ((s.withSetup f).remoteSet chosen.1 data options.overwrite)) = _ :=
    sent_withSetup s { w with keys := chosen.2 } f options.batch
      (s.remoteSet chosen.1 data options.overwrite)
  rw [hsent]
  generalize (if options.batch then (_ : Outcome Unit) else _) = sent
  obtain ⟨result, t, v⟩ := sent
  cases result with
  | error e => rfl
  | ok _ =>
    dsimp only [Outcome.withSetup]
    rw [storeLocally_withSetup]

theorem deleteLocally_withSetup (key : String) (options : DeleteOptions) :
    (s.withSetup f).deleteLocally key options =
      ((s.deleteLocally key options).1, (s.deleteLocally key options).2.withSetup f) := by
  unfold deleteLocally deleted
  rw [withSetup_contents]
  cases s.contents.catalog.position? key with
  | none => rfl
  | some position =>
    dsimp only
    cases options.batch with
    | true => rcases s.contents.hollow position with _ | ⟨removed, contents⟩ <;> rfl
    | false =>
      rcases s.contents.cut position with _ | ⟨removed, contents⟩
      · rfl
      · cases options.reindex with
        | false => rfl
        | true =>
          simp only [Bool.false_eq_true, ↓reduceIte]
          cases contents.reindex with
          | error fault => rfl
          | ok built => rfl

theorem delete_withSetup (target : Target) (options : DeleteOptions) :
    (s.delete w target options).withSetup f =
      (s.withSetup f).delete (w.withSetup f) target options := by
  unfold delete
  rw [tracked_withSetup, usable_withSetup, withSetup_contents]
  congr 2
  cases s.contents.find? target with
  | none => rfl
  | some r =>
    dsimp only
    rw [sent_withSetup]
    generalize (if options.batch then (_ : Outcome Unit) else _) = sent
    obtain ⟨result, t, v⟩ := sent
    cases result with
    | error e => rfl
    | ok _ =>
      dsimp only [Outcome.withSetup]
      rw [deleteLocally_withSetup]

theorem undo_withSetup (key : String) (label : Option String) :
    (s.undo w key label).withSetup f = (s.withSetup f).undo (w.withSetup f) key label := by
  unfold undo
  have hfields : (s.withSetup f).undoFields? key label = s.undoFields? key label := rfl
  rw [hfields]
  cases s.undoFields? key label with
  | none => rfl
  | some fields => exact set_withSetup s w f (some key) fields ⟨false, true⟩

theorem reindex_withSetup :
    (s.reindex w).withSetup f = (s.withSetup f).reindex (w.withSetup f) := by
  unfold reindex
  rw [usable_withSetup, withSetup_contents]
  cases s.contents.reindex <;> rfl

/-! ### Batches and loads -/

theorem preparedAll_withSetup (keys : KeySupply) (kind : BatchKind)
    (items : List (Option String × Value)) :
    (s.withSetup f).preparedAll keys kind items = s.preparedAll keys kind items := by
  induction items generalizing keys with
  | nil => rfl
  | cons e rest ih =>
    have hfirst : (s.withSetup f).prepared keys kind e.1 e.2 = s.prepared keys kind e.1 e.2 := rfl
    simp only [preparedAll, ih, hfirst]

theorem applied_withSetup (item : BatchItem) :
    (s.withSetup f).applied item = ((s.applied item).1, (s.applied item).2.withSetup f) := by
  cases item with
  | store key data => rfl
  | remove key =>
    dsimp only [applied]
    rw [withSetup_contents]
    rcases (s.contents.catalog.position? key).bind s.contents.hollow with _ | ⟨_, _⟩ <;> rfl

theorem appliedAll_withSetup (place : Nat) (ready : List (Except StoreError BatchItem)) :
    (s.withSetup f).appliedAll place ready =
      ((s.appliedAll place ready).1, (s.appliedAll place ready).2.withSetup f) := by
  induction ready generalizing s place with
  | nil => rfl
  | cons item rest ih =>
    have hfailed : ∀ t : Store, ({ t.withSetup f with
        stats.errors := (t.withSetup f).stats.errors + 1 } : Store).appliedAll (place + 1) rest =
          _ := fun t => ih { t with stats.errors := t.stats.errors + 1 } (place + 1)
    cases item with
    | error e => rw [appliedAll_error, appliedAll_error, hfailed]
    | ok item =>
      have hitem := applied_withSetup s f item
      cases hresult : (s.applied item).1 with
      | ok key =>
        rw [appliedAll_of_ok hresult, appliedAll_of_ok (by rw [hitem, hresult]), hitem, ih]
      | error e =>
        rw [appliedAll_of_error hresult, appliedAll_of_error (by rw [hitem, hresult]), hitem]
        dsimp only
        rw [hfailed]

theorem batchKeyed_withSetup (kind : BatchKind) (items : List (Option String × Value))
    (replace : Bool) :
    (s.batchKeyed w kind items replace).withSetup f =
      (s.withSetup f).batchKeyed (w.withSetup f) kind items replace := by
  unfold batchKeyed
  rw [usable_withSetup]
  congr 1
  have hbase : (if replace then
      { s.withSetup f with contents := (s.withSetup f).contents.clear } else s.withSetup f) =
      (if replace then { s with contents := s.contents.clear } else s).withSetup f := by
    cases replace <;> rfl
  have hready : (s.withSetup f).preparedAll (w.withSetup f).keys kind items =
      s.preparedAll w.keys kind items := preparedAll_withSetup s f w.keys kind items
  dsimp only
  rw [hbase, hready, appliedAll_withSetup]
  dsimp only [withSetup_contents]
  generalize (Store.appliedAll _ 0 _).2 = t
  cases t.contents.reindex <;> rfl

theorem batch_withSetup (kind : BatchKind) (items : List Value) (replace : Bool) :
    (s.batch w kind items replace).withSetup f =
      (s.withSetup f).batch (w.withSetup f) kind items replace := by
  unfold batch batchDetailed
  rw [← batchKeyed_withSetup]
  generalize s.batchKeyed w kind (items.map fun item => (none, item)) replace = o
  obtain ⟨result, t, v⟩ := o
  cases result with
  | error e => rfl
  | ok report =>
    dsimp only [Outcome.withSetup]
    cases report.isComplete <;> rfl

theorem replaced_withSetup (payload : Value) :
    (s.replaced w payload).withSetup f =
      (s.withSetup f).replaced (w.withSetup f) payload := by
  unfold replaced
  rw [usable_withSetup]
  congr 1
  have hitems : (s.withSetup f).payloadItems payload = s.payloadItems payload := rfl
  rw [hitems]
  cases s.payloadItems payload with
  | error fault => rfl
  | ok items =>
    dsimp only
    rw [← batchKeyed_withSetup]
    generalize s.batchKeyed w .set items true = o
    obtain ⟨result, t, v⟩ := o
    cases result <;> rfl

theorem load_withSetup (payload : Value) :
    (s.load w payload).withSetup f = (s.withSetup f).load (w.withSetup f) payload := by
  unfold load
  rw [tracked_withSetup, replaced_withSetup]

theorem sync_withSetup : (s.sync w).withSetup f = (s.withSetup f).sync (w.withSetup f) := by
  unfold sync
  rw [tracked_withSetup, usable_withSetup, withSetup_remote]
  congr 2
  cases s.remote with
  | none => rfl
  | some remote =>
    have hfetch : remote.fetch (w.withSetup f).client (w.withSetup f).now =
        remote.fetch w.client w.now := rfl
    dsimp only
    rw [hfetch]
    generalize remote.fetch w.client w.now = e
    cases e.result with
    | error error => rfl
    | ok body =>
      exact replaced_withSetup { s with remote := some e.collection }
        { w with client := e.client } f _

theorem restore_withSetup :
    (s.restore w).withSetup f = (s.withSetup f).restore (w.withSetup f) := by
  unfold restore
  rw [tracked_withSetup, usable_withSetup]
  congr 2
  have hget : (w.withSetup f).storage.get (s.withSetup f).name = w.storage.get s.name := rfl
  rw [hget]
  rcases w.storage.get s.name with e | _ | bytes
  · rfl
  · rfl
  · dsimp only
    cases readArchive bytes with
    | error e => rfl
    | ok archive =>
      have hunpacked : unpacked (s.withSetup f).config archive = unpacked s.config archive := rfl
      dsimp only
      rw [hunpacked]
      cases unpacked s.config archive <;> rfl

/-! ### All operations but queries -/

theorem map_withSetup {g : α → Answer} {o o' : Outcome α} {f : WorkerSetup}
    (h : o.withSetup f = o') : (o.map g).withSetup f = o'.map g := congrArg (Outcome.map g) h

end Store

def Operation.offloads : Operation → Bool
  | .select _ | .sort .. => true
  | _ => false

namespace Store

variable {s : Store} {w : World} {operation : Operation}

/-- What has to do with workers can be exchanged before or after an operation that hands out no
work. -/
theorem perform_withSetup (hop : operation.offloads = false) (f : WorkerSetup) :
    (s.perform w operation).withSetup f =
      (s.withSetup f).perform (w.withSetup f) operation := by
  cases operation with
  | declareIndex fields => exact map_withSetup (declareIndex_withSetup s w f fields)
  | get selector => exact map_withSetup (get_withSetup s w f selector)
  | record key => exact map_withSetup (record_withSetup s w f key)
  | set key data options => exact map_withSetup (set_withSetup s w f key data options)
  | delete target options => exact map_withSetup (delete_withSetup s w f target options)
  | undo key label => exact map_withSetup (undo_withSetup s w f key label)
  | reindex => exact map_withSetup (reindex_withSetup s w f)
  | select filter => exact absurd hop (by simp [Operation.offloads])
  | sort order filter anew => exact absurd hop (by simp [Operation.offloads])
  | batch kind items replace => exact map_withSetup (batch_withSetup s w f kind items replace)
  | batchDetailed kind items replace =>
    exact map_withSetup (batchKeyed_withSetup s w f kind _ replace)
  | load payload => exact map_withSetup (load_withSetup s w f payload)
  | sync => exact map_withSetup (sync_withSetup s w f)
  | restore => exact map_withSetup (restore_withSetup s w f)
  | save name => cases name <;> rfl
  | clear | purge | versions | unique | only | poll | subscribe | drain => rfl

/-- An operation that hands out no work leaves alone what has to do with workers. -/
theorem perform_setup (hop : operation.offloads = false) :
    (s.perform w operation).store.setup (s.perform w operation).world = s.setup w := by
  have hsame : (s.perform w operation).withSetup (s.setup w) = s.perform w operation :=
    perform_withSetup hop (s.setup w)
  rw [← hsame]
  rfl

end Store
end IndexedStore
