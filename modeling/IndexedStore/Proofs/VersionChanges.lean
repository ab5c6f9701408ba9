import IndexedStore.Proofs.Batches
import IndexedStore.Proofs.Runs
import IndexedStore.Proofs.Versions

/-!
What each operation of a store does to the earlier versions of records, as a list of changes. Only
restoring starts a new history; clearing and loading drop versions and go on with the one so far.
-/
namespace IndexedStore

namespace Contents

variable {c : Contents}

def storeChanges (c : Contents) (key : String) (versioning : Bool) : List Versions.Change :=
  match c.record? key with
  | some r => if versioning then [.add key r.fields] else []
  | none => []

def itemChanges (versioning : Bool) (c : Contents) : BatchItem → List Versions.Change
  | .store key _ => c.storeChanges key versioning
  | .remove key => if (c.record? key).isSome then [.remove key] else []

def itemsChanges (versioning : Bool) (c : Contents) : List BatchItem → List Versions.Change
  | [] => []
  | item :: rest =>
    c.itemChanges versioning item ++ (c.itemApplied versioning item).itemsChanges versioning rest

theorem versions_upsert_after (c : Contents) (key : String) (data : Fields)
    (overwrite versioning : Bool) :
    (c.upsert key data overwrite versioning).contents.versions =
      c.versions.after (c.storeChanges key versioning) := by
  rw [versions_upsert]
  unfold storeChanges
  cases c.record? key with
  | none => rfl
  | some r => cases versioning <;> rfl

theorem Consistent.versions_itemApplied (h : c.Consistent) (versioning : Bool)
    (item : BatchItem) :
    (c.itemApplied versioning item).versions =
      c.versions.after (c.itemChanges versioning item) := by
  cases item with
  | store key data => exact versions_upsert_after c key data false versioning
  | remove key =>
    unfold Contents.itemApplied Contents.itemChanges
    dsimp only
    rcases h.hollow_cases key with ⟨hnone, hbind⟩ | ⟨r, c', hsome, hkey, hbind, hremoval⟩
    · rw [hnone, hbind]
      rfl
    · rw [hsome, hbind]
      exact ((h.declared_removal hremoval).2).trans (congrArg c.versions.remove hkey)

theorem Consistent.versions_itemsApplied (h : c.Consistent) (versioning : Bool)
    (ready : List (Except StoreError BatchItem)) :
    (c.itemsApplied versioning ready).versions =
      c.versions.after (c.itemsChanges versioning (ready.filterMap Except.toOption)) := by
  unfold Contents.itemsApplied
  induction ready.filterMap Except.toOption generalizing c with
  | nil => rfl
  | cons item rest ih =>
    rw [List.foldl_cons, ih (h.itemApplied versioning item).1, h.versions_itemApplied,
      ← Versions.after_append]
    rfl

theorem renewals_storeChanges (c : Contents) (key : String) (versioning : Bool) :
    Versions.renewals (c.storeChanges key versioning) = 0 := by
  unfold storeChanges
  cases c.record? key with
  | none => rfl
  | some r => cases versioning <;> rfl

theorem renewals_itemsChanges (versioning : Bool) (c : Contents) (items : List BatchItem) :
    Versions.renewals (c.itemsChanges versioning items) = 0 := by
  induction items generalizing c with
  | nil => rfl
  | cons item rest ih =>
    have hitem : Versions.renewals (c.itemChanges versioning item) = 0 := by
      cases item with
      | store key data => exact c.renewals_storeChanges key versioning
      | remove key =>
        unfold itemChanges
        dsimp only
        split_ifs <;> rfl
    rw [itemsChanges, Versions.renewals_append, hitem, ih]

end Contents

namespace Store

variable {α : Type} {s s' : Store} {w : World}

/-! ### What operations do to the versions -/

def onSuccess (result : Except StoreError α) (changes : α → List Versions.Change) :
    List Versions.Change :=
  match result with
  | .ok x => changes x
  | .error _ => []

def batchChanges (s : Store) (keys : KeySupply) (kind : BatchKind)
    (items : List (Option String × Value)) (replace : Bool) : List Versions.Change :=
  let ready := (s.preparedAll keys kind items).1.filterMap Except.toOption
  (if replace then [.clear] else []) ++
    (s.batchBase replace).itemsChanges s.config.versioning ready

def loadChanges (s : Store) (keys : KeySupply) (payload : Value) : List Versions.Change :=
  match s.payloadItems payload with
  | .ok items => s.batchChanges keys .set items true
  | .error _ => []

def fetched? (s : Store) (w : World) : Option Value :=
  s.remote.bind fun remote =>
    (remote.fetch w.client w.now).result.toOption.map fun body => body.toValue

def versionChanges (s : Store) (w : World) : Operation → List Versions.Change
  | .set given data options =>
    onSuccess (s.set w given data options).result fun r =>
      s.contents.storeChanges r.key s.config.versioning
  | .undo key label =>
    onSuccess (s.undo w key label).result fun r =>
      s.contents.storeChanges r.key s.config.versioning
  | .delete target options =>
    onSuccess (s.delete w target options).result fun r => [.remove r.key]
  | .clear => [.clear]
  | .batch kind items replace | .batchDetailed kind items replace =>
    s.batchChanges w.keys kind (items.map fun item => (none, item)) replace
  | .load payload =>
    onSuccess (s.load w payload).result fun _ => s.loadChanges w.keys payload
  | .sync =>
    onSuccess (s.sync w).result fun _ =>
      ((s.fetched? w).map fun payload => s.loadChanges w.keys payload).getD []
  | .restore =>
    onSuccess (s.restore w).result fun found =>
      if found then [.renew s.config.versionLimit] else []
  | _ => []

theorem versions_of_alike (halike : s.Alike s') : s'.contents.versions = s.contents.versions := by
  rw [halike.contents]

theorem versions_of_changed {c : Contents} {quiet : Bool} {kind : EventKind} {key : Option String}
    (halike : (s.changed c quiet kind key).Alike s') : s'.contents.versions = c.versions := by
  rw [halike.contents, changed_contents]
  rfl

theorem Sound.versions_set (h : s.Sound) (given : Option String) (data : Fields)
    (options : SetOptions) :
    (s.set w given data options).store.contents.versions =
      s.contents.versions.after (onSuccess (s.set w given data options).result fun r =>
        s.contents.storeChanges r.key s.config.versioning) := by
  rcases set_cases (w := w) h.usable given data options with
    ⟨e, -, he, halike⟩ | ⟨stored, rfl, hr, halike⟩
  · rw [he, versions_of_alike halike]
    rfl
  · rw [hr, versions_of_changed halike, Contents.versions_upsert_after, onSuccess,
      h.consistent.snapshot_upsert]

theorem Sound.versions_undo (h : s.Sound) (key : String) (label : Option String) :
    (s.undo w key label).store.contents.versions =
      s.contents.versions.after (onSuccess (s.undo w key label).result fun r =>
        s.contents.storeChanges r.key s.config.versioning) := by
  rcases undo_cases (s := s) (w := w) key label with ⟨-, he, halike⟩ | ⟨fields, -, hset⟩
  · rw [he, versions_of_alike halike]
    rfl
  · rw [hset]
    exact h.versions_set (some key) fields ⟨false, true⟩

theorem Sound.versions_delete (h : s.Sound) (target : Target) (options : DeleteOptions) :
    (s.delete w target options).store.contents.versions =
      s.contents.versions.after
        (onSuccess (s.delete w target options).result fun r => [.remove r.key]) := by
  rcases delete_cases (w := w) h.consistent h.usable target options with
    ⟨e, -, he, halike⟩ | ⟨r, c, -, hremoval, hr, halike⟩
  · rw [he, versions_of_alike halike]
    rfl
  · rw [hr, versions_of_changed halike, (h.consistent.declared_removal hremoval).2]
    rfl

theorem Sound.versions_declareIndex (h : s.Sound) (fields : List String) :
    (s.declareIndex w fields).store.contents.versions = s.contents.versions := by
  rcases h.declareIndex_cases (w := w) fields with ⟨-, -, halike⟩ | ⟨_, c, hc, -, halike⟩
  · exact versions_of_alike halike
  · obtain ⟨-, -, hversions, -⟩ := h.consistent.declareIndex hc
    exact (versions_of_alike halike).trans hversions

/-- Items applied to the contents of a batch, and the slots closed. -/
theorem Sound.versions_applied (h : s.Sound) (keys : KeySupply) (kind : BatchKind)
    (items : List (Option String × Value)) (replace : Bool) {c : Contents}
    (hc : ((s.batchBase replace).itemsApplied s.config.versioning
      (s.preparedAll keys kind items).1).reindex = .ok c) :
    c.versions = s.contents.versions.after (s.batchChanges keys kind items replace) := by
  have hconsistent := consistent_batchBase h.consistent replace
  have hbase : (s.batchBase replace).versions =
      s.contents.versions.after (if replace then [.clear] else []) := by
    cases replace <;> rfl
  unfold batchChanges
  rw [Contents.versions_reindex hc, hconsistent.versions_itemsApplied, hbase,
    Versions.after_append]

theorem Sound.versions_batchDetailed (h : s.Sound) (kind : BatchKind) (items : List Value)
    (replace : Bool) :
    (s.batchDetailed w kind items replace).store.contents.versions =
      s.contents.versions.after
        (s.batchChanges w.keys kind (items.map fun item => (none, item)) replace) := by
  obtain ⟨c, hc, -, halike⟩ := batchKeyed_spec (w := w) h.consistent h.usable kind
    (items.map fun item => (none, item)) replace
  exact (versions_of_changed halike).trans (h.versions_applied w.keys kind _ replace hc)

theorem Sound.versions_loads (h : s.Sound) {keys : KeySupply} {payload : Value} {c : Contents}
    (hc : s.Loads keys payload c) :
    c.versions = s.contents.versions.after (s.loadChanges keys payload) := by
  obtain ⟨items, hitems, hc⟩ := hc
  unfold loadChanges
  rw [hitems]
  exact h.versions_applied keys .set items true hc

theorem Sound.versions_load (h : s.Sound) (payload : Value) :
    (s.load w payload).store.contents.versions =
      s.contents.versions.after
        (onSuccess (s.load w payload).result fun _ => s.loadChanges w.keys payload) := by
  rcases load_cases (w := w) h.consistent h.usable payload with
    ⟨e, he, halike⟩ | ⟨keys, c, hc, hk, halike⟩
  · rw [he, versions_of_alike halike]
    rfl
  · rw [hk, versions_of_changed halike, h.versions_loads hc, onSuccess]

theorem Sound.versions_sync (h : s.Sound) :
    (s.sync w).store.contents.versions =
      s.contents.versions.after (onSuccess (s.sync w).result fun _ =>
        ((s.fetched? w).map fun payload => s.loadChanges w.keys payload).getD []) := by
  rcases sync_cases (w := w) h.consistent h.usable with
    ⟨e, he, halike⟩ | ⟨remote, body, keys, c, hremote, hbody, hc, hk, halike⟩
  · rw [he, versions_of_alike halike]
    rfl
  · have hfetched : s.fetched? w = some body.toValue := by
      unfold fetched?
      rw [hremote, Option.bind_some, hbody]
      rfl
    rw [hk, versions_of_changed halike, h.versions_loads hc, onSuccess, hfetched]
    rfl

/-- What is restored has no history of its own, and none is carried over. -/
theorem versions_unpacked {config : Config} {archive : Archive} {c : Contents}
    (hc : unpacked config archive = .ok c) : c.versions = .empty config.versionLimit := by
  obtain ⟨declared, hdeclared, rfl⟩ := unpacked_cases hc
  obtain ⟨-, -, hversions, -, -⟩ :=
    (Contents.consistent_empty config.versionLimit).declareIndexes hdeclared
  rw [Contents.versions_recordsStored, hversions]
  rfl

theorem versions_restore (hs : s.poisoned = false) :
    (s.restore w).store.contents.versions =
      s.contents.versions.after (onSuccess (s.restore w).result fun found =>
        if found then [.renew s.config.versionLimit] else []) := by
  rcases restore_cases (w := w) hs with ⟨hfound, halike⟩ | ⟨_, _, c, -, -, hc, hresult, halike⟩
  · rw [versions_of_alike halike]
    cases hresult : (s.restore w).result with
    | error e => rfl
    | ok found =>
      obtain rfl := hfound found hresult
      rfl
  · have hversions := versions_unpacked hc
    rw [hresult]
    exact (versions_of_changed halike).trans hversions

/-- The versions after an operation are those before it with its changes made to them. -/
theorem Sound.perform_versions (h : s.Sound) (w : World) (operation : Operation) :
    (s.perform w operation).store.contents.versions =
      s.contents.versions.after (s.versionChanges w operation) := by
  have hread := h.contents_of_isRead w operation
  cases operation with
  | set given data options => exact h.versions_set given data options
  | undo key label => exact h.versions_undo key label
  | delete target options => exact h.versions_delete target options
  | clear => rfl
  | batch kind items replace =>
    exact (versions_of_alike (batch_alike s w kind items replace)).trans
      (h.versions_batchDetailed kind items replace)
  | batchDetailed kind items replace => exact h.versions_batchDetailed kind items replace
  | load payload => exact h.versions_load payload
  | sync => exact h.versions_sync
  | restore => exact versions_restore h.usable
  | declareIndex fields => exact h.versions_declareIndex fields
  | reindex =>
    obtain ⟨c, hc, -, halike⟩ := reindex_spec (w := w) h.consistent h.usable
    exact (versions_of_changed halike).trans (Contents.versions_reindex hc)
  | _ => exact congrArg Contents.versions (hread rfl)

theorem renewals_onSuccess {result : Except StoreError α} {changes : α → List Versions.Change}
    (h : ∀ x, Versions.renewals (changes x) = 0) :
    Versions.renewals (onSuccess result changes) = 0 := by
  cases result with
  | ok x => exact h x
  | error e => rfl

theorem renewals_batchChanges (s : Store) (keys : KeySupply) (kind : BatchKind)
    (items : List (Option String × Value)) (replace : Bool) :
    Versions.renewals (s.batchChanges keys kind items replace) = 0 := by
  unfold batchChanges
  dsimp only
  rw [Versions.renewals_append, Contents.renewals_itemsChanges]
  cases replace <;> rfl

theorem renewals_loadChanges (s : Store) (keys : KeySupply) (payload : Value) :
    Versions.renewals (s.loadChanges keys payload) = 0 := by
  unfold loadChanges
  cases s.payloadItems payload with
  | ok items => exact s.renewals_batchChanges keys .set items true
  | error fault => rfl

/-- Only restoring starts a new history. -/
theorem renewals_versionChanges (s : Store) (w : World) (operation : Operation) :
    Versions.renewals (s.versionChanges w operation) =
      operation.restored (s.perform w operation).result := by
  cases operation with
  | restore =>
    change Versions.renewals (onSuccess (s.restore w).result _) =
      Operation.restored ((s.restore w).result.map .flag) .restore
    cases (s.restore w).result with
    | error e => rfl
    | ok found => cases found <;> rfl
  | set given data options => exact renewals_onSuccess fun r => s.contents.renewals_storeChanges _ _
  | undo key label => exact renewals_onSuccess fun r => s.contents.renewals_storeChanges _ _
  | delete target options => exact renewals_onSuccess fun r => rfl
  | batch kind items replace => exact s.renewals_batchChanges w.keys kind _ replace
  | batchDetailed kind items replace => exact s.renewals_batchChanges w.keys kind _ replace
  | load payload => exact renewals_onSuccess fun _ => s.renewals_loadChanges w.keys payload
  | sync =>
    apply renewals_onSuccess
    intro _
    cases s.fetched? w with
    | none => rfl
    | some payload => exact s.renewals_loadChanges w.keys payload
  | _ => rfl

end Store
end IndexedStore
