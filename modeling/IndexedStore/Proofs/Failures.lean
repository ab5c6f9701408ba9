import IndexedStore.Proofs.Views

/-!
Operations that fail. An operation that declares an index, writes a record, loads or restores
takes effect as a whole or not at all: when it fails, only the count of failures has changed, and
what is kept of the answers of the remote side.
-/
namespace IndexedStore

namespace Http

variable {α β : Type}

/-- An exchange that leaves the address and the headers of a collection alone and fails for what
the outside does. -/
structure Exchange.Keeps (e : Exchange α) (c : Collection) : Prop where
  collection : ∃ cache, e.collection = { c with cache := cache }
  failure : ∀ error, e.result = .error error →
    (∀ failed total, error ≠ .batchFailed failed total) ∧ error ≠ .poisoned

/-- Going on with an exchange that touches nothing but the kept answers keeps the collection. -/
theorem Exchange.Keeps.andThen {c : Collection} {e : Exchange α} (h : e.Keeps c)
    {f : α → Collection → Client → Exchange β}
    (hf : ∀ x cache client, (f x { c with cache := cache } client).Keeps c) :
    (e.andThen f).Keeps c := by
  obtain ⟨cache, hcollection⟩ := h.collection
  unfold Exchange.andThen
  cases hresult : e.result with
  | ok x =>
    dsimp only
    rw [hcollection]
    exact hf x cache e.client
  | error error =>
    refine ⟨⟨cache, hcollection⟩, fun error' herror => ?_⟩
    obtain rfl := Except.error.inj herror
    exact h.failure error hresult

theorem Exchange.Keeps.of_cache {c : Collection} {cache : Cache} {e : Exchange α}
    (h : e.Keeps { c with cache := cache }) : e.Keeps c := by
  obtain ⟨kept, hcollection⟩ := h.collection
  exact ⟨⟨kept, hcollection⟩, h.failure⟩

theorem Response.fault?_ne {r : Response} {uri : String} {method : Method} {error : StoreError}
    (h : r.fault? uri method = some error) :
    (∀ failed total, error ≠ .batchFailed failed total) ∧ error ≠ .poisoned := by
  unfold Response.fault? at h
  split_ifs at h <;>
  · obtain rfl := Option.some.inj h
    exact ⟨fun _ _ => StoreError.noConfusion, StoreError.noConfusion⟩

namespace Collection

variable (c : Collection) (client : Client) (now : Nat)

theorem send_keeps (uri : String) (method : Method) (body : Option Json) :
    (c.send client now uri method body).Keeps c := by
  unfold send
  dsimp only
  split_ifs
  · split
    · refine ⟨⟨_, rfl⟩, fun error herror => ?_⟩
      obtain rfl := Except.error.inj herror
      exact ⟨fun _ _ => StoreError.noConfusion, StoreError.noConfusion⟩
    · split
      · exact ⟨⟨_, rfl⟩, fun error herror => absurd herror (by simp)⟩
      · rename_i hfault
        refine ⟨⟨_, rfl⟩, fun error herror => ?_⟩
        obtain rfl := Except.error.inj herror
        exact Response.fault?_ne hfault
  · refine ⟨⟨_, rfl⟩, fun error herror => ?_⟩
    obtain rfl := Except.error.inj herror
    exact ⟨fun _ _ => StoreError.noConfusion, StoreError.noConfusion⟩

theorem write_keeps (uri : String) (method : Method) (body : Option Json) :
    (c.write client now uri method body).Keeps c := by
  unfold write
  apply (c.send_keeps client now uri method body).andThen
  intro _ cache client
  exact ⟨⟨_, rfl⟩, fun error herror => absurd herror (by simp)⟩

theorem delete_keeps (key : String) : (c.delete client now key).Keeps c :=
  c.write_keeps client now _ _ _

theorem fetch_keeps : (c.fetch client now).Keeps c := by
  unfold fetch
  dsimp only
  split
  · exact ⟨⟨_, rfl⟩, fun error herror => absurd herror (by simp)⟩
  · apply (send_keeps _ client now c.uri .get none).of_cache.andThen
    intro response cache client
    exact ⟨⟨_, rfl⟩, fun error herror => absurd herror (by simp)⟩

end Collection
end Http

namespace Operation

def isWhole : Operation → Bool
  | .declareIndex _ | .set .. | .delete .. | .undo .. | .load _ | .sync | .restore => true
  | _ => false

def asks : Operation → Bool
  | .set _ _ options => !options.batch
  | .delete _ options => !options.batch
  | .undo .. | .sync => true
  | _ => false

end Operation

namespace Store

variable {α : Type} {s s' : Store} {w : World} {e : StoreError}

def recalling (s : Store) (cache : Http.Cache) : Store :=
  { s with remote := s.remote.map fun remote => { remote with cache := cache } }

def failed (s : Store) : Store := { s with stats.errors := s.stats.errors + 1 }

theorem recalling_alike (s : Store) (cache : Http.Cache) : s.Alike (s.recalling cache) :=
  ⟨rfl, rfl, rfl, rfl, rfl, Option.isSome_map⟩

theorem failed_alike (s : Store) : s.Alike s.failed := ⟨rfl, rfl, rfl, rfl, rfl, rfl⟩

theorem tracked_store {o : Outcome α} (h : o.result = .error e) :
    (tracked o).store = o.store.failed := by
  unfold tracked
  rw [h]
  rfl

/-- What is left of an operation that failed: the store as it was with the failure counted. An
operation that asks the remote side may keep other answers of it. -/
structure Leaves (s s' : Store) (asks : Bool) (e : StoreError) : Prop where
  store : ∃ cache, s' = (s.recalling cache).failed
  quiet : asks = false → s' = s.failed
  failure : ∀ failed total, e ≠ .batchFailed failed total
  usable : e ≠ .poisoned

theorem recalling_of_isNone (h : s.remote = none) (cache : Http.Cache) : s.recalling cache = s := by
  unfold recalling
  rw [h, Option.map_none, ← h]

theorem exists_recalling_eq (s : Store) : ∃ cache, s.recalling cache = s := by
  cases hremote : s.remote with
  | none => exact ⟨.empty 0 0, recalling_of_isNone hremote _⟩
  | some remote =>
    refine ⟨remote.cache, ?_⟩
    unfold recalling
    rw [hremote, Option.map_some, ← hremote]

/-- A failure before the remote side was asked. -/
theorem Leaves.of_failed {asks : Bool} (h : s' = s.failed)
    (hfailure : (∀ failed total, e ≠ .batchFailed failed total) ∧ e ≠ .poisoned) :
    s.Leaves s' asks e := by
  obtain ⟨cache, hsame⟩ := s.exists_recalling_eq
  exact ⟨⟨cache, by rw [hsame, h]⟩, fun _ => h, hfailure.1, hfailure.2⟩

/-! ### Single operations -/

/-- A failure for which the remote side is the reason. -/
theorem Leaves.of_refused {exchange : Http.Collection → Http.Client → Nat → Http.Exchange Unit}
    (hexchange : ∀ remote client now, (exchange remote client now).Keeps remote)
    (he : (s.remotely w exchange).result = .error e) :
    s.Leaves (s.remotely w exchange).store.failed true e := by
  unfold remotely at he ⊢
  cases hremote : s.remote with
  | none =>
    rw [hremote] at he
    exact absurd he (by simp)
  | some remote =>
    rw [hremote] at he
    obtain ⟨⟨cache, hcollection⟩, hfailure⟩ := hexchange remote w.client w.now
    refine ⟨⟨cache, ?_⟩, fun h => absurd h (by simp), (hfailure e he).1, (hfailure e he).2⟩
    unfold recalling
    dsimp only
    rw [hremote, hcollection]
    rfl

theorem declareIndex_leaves (hs : s.poisoned = false) {fields : List String}
    (he : (s.declareIndex w fields).result = .error e) :
    s.Leaves (s.declareIndex w fields).store false e := by
  unfold declareIndex at he ⊢
  rw [usable_eq hs] at he ⊢
  rw [tracked_result] at he
  revert he
  cases s.contents.declareIndex fields with
  | ok declared => exact fun he => absurd he (by simp)
  | error fault =>
    intro he
    obtain rfl := Except.error.inj he
    exact Leaves.of_failed rfl ⟨fun _ _ => StoreError.noConfusion, StoreError.noConfusion⟩

theorem remoteSet_keeps (s : Store) (key : String) (data : Fields) (overwrite : Bool)
    (remote : Http.Collection) (client : Http.Client) (now : Nat) :
    (s.remoteSet key data overwrite remote client now).Keeps remote := by
  unfold remoteSet
  split
  · exact remote.write_keeps client now _ _ _
  · exact remote.write_keeps client now _ _ _

theorem set_leaves (hs : s.poisoned = false) {given : Option String} {data : Fields}
    {options : SetOptions} (he : (s.set w given data options).result = .error e) :
    s.Leaves (s.set w given data options).store (!options.batch) e := by
  unfold set at he ⊢
  rw [usable_eq hs] at he ⊢
  rw [tracked_result] at he
  revert he
  dsimp only
  cases hbatch : options.batch with
  | true => exact fun he => absurd he (by simp)
  | false =>
    simp only [Bool.false_eq_true, ↓reduceIte]
    generalize hsent : s.remotely _ (s.remoteSet _ data options.overwrite) = sent
    cases hresult : sent.result with
    | ok _ => exact fun he => absurd he (by simp)
    | error error =>
      intro he
      obtain rfl := Except.error.inj he
      rw [← hsent] at hresult ⊢
      exact Leaves.of_refused (s.remoteSet_keeps _ _ _) hresult

theorem delete_leaves (h : s.Sound) {target : Target} {options : DeleteOptions}
    (he : (s.delete w target options).result = .error e) :
    s.Leaves (s.delete w target options).store (!options.batch) e := by
  unfold delete at he ⊢
  rw [usable_eq h.usable] at he ⊢
  rw [tracked_result] at he
  revert he
  cases hfound : s.contents.find? target with
  | none =>
    intro he
    obtain rfl := Except.error.inj he
    exact Leaves.of_failed rfl ⟨fun _ _ => StoreError.noConfusion, StoreError.noConfusion⟩
  | some r =>
    dsimp only
    generalize hsent : (if options.batch = true then (⟨.ok (), s, w⟩ : Outcome Unit)
      else s.remotely w fun remote client now => remote.delete client now r.key) = sent
    cases hresult : sent.result with
    | ok _ =>
      -- the record is there, so nothing can fail any more
      have halike : s.Alike sent.store := by
        rw [← hsent]
        split_ifs
        · exact Alike.refl s
        · exact remotely_alike s _ _
      obtain ⟨p, hp⟩ := Contents.recordAt?_of_find? hfound
      obtain ⟨_, -, hdone, -⟩ := deleteLocally_cases (halike.contents ▸ h.consistent)
        (halike.contents ▸ hp : sent.store.contents.recordAt? p = some r) options
      intro he
      exact absurd (hdone.symm.trans he) (by simp)
    | error error =>
      intro he
      obtain rfl := Except.error.inj he
      cases hbatch : options.batch with
      | true =>
        rw [← hsent, if_pos hbatch] at hresult
        exact absurd hresult (by simp)
      | false =>
        rw [if_neg (by simp [hbatch])] at hsent
        rw [← hsent] at hresult ⊢
        exact Leaves.of_refused (fun remote client now => remote.delete_keeps client now r.key)
          hresult

theorem undo_leaves (hs : s.poisoned = false) {key : String} {label : Option String}
    (he : (s.undo w key label).result = .error e) : s.Leaves (s.undo w key label).store true e := by
  unfold undo at he ⊢
  cases hfields : s.undoFields? key label with
  | none =>
    rw [hfields] at he
    obtain rfl := Except.error.inj he
    exact Leaves.of_failed rfl ⟨fun _ _ => StoreError.noConfusion, StoreError.noConfusion⟩
  | some fields =>
    rw [hfields] at he
    exact set_leaves hs he

/-- A payload that is refused is refused before the records are dropped. -/
theorem replaced_of_error (h : s.Sound) {payload : Value}
    (he : (s.replaced w payload).result = .error e) :
    (s.replaced w payload).store = s ∧
      (∀ failed total, e ≠ .batchFailed failed total) ∧ e ≠ .poisoned := by
  cases hitems : s.payloadItems payload with
  | error fault =>
    rw [replaced_of_fault h.usable hitems] at he ⊢
    obtain rfl := Except.error.inj he
    exact ⟨rfl, fun _ _ => StoreError.noConfusion, StoreError.noConfusion⟩
  | ok items =>
    obtain ⟨_, _, -, hok, -⟩ := replaced_of_items (w := w) h.consistent h.usable hitems
    exact absurd (hok.symm.trans he) (by simp)

theorem load_leaves (h : s.Sound) {payload : Value} (he : (s.load w payload).result = .error e) :
    s.Leaves (s.load w payload).store false e := by
  unfold load at he ⊢
  rw [tracked_result] at he
  obtain ⟨hstore, hfailure⟩ := replaced_of_error h he
  apply Leaves.of_failed _ hfailure
  rw [tracked_store he, hstore]

theorem sync_leaves (h : s.Sound) (he : (s.sync w).result = .error e) :
    s.Leaves (s.sync w).store true e := by
  unfold sync at he ⊢
  rw [usable_eq h.usable] at he ⊢
  rw [tracked_result] at he
  cases hremote : s.remote with
  | none =>
    rw [hremote] at he
    obtain rfl := Except.error.inj he
    exact Leaves.of_failed rfl ⟨fun _ _ => StoreError.noConfusion, StoreError.noConfusion⟩
  | some remote =>
    rw [hremote] at he
    dsimp only at he ⊢
    obtain ⟨⟨cache, hcollection⟩, hfailure⟩ := remote.fetch_keeps w.client w.now
    have hfetched : { s with remote := some (remote.fetch w.client w.now).collection } =
        s.recalling cache := by
      unfold recalling
      rw [hremote, hcollection]
      rfl
    rw [hfetched] at he ⊢
    have hsound : (s.recalling cache).Sound := ⟨h.consistent, h.usable⟩
    cases hresult : (remote.fetch w.client w.now).result with
    | error error =>
      rw [hresult] at he
      obtain rfl := Except.error.inj he
      obtain ⟨hbatch, husable⟩ := hfailure error hresult
      exact ⟨⟨cache, rfl⟩, fun h => absurd h (by simp), hbatch, husable⟩
    | ok body =>
      rw [hresult] at he
      obtain ⟨hstore, hbatch, husable⟩ := replaced_of_error hsound he
      refine ⟨⟨cache, ?_⟩, fun h => absurd h (by simp), hbatch, husable⟩
      rw [tracked_store he]
      exact congrArg Store.failed hstore

theorem restore_leaves (hs : s.poisoned = false) (he : (s.restore w).result = .error e) :
    s.Leaves (s.restore w).store false e := by
  unfold restore at he ⊢
  rw [usable_eq hs] at he ⊢
  rw [tracked_result] at he
  revert he
  split
  · intro he
    obtain rfl := Except.error.inj he
    exact Leaves.of_failed rfl ⟨fun _ _ => StoreError.noConfusion, StoreError.noConfusion⟩
  · exact fun he => absurd he (by simp)
  · split
    · rename_i herror
      intro he
      obtain rfl := Except.error.inj he
      apply Leaves.of_failed rfl
      unfold readArchive at herror
      split at herror
      · exact absurd herror (by simp)
      · obtain rfl := Except.error.inj herror
        exact ⟨fun _ _ => StoreError.noConfusion, StoreError.noConfusion⟩
    · split
      · intro he
        obtain rfl := Except.error.inj he
        exact Leaves.of_failed rfl ⟨fun _ _ => StoreError.noConfusion, StoreError.noConfusion⟩
      · exact fun he => absurd he (by simp)

theorem eq_error_of_map {β ε : Type} {f : α → β} {result : Except ε α} {fault : ε}
    (h : result.map f = .error fault) : result = .error fault := by
  cases result with
  | ok _ => exact absurd h (by simp [Except.map])
  | error fault' => exact congrArg Except.error (Except.error.inj h)

theorem error_of_map {β : Type} {f : α → β} {o : Outcome α} (h : (o.map f).result = .error e) :
    o.result = .error e := eq_error_of_map h

/-- An operation that takes effect as a whole and fails leaves the store as it was. -/
theorem Sound.perform_leaves (h : s.Sound) {operation : Operation}
    (hwhole : operation.isWhole = true) (he : (s.perform w operation).result = .error e) :
    s.Leaves (s.perform w operation).store operation.asks e := by
  cases operation with
  | declareIndex fields => exact declareIndex_leaves h.usable (error_of_map he)
  | set key data options => exact set_leaves h.usable (error_of_map he)
  | delete target options => exact delete_leaves h (error_of_map he)
  | undo key label => exact undo_leaves h.usable (error_of_map he)
  | load payload => exact load_leaves h (error_of_map he)
  | sync => exact sync_leaves h (error_of_map he)
  | restore => exact restore_leaves h.usable (error_of_map he)
  | _ => exact absurd hwhole (by simp [Operation.isWhole])

/-! ### Sorts after a failure -/

def sortAnswers (s : Store) :
    List (World × SortOrder × Option Where × Bool) → List (Except StoreError (List Snapshot))
  | [] => []
  | (w, order, filter, anew) :: rest =>
    let o := s.sort w order filter anew
    o.result :: o.store.sortAnswers rest

def viewsAfter (s : Store) (order : SortOrder) (filter : Option Where) (anew : Bool) : ViewCache :=
  match s.keptView? (ViewCache.keyFor order filter) anew with
  | some _ => s.views
  | none =>
    match ViewCache.keyFor order filter, s.contents.sorted order filter with
    | some key, .ok (r :: rest) => (s.viewsBefore anew).put key s.revision (r :: rest)
    | _, _ => s.viewsBefore anew

/-- What a sort answers and leaves, read off the contents and the kept views. -/
theorem sort_eq (hs : s.poisoned = false) (w : World) (order : SortOrder) (filter : Option Where)
    (anew : Bool) :
    (s.sort w order filter anew).result =
        (match s.keptView? (ViewCache.keyFor order filter) anew with
        | some records => .ok records
        | none => s.contents.sorted order filter) ∧
      ({ s with views := s.viewsAfter order filter anew } : Store).Alike
        (s.sort w order filter anew).store := by
  unfold viewsAfter
  rcases sort_cases (w := w) hs order filter anew with
    ⟨key, records, rfl, hkey, hview, hresult, halike⟩ | ⟨hnone, hresult, hstore⟩
  · have hkept : s.keptView? (ViewCache.keyFor order filter) false = some records := by
      unfold keptView?
      rw [if_neg Bool.false_ne_true, hkey]
      exact hview
    rw [hkept]
    exact ⟨hresult, halike⟩
  · rw [hnone]
    refine ⟨hresult, ?_⟩
    rcases hstore with ⟨halike, hkey | hempty⟩ | ⟨key, records, hkey, hsorted, hsome, halike⟩
    · rw [hkey]
      exact halike
    · cases hsorted : s.contents.sorted order filter with
      | error e => cases ViewCache.keyFor order filter <;> exact halike
      | ok records =>
        obtain rfl := hempty records hsorted
        cases ViewCache.keyFor order filter <;> exact halike
    · obtain ⟨r, rest, rfl⟩ := List.exists_cons_of_ne_nil hsome
      rw [hkey, hsorted]
      exact halike

/-- Stores that are alike answer a sort alike and stay alike. -/
theorem Alike.sort (h : s.Alike s') (hs : s.poisoned = false) (w : World) (order : SortOrder)
    (filter : Option Where) (anew : Bool) :
    (s'.sort w order filter anew).result = (s.sort w order filter anew).result ∧
      (s.sort w order filter anew).store.Alike (s'.sort w order filter anew).store := by
  obtain ⟨hresult, hstore⟩ := sort_eq hs w order filter anew
  obtain ⟨hresult', hstore'⟩ := sort_eq (h.poisoned.trans hs) w order filter anew
  have hkept : s'.keptView? (ViewCache.keyFor order filter) anew =
      s.keptView? (ViewCache.keyFor order filter) anew := by
    unfold keptView? revision
    rw [h.views, h.contents]
  have hviews : s'.viewsAfter order filter anew = s.viewsAfter order filter anew := by
    unfold viewsAfter viewsBefore revision
    rw [hkept, h.views, h.contents]
  constructor
  · rw [hresult, hresult', hkept, h.contents]
  · exact ⟨(hstore'.config.trans h.config).trans hstore.config.symm,
      (hstore'.contents.trans h.contents).trans hstore.contents.symm,
      (hstore'.views.trans hviews).trans hstore.views.symm,
      (hstore'.feed.trans h.feed).trans hstore.feed.symm,
      (hstore'.poisoned.trans h.poisoned).trans hstore.poisoned.symm,
      (hstore'.remote.trans h.remote).trans hstore.remote.symm⟩

theorem Alike.sortAnswers (h : s.Alike s') (hs : s.poisoned = false)
    (sorts : List (World × SortOrder × Option Where × Bool)) :
    s'.sortAnswers sorts = s.sortAnswers sorts := by
  induction sorts generalizing s s' with
  | nil => rfl
  | cons request rest ih =>
    obtain ⟨w, order, filter, anew⟩ := request
    obtain ⟨hresult, hstore⟩ := h.sort hs w order filter anew
    obtain ⟨_, hsame⟩ := sort_alike (w := w) hs order filter anew
    have hrest := ih hstore (hsame.poisoned.trans hs)
    exact congrArg₂ List.cons hresult hrest

/-! ### Failures after any operations -/

/-- After any operations, with any settings and any remote side, an operation that takes effect as
a whole and fails leaves the store as it was: only the failure is counted, and an operation that
asks the remote side may have changed what is kept of its answers. Later sorts answer as if it had
not been called, and no item of a batch is ever to blame. -/
theorem unchanged_after_failure (hs : s.Fresh) (steps : List (World × Operation)) (w : World)
    (operation : Operation) (hwhole : operation.isWhole = true) {e : StoreError}
    (he : ((s.after steps).perform w operation).result = .error e) :
    let t := s.after steps
    let t' := (t.perform w operation).store
    (∃ cache, t' = (t.recalling cache).failed) ∧
    (operation.asks = false ∨ t.remote = none → t' = t.failed) ∧
    (∀ failed total, e ≠ .batchFailed failed total) ∧
    ∀ sorts, t'.sortAnswers sorts = t.sortAnswers sorts := by
  intro t t'
  have hsound : t.Sound := hs.sound.1.after steps
  obtain ⟨⟨cache, hstore⟩, hquiet, hfailure⟩ := hsound.perform_leaves hwhole he
  change t' = (t.recalling cache).failed at hstore
  have halike : t.Alike t' := by
    rw [hstore]
    exact (recalling_alike t cache).trans (failed_alike _)
  refine ⟨⟨cache, hstore⟩, ?_, hfailure, fun sorts => halike.sortAnswers hsound.usable sorts⟩
  rintro (hasks | hremote)
  · exact hquiet hasks
  · rw [← recalling_of_isNone hremote cache]
    exact hstore

def remotePlain : Store :=
  { plain with
    config := { Config.standard with uri := some "http://remote" },
    remote := some ⟨"http://remote", [], .empty 500 300⟩ }

theorem remotePlain_fresh : remotePlain.Fresh := ⟨remotePlain.config, .bare, Or.inr rfl⟩

/-- A remote side that finds nothing refuses to delete a record that was loaded. -/
theorem unchanged_after_refusal :
    let t := remotePlain.after [(.bare, .load (.map [("r", .map [])]))]
    let deletion := Operation.delete (.key "r") ⟨false, false⟩
    remotePlain.Fresh ∧ deletion.isWhole = true ∧
      (t.perform .bare deletion).result = .error (.serverError 404 "") ∧
      (t.perform .bare deletion).store.keys = ["r"] ∧
      (t.perform .bare deletion).store.revision = 1 := by
  intro t deletion
  have he : (t.perform .bare deletion).result = .error (.serverError 404 "") := rfl
  obtain ⟨⟨cache, hstore⟩, -, -, -⟩ := unchanged_after_failure remotePlain_fresh
    [(.bare, .load (.map [("r", .map [])]))] .bare deletion rfl he
  refine ⟨remotePlain_fresh, rfl, he, ?_, ?_⟩
  · have hkeys : ((t.recalling cache).failed).keys = ["r"] := rfl
    exact hstore ▸ hkeys
  · have hrevision : ((t.recalling cache).failed).revision = 1 := rfl
    exact hstore ▸ hrevision

end Store
end IndexedStore
