import IndexedStore.Proofs.Operations

/-!
Operations that replace or extend all records at once: batches, loads, and restoring what was
saved. Whatever the items are, with consistent contents the reindex that ends a batch succeeds,
and a load applies every item of a payload it has accepted.
-/
namespace IndexedStore

namespace Contents

variable {c c' : Contents}

def itemsApplied (versioning : Bool) (c : Contents) (ready : List (Except StoreError BatchItem)) :
    Contents :=
  (ready.filterMap Except.toOption).foldl (itemApplied versioning) c

theorem itemsApplied_error (versioning : Bool) (c : Contents) (e : StoreError)
    (rest : List (Except StoreError BatchItem)) :
    c.itemsApplied versioning (.error e :: rest) = c.itemsApplied versioning rest := rfl

theorem itemsApplied_ok (versioning : Bool) (c : Contents) (item : BatchItem)
    (rest : List (Except StoreError BatchItem)) :
    c.itemsApplied versioning (.ok item :: rest) =
      (c.itemApplied versioning item).itemsApplied versioning rest := rfl

def recordsStored (c : Contents) (records : List Snapshot) : Contents :=
  records.foldl (fun c r => (c.upsert r.key r.fields true false).contents) c

theorem upsert_revision (c : Contents) (key : String) (data : Fields)
    (overwrite versioning : Bool) :
    (c.upsert key data overwrite versioning).contents.revision = c.revision := by
  cases hr : c.record? key with
  | some r => rw [upsert_of_some hr]
  | none => rw [upsert_of_none hr]

theorem upsert_holes (c : Contents) (key : String) (data : Fields)
    (overwrite versioning : Bool) :
    (c.upsert key data overwrite versioning).contents.holes = c.holes := by
  cases hr : c.record? key with
  | some r => rw [upsert_of_some hr]
  | none => rw [upsert_of_none hr]

theorem itemApplied_remove_cases (versioning : Bool) (c : Contents) (key : String) :
    ((c.catalog.position? key).bind c.hollow = none ∧
      c.itemApplied versioning (.remove key) = c) ∨
    ∃ p r, c.catalog.position? key = some p ∧
      c.hollow p = some (r, c.itemApplied versioning (.remove key)) := by
  dsimp only [itemApplied]
  cases hr : (c.catalog.position? key).bind c.hollow with
  | none => exact Or.inl ⟨rfl, rfl⟩
  | some pair =>
    obtain ⟨p, hp, hhollow⟩ := Option.bind_eq_some_iff.mp hr
    exact Or.inr ⟨p, pair.1, hp, hhollow⟩

theorem Consistent.itemApplied (h : c.Consistent) (versioning : Bool) (item : BatchItem) :
    (c.itemApplied versioning item).Consistent ∧
      (c.itemApplied versioning item).revision = c.revision := by
  cases item with
  | store key data => exact ⟨h.upsert key data false versioning, upsert_revision c _ _ _ _⟩
  | remove key =>
    rcases itemApplied_remove_cases versioning c key with ⟨-, hsame⟩ | ⟨p, r, -, hhollow⟩
    · rw [hsame]
      exact ⟨h, rfl⟩
    · exact ⟨h.hollow hhollow, (revision_hollow hhollow).1⟩

theorem Consistent.itemsApplied (h : c.Consistent) (versioning : Bool)
    (ready : List (Except StoreError BatchItem)) :
    (c.itemsApplied versioning ready).Consistent ∧
      (c.itemsApplied versioning ready).revision = c.revision := by
  unfold Contents.itemsApplied
  induction ready.filterMap Except.toOption generalizing c with
  | nil => exact ⟨h, rfl⟩
  | cons item rest ih =>
    obtain ⟨hnext, hrevision⟩ := h.itemApplied versioning item
    obtain ⟨hlast, hrest⟩ := ih hnext
    exact ⟨hlast, hrest.trans hrevision⟩

theorem Consistent.recordsStored (h : c.Consistent) (records : List Snapshot) :
    (c.recordsStored records).Consistent ∧ (c.recordsStored records).holes = c.holes := by
  unfold Contents.recordsStored
  induction records generalizing c with
  | nil => exact ⟨h, rfl⟩
  | cons r rest ih =>
    obtain ⟨hlast, hholes⟩ := ih (h.upsert r.key r.fields true false)
    exact ⟨hlast, hholes.trans (upsert_holes c _ _ _ _)⟩

theorem declareIndex_entries {f : Record → Record} (hf : ∀ r, (f r).snapshot = r.snapshot)
    (hslots : c'.slots = c.slots.map (Option.map f)) : c'.snapshots = c.snapshots := by
  unfold snapshots live
  rw [hslots, List.filterMap_map]
  induction c.slots with
  | nil => rfl
  | cons o rest ih =>
    cases o with
    | none => exact ih
    | some r => exact congrArg₂ List.cons (hf r) ih

theorem entries_eq_map_snapshots (c : Contents) :
    c.entries = c.snapshots.map fun r => (r.key, r.fields) := by
  unfold entries snapshots
  rw [List.map_map]
  rfl

theorem Consistent.declareIndexes (h : c.Consistent) {indexes : List (List String)}
    (hc : c.declareIndexes indexes = .ok c') :
    c'.Consistent ∧ c'.snapshots = c.snapshots ∧ c'.versions = c.versions ∧
      c'.revision = c.revision ∧ c'.holes = c.holes := by
  unfold Contents.declareIndexes at hc
  induction indexes generalizing c with
  | nil =>
    obtain rfl := Except.ok.inj hc
    exact ⟨h, rfl, rfl, rfl, rfl⟩
  | cons fields rest ih =>
    rw [List.foldlM_cons] at hc
    cases hd : c.declareIndex fields with
    | error fault =>
      rw [hd] at hc
      exact absurd hc (by simp [Except.map, bind, Except.bind])
    | ok declared =>
      obtain ⟨signature, d⟩ := declared
      obtain ⟨hconsistent, ⟨f, hf, hslots⟩, hversions, hrevision, hholes⟩ := h.declareIndex hd
      rw [hd] at hc
      obtain ⟨hlast, hsnapshots, hversions', hrevision', hsame⟩ := ih hconsistent hc
      exact ⟨hlast, hsnapshots.trans (declareIndex_entries hf hslots),
        hversions'.trans hversions, hrevision'.trans hrevision, hsame.trans hholes⟩

end Contents

namespace Store

variable {s s' : Store} {w : World}

/-! ### Batches -/

/-- Applying an item gives the contents with it applied, and changes counts at most. -/
theorem applied_alike (s : Store) (item : BatchItem) :
    ({ s with contents := s.contents.itemApplied s.config.versioning item } : Store).Alike
      (s.applied item).2 := by
  cases item with
  | store key data => exact ⟨rfl, rfl, rfl, rfl, rfl, rfl⟩
  | remove key =>
    dsimp only [applied, Contents.itemApplied]
    cases (s.contents.catalog.position? key).bind s.contents.hollow with
    | none => exact Alike.refl s
    | some _ => exact ⟨rfl, rfl, rfl, rfl, rfl, rfl⟩

theorem appliedAll_error (s : Store) (place : Nat) (e : StoreError)
    (rest : List (Except StoreError BatchItem)) :
    s.appliedAll place (.error e :: rest) =
      let o := ({ s with stats.errors := s.stats.errors + 1 } : Store).appliedAll (place + 1) rest
      ({ o.1 with failed := (place, e) :: o.1.failed }, o.2) := rfl

theorem appliedAll_of_ok {item : BatchItem} {key : String} (h : (s.applied item).1 = .ok key)
    (place : Nat) (rest : List (Except StoreError BatchItem)) :
    s.appliedAll place (.ok item :: rest) =
      let o := (s.applied item).2.appliedAll (place + 1) rest
      ({ o.1 with succeeded := key :: o.1.succeeded }, o.2) := by
  rw [appliedAll]
  dsimp only
  rw [h]

theorem appliedAll_of_error {item : BatchItem} {e : StoreError}
    (h : (s.applied item).1 = .error e) (place : Nat)
    (rest : List (Except StoreError BatchItem)) :
    s.appliedAll place (.ok item :: rest) =
      let t := (s.applied item).2
      let o := ({ t with stats.errors := t.stats.errors + 1 } : Store).appliedAll (place + 1) rest
      ({ o.1 with failed := (place, e) :: o.1.failed }, o.2) := by
  rw [appliedAll]
  dsimp only
  rw [h]

/-- Stores that are alike but for their contents. -/
theorem Alike.withContents (h : s.Alike s') (c : Contents) :
    ({ s with contents := c } : Store).Alike { s' with contents := c } :=
  ⟨h.config, rfl, h.views, h.feed, h.poisoned, h.remote⟩

theorem appliedAll_alike (s : Store) (place : Nat) (ready : List (Except StoreError BatchItem)) :
    ({ s with contents := s.contents.itemsApplied s.config.versioning ready } : Store).Alike
      (s.appliedAll place ready).2 := by
  induction ready generalizing s place with
  | nil => exact Alike.refl s
  | cons item rest ih =>
    cases item with
    | error e =>
      rw [appliedAll_error, Contents.itemsApplied_error]
      have hcounted : s.Alike { s with stats.errors := s.stats.errors + 1 } :=
        ⟨rfl, rfl, rfl, rfl, rfl, rfl⟩
      exact (hcounted.withContents _).trans (ih _ (place + 1))
    | ok item =>
      have happlied := applied_alike s item
      have hnext : ∀ t : Store, (s.applied item).2.Alike t →
          ({ s with
            contents := s.contents.itemsApplied s.config.versioning (.ok item :: rest) } :
              Store).Alike (t.appliedAll (place + 1) rest).2 := by
        intro t ht
        have hsame := happlied.trans ht
        have hcontents : t.contents.itemsApplied t.config.versioning rest =
            s.contents.itemsApplied s.config.versioning (.ok item :: rest) := by
          rw [hsame.contents, hsame.config, Contents.itemsApplied_ok]
        have hrest := ih t (place + 1)
        rw [hcontents] at hrest
        exact (hsame.withContents _).trans hrest
      cases hresult : (s.applied item).1 with
      | ok key =>
        rw [appliedAll_of_ok hresult]
        exact hnext _ (Alike.refl _)
      | error e =>
        rw [appliedAll_of_error hresult]
        exact hnext _ ⟨rfl, rfl, rfl, rfl, rfl, rfl⟩

def batchBase (s : Store) (replace : Bool) : Contents :=
  if replace then s.contents.clear else s.contents

theorem consistent_batchBase (h : s.contents.Consistent) (replace : Bool) :
    (s.batchBase replace).Consistent := by
  cases replace with
  | true => exact h.clear
  | false => exact h

/-- With consistent contents a batch never fails as a whole: the items that can be applied are
applied, one after another, and the slots are closed. -/
theorem batchKeyed_spec (h : s.contents.Consistent) (hs : s.poisoned = false) (kind : BatchKind)
    (items : List (Option String × Value)) (replace : Bool) :
    ∃ c, ((s.batchBase replace).itemsApplied s.config.versioning
        (s.preparedAll w.keys kind items).1).reindex = .ok c ∧
      (s.batchKeyed w kind items replace).result =
        .ok (({ s with contents := s.batchBase replace } : Store).appliedAll 0
          (s.preparedAll w.keys kind items).1).1 ∧
      (s.changed c false .batch none).Alike (s.batchKeyed w kind items replace).store := by
  have hbase := consistent_batchBase h replace
  have hstore : (if replace then { s with contents := s.contents.clear } else s) =
      { s with contents := s.batchBase replace } := by
    unfold batchBase
    split_ifs <;> rfl
  obtain ⟨c, hc, -⟩ := (hbase.itemsApplied s.config.versioning
    (s.preparedAll w.keys kind items).1).1.exists_reindex
  refine ⟨c, hc, ?_⟩
  unfold batchKeyed
  rw [usable_eq hs]
  dsimp only
  rw [hstore]
  have halike := appliedAll_alike ({ s with contents := s.batchBase replace } : Store) 0
    (s.preparedAll w.keys kind items).1
  have hcontents : (({ s with contents := s.batchBase replace } : Store).appliedAll 0
      (s.preparedAll w.keys kind items).1).2.contents.reindex = .ok c := by
    rw [halike.contents]
    exact hc
  rw [hcontents]
  exact ⟨rfl, (halike.changed c false .batch none).trans ⟨rfl, rfl, rfl, rfl, rfl, rfl⟩⟩

/-! ### Loads -/

theorem isMap_items {payload : Value} {named : Bool} {items : List (Option String × Value)}
    (h : Payload.items payload named = .ok items) : ∀ e ∈ items, Payload.isMap e.2 = true := by
  unfold Payload.items at h
  split at h
  · rename_i list
    split at h
    · exact absurd h (by simp)
    · rename_i hfind
      obtain rfl := Except.ok.inj h
      intro e he
      obtain ⟨item, hitem, rfl⟩ := List.mem_map.mp he
      simpa using List.find?_eq_none.mp hfind item hitem
  · rename_i entries
    split at h
    · exact absurd h (by simp)
    · rename_i hfind
      obtain rfl := Except.ok.inj h
      intro e he
      obtain ⟨entry, hentry, rfl⟩ := List.mem_map.mp he
      simpa using List.find?_eq_none.mp hfind entry hentry
  · exact absurd h (by simp)

theorem isMap_payloadItems {payload : Value} {items : List (Option String × Value)}
    (h : s.payloadItems payload = .ok items) : ∀ e ∈ items, Payload.isMap e.2 = true := by
  unfold payloadItems at h
  split at h
  · exact isMap_items h
  · split at h
    · exact isMap_items h
    · exact absurd h (by simp)

theorem preparedAll_cons (s : Store) (keys : KeySupply) (kind : BatchKind)
    (given : Option String) (item : Value) (rest : List (Option String × Value)) :
    (s.preparedAll keys kind ((given, item) :: rest)).1 =
      (s.prepared keys kind given item).1 ::
        (s.preparedAll (s.prepared keys kind given item).2 kind rest).1 := rfl

/-- Every object of a set batch becomes an item that stores. -/
theorem preparedAll_stores (s : Store) (items : List (Option String × Value))
    (h : ∀ e ∈ items, Payload.isMap e.2 = true) (keys : KeySupply) :
    ∀ item ∈ (s.preparedAll keys .set items).1, ∃ key data, item = .ok (.store key data) := by
  induction items generalizing keys with
  | nil => exact fun item hitem => absurd hitem List.not_mem_nil
  | cons e rest ih =>
    obtain ⟨given, v⟩ := e
    have hmap : Payload.isMap v = true := h (given, v) (List.mem_cons_self ..)
    rw [preparedAll_cons]
    intro item hitem
    rcases List.mem_cons.mp hitem with rfl | hitem
    · cases v with
      | map data => exact ⟨_, data, rfl⟩
      | _ => exact absurd hmap Bool.false_ne_true
    · exact ih (fun e he => h e (List.mem_cons_of_mem _ he)) _ item hitem

theorem appliedAll_stores (s : Store) (place : Nat)
    (ready : List (Except StoreError BatchItem))
    (h : ∀ item ∈ ready, ∃ key data, item = .ok (.store key data)) :
    (s.appliedAll place ready).1.failed = [] := by
  induction ready generalizing s place with
  | nil => rfl
  | cons item rest ih =>
    obtain ⟨key, data, rfl⟩ := h item (List.mem_cons_self ..)
    have hkey : (s.applied (.store key data)).1 = .ok key := rfl
    rw [appliedAll_of_ok hkey]
    exact ih _ _ fun item hitem => h item (List.mem_cons_of_mem _ hitem)

theorem prepared_congr (h : s'.config = s.config) (keys : KeySupply) (kind : BatchKind)
    (given : Option String) (item : Value) :
    s'.prepared keys kind given item = s.prepared keys kind given item := by
  have hkeyOf : s'.keyOf? = s.keyOf? := by
    funext data
    unfold keyOf?
    rw [h]
  unfold prepared chooseKey
  rw [hkeyOf]

theorem preparedAll_congr (h : s'.config = s.config) (keys : KeySupply) (kind : BatchKind)
    (items : List (Option String × Value)) :
    s'.preparedAll keys kind items = s.preparedAll keys kind items := by
  induction items generalizing keys with
  | nil => rfl
  | cons e rest ih =>
    obtain ⟨given, item⟩ := e
    simp only [preparedAll, prepared_congr h, ih]

def Loads (s : Store) (keys : KeySupply) (payload : Value) (c : Contents) : Prop :=
  ∃ items, s.payloadItems payload = .ok items ∧
    (s.contents.clear.itemsApplied s.config.versioning
      (s.preparedAll keys .set items).1).reindex = .ok c

theorem Loads.of_alike {keys : KeySupply} {payload : Value} {c : Contents}
    (hc : s'.Loads keys payload c) (h : s.Alike s') : s.Loads keys payload c := by
  obtain ⟨items, hitems, hc⟩ := hc
  refine ⟨items, ?_, ?_⟩
  · unfold payloadItems at hitems ⊢
    rwa [h.config] at hitems
  · rwa [preparedAll_congr h.config, h.contents, h.config] at hc

/-- All records of an accepted payload are stored. -/
theorem replaced_of_items (h : s.contents.Consistent) (hs : s.poisoned = false) {payload : Value}
    {items : List (Option String × Value)} (hitems : s.payloadItems payload = .ok items) :
    ∃ keys c, s.Loads w.keys payload c ∧ (s.replaced w payload).result = .ok keys ∧
      (s.changed c false .batch none).Alike (s.replaced w payload).store := by
  obtain ⟨c, hc, hresult, halike⟩ := batchKeyed_spec (w := w) h hs .set items true
  have hfailed := appliedAll_stores ({ s with contents := s.batchBase true } : Store) 0 _
    (preparedAll_stores s items (isMap_payloadItems hitems) w.keys)
  revert hresult hfailed
  generalize (({ s with contents := s.batchBase true } : Store).appliedAll 0 _).1 = report
  intro hresult hfailed
  have hkeys : report.keys = .ok report.succeeded := by
    unfold BatchReport.keys BatchReport.isComplete
    rw [hfailed]
    rfl
  unfold replaced
  rw [usable_eq hs, hitems]
  dsimp only
  rw [hresult]
  exact ⟨report.succeeded, c, ⟨items, hitems, hc⟩, hkeys, halike⟩

theorem replaced_of_fault (hs : s.poisoned = false) {payload : Value} {fault : ShapeFault}
    (hfault : s.payloadItems payload = .error fault) :
    s.replaced w payload = ⟨.error (.expectedObject fault), s, w⟩ := by
  unfold replaced
  rw [usable_eq hs, hfault]

/-- A payload is refused before anything changes, or all its records are stored. -/
theorem replaced_cases (h : s.contents.Consistent) (hs : s.poisoned = false) (payload : Value) :
    (∃ e, (s.replaced w payload).result = .error e ∧ s.Alike (s.replaced w payload).store) ∨
    ∃ keys c, s.Loads w.keys payload c ∧ (s.replaced w payload).result = .ok keys ∧
      (s.changed c false .batch none).Alike (s.replaced w payload).store := by
  cases hitems : s.payloadItems payload with
  | error fault =>
    rw [replaced_of_fault hs hitems]
    exact Or.inl ⟨_, rfl, Alike.refl s⟩
  | ok items => exact Or.inr (replaced_of_items h hs hitems)

theorem load_cases (h : s.contents.Consistent) (hs : s.poisoned = false) (payload : Value) :
    (∃ e, (s.load w payload).result = .error e ∧ s.Alike (s.load w payload).store) ∨
    ∃ keys c, s.Loads w.keys payload c ∧ (s.load w payload).result = .ok keys ∧
      (s.changed c false .batch none).Alike (s.load w payload).store := by
  unfold load
  rw [tracked_result]
  have htracked := tracked_alike (s.replaced w payload)
  rcases replaced_cases (w := w) h hs payload with ⟨e, he, halike⟩ | ⟨keys, c, hc, hk, halike⟩
  · exact Or.inl ⟨e, he, halike.trans htracked⟩
  · exact Or.inr ⟨keys, c, hc, hk, halike.trans htracked⟩

/-- What the remote side holds is refused, or all its records are stored. -/
theorem sync_cases (h : s.contents.Consistent) (hs : s.poisoned = false) :
    (∃ e, (s.sync w).result = .error e ∧ s.Alike (s.sync w).store) ∨
    ∃ remote body keys c, s.remote = some remote ∧
      (remote.fetch w.client w.now).result = .ok body ∧ s.Loads w.keys body.toValue c ∧
      (s.sync w).result = .ok keys ∧
      (s.changed c false .batch none).Alike (s.sync w).store := by
  unfold sync
  rw [usable_eq hs, tracked_result]
  cases hremote : s.remote with
  | none => exact Or.inl ⟨_, rfl, tracked_alike (⟨.error _, s, w⟩ : Outcome (List String))⟩
  | some remote =>
    dsimp only
    generalize hfetched : remote.fetch w.client w.now = e
    have halike : s.Alike { s with remote := some e.collection } :=
      ⟨rfl, rfl, rfl, rfl, rfl, by rw [hremote]; rfl⟩
    cases hresult : e.result with
    | error error =>
      exact Or.inl ⟨error, rfl, halike.trans (tracked_alike
        (⟨.error error, _, _⟩ : Outcome (List String)))⟩
    | ok body =>
      dsimp only
      have htracked := tracked_alike (({ s with remote := some e.collection } : Store).replaced
        { w with client := e.client } body.toValue)
      rcases replaced_cases (s := { s with remote := some e.collection })
        (w := { w with client := e.client }) h hs body.toValue with
        ⟨error, he, hrest⟩ | ⟨keys, c, hc, hk, hrest⟩
      · exact Or.inl ⟨error, he, (halike.trans hrest).trans htracked⟩
      · right
        refine ⟨remote, body, keys, c, rfl, ?_, hc.of_alike halike, hk, ?_⟩
        · rw [hfetched]
          exact hresult
        · exact ((halike.changed c false .batch none).trans hrest).trans htracked

/-! ### Restoring -/

/-- The contents that restoring an archive leads to. -/
theorem unpacked_cases {config : Config} {archive : Archive} {c : Contents}
    (hc : unpacked config archive = .ok c) :
    ∃ declared, (Contents.empty config.versionLimit).declareIndexes
        (config.indexes ++ archive.indexes) = .ok declared ∧
      c = declared.recordsStored
        (archive.records.mergeSort fun a b => a.position ≤ b.position) := by
  unfold unpacked at hc
  split at hc
  · exact absurd hc (by simp)
  · rename_i declared hdeclared
    exact ⟨declared, hdeclared, (Except.ok.inj hc).symm⟩

theorem unpacked_consistent {config : Config} {archive : Archive} {c : Contents}
    (hc : unpacked config archive = .ok c) : c.Consistent ∧ c.holes = 0 := by
  obtain ⟨declared, hdeclared, rfl⟩ := unpacked_cases hc
  obtain ⟨hconsistent, -, -, -, hholes⟩ :=
    (Contents.consistent_empty config.versionLimit).declareIndexes hdeclared
  obtain ⟨hlast, hsame⟩ := hconsistent.recordsStored
    (archive.records.mergeSort fun a b => a.position ≤ b.position)
  exact ⟨hlast, hsame.trans hholes⟩

/-- Restoring puts what was saved in place, one revision on. -/
theorem restore_of_archive (hs : s.poisoned = false) {bytes : Bytes} {archive : Archive}
    {c : Contents} (hbytes : w.storage.get s.name = .ok (some bytes))
    (harchive : readArchive bytes = .ok archive) (hc : unpacked s.config archive = .ok c) :
    (s.restore w).result = .ok true ∧
      (s.changed { c with revision := s.revision } false .batch none).Alike
        (s.restore w).store := by
  unfold restore
  rw [usable_eq hs, tracked_result, hbytes]
  dsimp only
  rw [harchive]
  dsimp only
  rw [hc]
  exact ⟨rfl, tracked_alike (⟨.ok true, _, w⟩ : Outcome Bool)⟩

/-- Restoring fails or finds nothing and changes nothing, or puts what was saved in place. -/
theorem restore_cases (hs : s.poisoned = false) :
    ((∀ found, (s.restore w).result = .ok found → found = false) ∧
      s.Alike (s.restore w).store) ∨
    ∃ bytes archive c, w.storage.get s.name = .ok (some bytes) ∧
      readArchive bytes = .ok archive ∧ unpacked s.config archive = .ok c ∧
      (s.restore w).result = .ok true ∧
      (s.changed { c with revision := s.revision } false .batch none).Alike
        (s.restore w).store := by
  by_cases hfound : ∃ bytes archive c, w.storage.get s.name = .ok (some bytes) ∧
      readArchive bytes = .ok archive ∧ unpacked s.config archive = .ok c
  · obtain ⟨bytes, archive, c, hbytes, harchive, hc⟩ := hfound
    exact Or.inr ⟨bytes, archive, c, hbytes, harchive, hc,
      restore_of_archive hs hbytes harchive hc⟩
  left
  unfold restore
  rw [usable_eq hs, tracked_result]
  cases hbytes : w.storage.get s.name with
  | error e =>
    exact ⟨fun _ h => absurd h (by simp), tracked_alike (⟨.error _, s, w⟩ : Outcome Bool)⟩
  | ok found =>
    cases found with
    | none =>
      exact ⟨fun _ h => (Except.ok.inj h).symm, tracked_alike (⟨.ok false, s, w⟩ : Outcome Bool)⟩
    | some bytes =>
      dsimp only
      cases harchive : readArchive bytes with
      | error e =>
        exact ⟨fun _ h => absurd h (by simp), tracked_alike (⟨.error _, s, w⟩ : Outcome Bool)⟩
      | ok archive =>
        dsimp only
        cases hc : unpacked s.config archive with
        | error fault =>
          exact ⟨fun _ h => absurd h (by simp), tracked_alike (⟨.error _, s, w⟩ : Outcome Bool)⟩
        | ok c => exact absurd ⟨bytes, archive, c, hbytes, harchive, hc⟩ hfound

end Store
end IndexedStore
