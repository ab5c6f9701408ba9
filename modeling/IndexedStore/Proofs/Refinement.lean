import IndexedStore.Proofs.Journals
import IndexedStore.Proofs.VersionWindows

/-!
A store on its own refines a journal. Each operation does to the keys of the store, to what stands
under them and to what an undo can go back to what it does to a journal, so that after any
operations from an empty store on, callers read what the journal holds.
-/
namespace IndexedStore

namespace Versions

variable {v : Versions} {limit labelled : Nat} {earlier : String → Ledger Cells}

theorem Windowed.get?_eq_lookup {key : String} {recorded : List (String × Fields)}
    (h : v.Windowed key recorded) (label : String) :
    v.get? key label = (recorded.take v.limit).lookup label := by
  cases hfound : (recorded.take v.limit).lookup label with
  | some fields =>
    obtain ⟨before, later, hsplit, -⟩ := List.lookup_eq_some_iff.mp hfound
    rw [h.get?_iff, hsplit]
    simp
  | none =>
    apply h.get?_eq_none
    intro hlabel
    rw [h.labels_eq, List.mem_reverse] at hlabel
    exact absurd (Ledger.lookup_isSome_iff.mpr hlabel) (by simp [hfound])

/-- What versions keep of each key are the latest of some earlier cells, and the next label is the
next number. -/
structure Keeps (v : Versions) (limit : Nat) (earlier : String → Ledger Cells) (labelled : Nat) :
    Prop where
  windows : ∀ key, ∃ recorded, v.Windowed key recorded ∧
    earlier key = Ledger.mapped Cells.of recorded
  labelled : labelled = v.next
  limit : v.limit = max limit 1

theorem keeps_empty (limit : Nat) : (empty limit).Keeps limit (fun _ => []) 0 :=
  ⟨fun key => ⟨[], windowed_empty limit key, rfl⟩, rfl, rfl⟩

theorem Keeps.add (h : v.Keeps limit earlier labelled) (key : String) (fields : Fields) :
    (v.add key fields).2.Keeps limit
      (Function.update earlier key
        (("v" ++ toString labelled, Cells.of fields) :: earlier key)) (labelled + 1) := by
  refine ⟨fun other => ?_, congrArg (· + 1) h.labelled, h.limit⟩
  obtain ⟨recorded, hwindowed, hearlier⟩ := h.windows other
  by_cases hother : other = key
  · subst hother
    refine ⟨_, hwindowed.add_self fields, ?_⟩
    rw [Function.update_self, hearlier, h.labelled]
    rfl
  · refine ⟨recorded, ?_, ?_⟩
    · have hchanged := hwindowed.changed (.add key fields)
      rwa [recordedBy, if_neg (Ne.symm hother)] at hchanged
    · rw [Function.update_of_ne hother]
      exact hearlier

theorem Keeps.remove (h : v.Keeps limit earlier labelled) (key : String) :
    (v.remove key).Keeps limit (Function.update earlier key []) labelled := by
  refine ⟨fun other => ?_, h.labelled, h.limit⟩
  obtain ⟨recorded, hwindowed, hearlier⟩ := h.windows other
  have hchanged := hwindowed.changed (.remove key)
  by_cases hother : other = key
  · subst hother
    rw [recordedBy, if_pos rfl] at hchanged
    exact ⟨[], hchanged, Function.update_self other [] earlier⟩
  · rw [recordedBy, if_neg (Ne.symm hother)] at hchanged
    refine ⟨recorded, hchanged, ?_⟩
    rw [Function.update_of_ne hother]
    exact hearlier

theorem Keeps.clear (h : v.Keeps limit earlier labelled) :
    v.clear.Keeps limit (fun _ => []) labelled := by
  refine ⟨fun key => ?_, h.labelled, h.limit⟩
  obtain ⟨recorded, hwindowed, -⟩ := h.windows key
  exact ⟨[], hwindowed.changed .clear, rfl⟩

end Versions

namespace Contents

variable {c c' : Contents} {limit : Nat} {j : Journal}

/-- The records of contents are those of a journal, and so is what is kept of their earlier
fields. -/
structure Follows (c : Contents) (limit : Nat) (j : Journal) : Prop where
  pairs : j.pairs = Ledger.mapped Cells.of c.entries
  versions : c.versions.Keeps limit j.earlier j.labelled

theorem Follows.withPairs (h : c.Follows limit j) {pairs : Ledger Cells}
    (hpairs : pairs = Ledger.mapped Cells.of c'.entries) (hversions : c'.versions = c.versions) :
    c'.Follows limit { j with pairs := pairs } :=
  ⟨hpairs, hversions ▸ h.versions⟩

theorem Follows.congr (h : c.Follows limit j) (hentries : c'.entries = c.entries)
    (hversions : c'.versions = c.versions) : c'.Follows limit j :=
  h.withPairs (hentries ▸ h.pairs) hversions

theorem Follows.lookup_eq (h : c.Follows limit j) (hc : c.Consistent) (key : String) :
    j.pairs.lookup key = (c.record? key).map fun r => Cells.of r.fields := by
  rw [h.pairs, Ledger.lookup_mapped, hc.lookup_entries, Option.map_map]
  rfl

theorem Follows.mem_keys_iff (h : c.Follows limit j) (hc : c.Consistent) (key : String) :
    key ∈ j.pairs.map Prod.fst ↔ (c.record? key).isSome := by
  rw [← Ledger.lookup_isSome_iff, h.lookup_eq hc, Option.isSome_map]

/-- Storing data goes along with storing what it makes of the cells that were there. -/
theorem Follows.upsert (h : c.Follows limit j) (hc : c.Consistent) (key : String) {data : Fields}
    {overwrite : Bool} {next : Option Cells → Cells}
    (hnext : ∀ before, Cells.of (fieldsAfter data overwrite before) = next (before.map Cells.of))
    (versioning : Bool) :
    (c.upsert key data overwrite versioning).contents.Follows limit
      (j.store versioning key next) := by
  have hpairs : j.pairs.put key next =
      Ledger.mapped Cells.of (c.upsert key data overwrite versioning).contents.entries := by
    rw [hc.entries_upsert, Ledger.mapped_put hnext, h.pairs]
  have hlookup := h.lookup_eq hc key
  have hversions := versions_upsert c key data overwrite versioning
  cases hr : c.record? key with
  | none =>
    rw [hr] at hlookup hversions
    rw [Journal.store_of_absent hlookup]
    exact h.withPairs hpairs hversions
  | some r =>
    rw [hr] at hlookup hversions
    cases versioning with
    | false =>
      rw [Journal.store_unversioned]
      exact h.withPairs hpairs hversions
    | true =>
      rw [Journal.store_of_present hlookup]
      refine ⟨hpairs, ?_⟩
      rw [hversions]
      exact h.versions.add key r.fields

theorem Follows.removal (h : c.Follows limit j) (hc : c.Consistent) {r : Record}
    {options : DeleteOptions} (hr : c.record? r.key = some r) (hremoval : c.Removal r options c') :
    c'.Follows limit (j.erase r.key) := by
  unfold Journal.erase
  rw [if_pos ((h.mem_keys_iff hc r.key).mpr (by rw [hr]; rfl))]
  constructor
  · rw [hc.entries_removal hremoval, Ledger.mapped_erase, h.pairs]
  · rw [(hc.declared_removal hremoval).2]
    exact h.versions.remove r.key

theorem Follows.clear (h : c.Follows limit j) : c.clear.Follows limit j.cleared :=
  ⟨rfl, h.versions.clear⟩

/-! ### Batches -/

theorem Follows.items_store (h : c.Follows limit j) (hc : c.Consistent) (versioning : Bool)
    (pairs : List (String × Fields)) :
    ((storesOf pairs).foldl (itemApplied versioning) c).Follows limit
      (j.storeAll versioning pairs) := by
  induction pairs generalizing c j with
  | nil => exact h
  | cons e rest ih =>
    apply ih
    · exact h.upsert hc e.1 (Cells.of_fieldsAfter e.2 false) versioning
    · exact hc.upsert e.1 e.2 false versioning

theorem Follows.items_remove (h : c.Follows limit j) (hc : c.Consistent) (versioning : Bool)
    (keys : List String) :
    ((keys.map BatchItem.remove).foldl (itemApplied versioning) c).Follows limit
      (keys.foldl Journal.erase j) := by
  induction keys generalizing c j with
  | nil => exact h
  | cons key rest ih =>
    apply ih
    · unfold itemApplied
      dsimp only
      rcases hc.hollow_cases key with ⟨hnone, hbind⟩ | ⟨r, c', hsome, rfl, hbind, hremoval⟩
      · have habsent : key ∉ j.pairs.map Prod.fst := by
          rw [h.mem_keys_iff hc, hnone]
          simp
        rw [hbind, Journal.erase_of_absent habsent]
        exact h
      · rw [hbind]
        exact h.removal hc hsome hremoval
    · exact (hc.itemApplied versioning (.remove key)).1

/-! ### Archives -/

theorem mapped_recordsStored (records : List Snapshot) (l : Ledger Fields) :
    Ledger.mapped Cells.of
        (records.foldl (fun l r => Ledger.put l r.key (fieldsAfter r.fields true)) l) =
      records.foldl (fun l r => Ledger.put l r.key fun _ => Cells.of r.fields)
        (Ledger.mapped Cells.of l) := by
  induction records generalizing l with
  | nil => rfl
  | cons r rest ih =>
    have hput : Ledger.mapped Cells.of (Ledger.put l r.key (fieldsAfter r.fields true)) =
        Ledger.put (Ledger.mapped Cells.of l) r.key fun _ => Cells.of r.fields := by
      apply Ledger.mapped_put
      intro before
      cases before <;> rfl
    rw [List.foldl_cons, List.foldl_cons, ih, hput]

end Contents

namespace Store

variable {s s' : Store} {w : World} {j : Journal}

theorem unpacked_follows {config : Config} {archive : Archive} {c : Contents}
    (hc : unpacked config archive = .ok c) :
    c.Follows config.versionLimit ⟨archive.pairs, fun _ => [], 0⟩ := by
  have hversions := versions_unpacked hc
  obtain ⟨declared, hdeclared, rfl⟩ := unpacked_cases hc
  obtain ⟨hconsistent, hsnapshots, -⟩ :=
    (Contents.consistent_empty config.versionLimit).declareIndexes hdeclared
  constructor
  · rw [hconsistent.entries_recordsStored, Contents.mapped_recordsStored,
      Contents.entries_eq_map_snapshots, hsnapshots]
    rfl
  · rw [hversions]
    exact Versions.keeps_empty config.versionLimit

theorem exists_unpacked_iff {config : Config} {archive : Archive}
    (hconfig : ∀ names ∈ config.indexes, (Catalog.signature? names).isSome) :
    (∃ c, unpacked config archive = .ok c) ↔ archive.indexes.all indexable = true := by
  rw [List.all_eq_true]
  constructor
  · rintro ⟨c, hc⟩ names hnames
    obtain ⟨declared, hdeclared, -⟩ := unpacked_cases hc
    apply (indexable_iff names).mpr
    exact Contents.signature?_of_declareIndexes hdeclared names (List.mem_append_right _ hnames)
  · intro hall
    have hboth : ∀ names ∈ config.indexes ++ archive.indexes,
        (Catalog.signature? names).isSome := by
      intro names hnames
      rcases List.mem_append.mp hnames with hnames | hnames
      · exact hconfig names hnames
      · exact (indexable_iff names).mp (hall names hnames)
    obtain ⟨d, hd, -⟩ := Contents.exists_declareIndexes (c := .empty config.versionLimit) hboth
    unfold unpacked
    rw [hd]
    exact ⟨_, rfl⟩

/-- An archive can be taken back exactly when it can be read and there can be all of its
indexes. -/
theorem archive?_eq_some_iff {config : Config} {storage : Storage.Backend} {name : String}
    (hconfig : ∀ names ∈ config.indexes, (Catalog.signature? names).isSome) {archive : Archive} :
    storage.archive? name = some archive ↔
      ∃ bytes c, storage.get name = .ok (some bytes) ∧ readArchive bytes = .ok archive ∧
        unpacked config archive = .ok c := by
  have hread (bytes : Bytes) : readArchive bytes = .ok archive ↔
      Cbor.readArchive? bytes = some archive := by
    unfold readArchive
    cases Cbor.readArchive? bytes <;> simp
  unfold Storage.Backend.archive?
  split
  · rename_i bytes hbytes
    rw [Option.filter_eq_some_iff, ← exists_unpacked_iff hconfig]
    constructor
    · rintro ⟨harchive, c, hc⟩
      exact ⟨bytes, c, hbytes, (hread bytes).mpr harchive, hc⟩
    · rintro ⟨bytes', c, hbytes', harchive, hc⟩
      obtain rfl := Option.some.inj (Except.ok.inj (hbytes.symm.trans hbytes'))
      exact ⟨(hread bytes).mp harchive, c, hc⟩
  · rename_i hnone
    constructor
    · exact fun h => absurd h (by simp)
    · rintro ⟨bytes, c, hbytes, -⟩
      exact absurd hbytes (hnone bytes)

/-! ### What is prepared -/

theorem chooseKey_none (s : Store) (keys : KeySupply) (data : Fields) :
    s.chooseKey keys none data =
      match broughtKey? s.config.keyField none data with
      | some key => (key, keys)
      | none => keys.next := by
  rw [← keyOf?_eq]
  rfl

theorem chooseKey_fst (s : Store) (keys : KeySupply) (given : Option String) (data : Fields) :
    (s.chooseKey keys given data).1 =
      (given.or (broughtKey? s.config.keyField none data)).getD (keys.key keys.used) := by
  cases given with
  | some key => rfl
  | none =>
    rw [chooseKey_none]
    cases broughtKey? s.config.keyField none data <;> rfl

theorem prepared_stores (s : Store) (keys : KeySupply) (items : List Value) :
    (s.preparedAll keys .set (items.map fun item => (none, item))).1.filterMap
        Except.toOption =
      storesOf (keyedObjects s.config.keyField keys
        ((items.filterMap Value.object?).map fun data => (none, data))) := by
  induction items generalizing keys with
  | nil => rfl
  | cons item rest ih =>
    cases item with
    | map data =>
      simp only [List.map_cons, List.filterMap_cons, Value.object?, keyedObjects]
      unfold preparedAll prepared
      dsimp only
      rw [chooseKey_none]
      cases broughtKey? s.config.keyField none data with
      | some key => exact congrArg (BatchItem.store key data :: ·) (ih keys)
      | none => exact congrArg (BatchItem.store keys.next.1 data :: ·) (ih keys.next.2)
    | _ => exact ih keys

theorem prepared_removes (s : Store) (keys : KeySupply) (items : List Value) :
    (s.preparedAll keys .delete (items.map fun item => (none, item))).1.filterMap
        Except.toOption =
      (items.filterMap (Value.deletedKey? s.config.keyField)).map .remove := by
  induction items generalizing keys with
  | nil => rfl
  | cons item rest ih =>
    cases item with
    | map data =>
      rw [List.map_cons, preparedAll_cons]
      unfold prepared
      dsimp only [Value.deletedKey?, List.filterMap_cons]
      rw [Option.none_or, keyOf?_eq]
      cases broughtKey? s.config.keyField none data with
      | some key => exact congrArg (BatchItem.remove key :: ·) (ih keys)
      | none => exact ih keys
    | null => exact ih keys
    | bool b => exact congrArg (BatchItem.remove _ :: ·) (ih keys)
    | number x => exact congrArg (BatchItem.remove _ :: ·) (ih keys)
    | text t => exact congrArg (BatchItem.remove _ :: ·) (ih keys)
    | list items => exact congrArg (BatchItem.remove _ :: ·) (ih keys)

/-! ### What an undo goes back to -/

theorem earlier?_eq (h : s.contents.Follows s.config.versionLimit j) (key : String)
    (label : Option String) :
    j.earlier? s.config.versionLimit key label =
      (s.undoFields? key label).map Cells.of := by
  obtain ⟨recorded, hwindowed, hearlier⟩ := h.versions.windows key
  have hkept : (j.earlier key).take (max s.config.versionLimit 1) =
      Ledger.mapped Cells.of (recorded.take s.contents.versions.limit) := by
    rw [hearlier, h.versions.limit]
    exact List.map_take.symm
  unfold Journal.earlier? undoFields?
  rw [hkept]
  cases label with
  | some label =>
    dsimp only
    rw [Ledger.lookup_mapped, hwindowed.get?_eq_lookup]
  | none =>
    dsimp only
    rw [hwindowed.oldest?_eq]
    unfold Ledger.mapped
    rw [List.getLast?_map, Option.map_map, Option.map_map]
    rfl

/-! ### Operations -/

theorem follows_of_alike {limit : Nat} (h : s.contents.Follows limit j) (halike : s.Alike s') :
    s'.contents.Follows limit j := by
  rw [halike.contents]
  exact h

theorem follows_of_changed {limit : Nat} {c : Contents} {quiet : Bool} {kind : EventKind}
    {key : Option String} (h : c.Follows limit j)
    (halike : (s.changed c quiet kind key).Alike s') : s'.contents.Follows limit j := by
  rw [halike.contents, changed_contents]
  exact h.congr rfl rfl

structure Tracks (s : Store) (j : Journal) : Prop where
  sound : s.Sound
  alone : s.remote.isSome = false
  indexes : ∀ names ∈ s.config.indexes, (Catalog.signature? names).isSome
  contents : s.contents.Follows s.config.versionLimit j

theorem Tracks.set (h : s.Tracks j) (given : Option String) {data : Fields}
    {options : SetOptions} {next : Option Cells → Cells}
    (hnext : ∀ before,
      Cells.of (Contents.fieldsAfter data options.overwrite before) = next (before.map Cells.of)) :
    (s.set w given data options).store.contents.Follows s.config.versionLimit
      (j.store s.config.versioning (s.chooseKey w.keys given data).1 next) := by
  rcases set_cases (w := w) h.sound.usable given data options with
    ⟨_, hremote, -, -⟩ | ⟨_, rfl, -, halike⟩
  · exact absurd (hremote.symm.trans h.alone) (by simp)
  · exact follows_of_changed (h.contents.upsert h.sound.consistent _ hnext _) halike

theorem Tracks.undo (h : s.Tracks j) (key : String) (label : Option String) :
    (s.undo w key label).store.contents.Follows s.config.versionLimit
      (j.step s.config s.contents.snapshots w (.undo key label)) := by
  unfold Journal.step
  dsimp only
  rw [earlier?_eq h.contents]
  rcases undo_cases (s := s) (w := w) key label with ⟨hnone, -, halike⟩ | ⟨fields, hsome, hset⟩
  · rw [hnone]
    exact follows_of_alike h.contents halike
  · rw [hsome, hset]
    apply h.set (some key)
    intro before
    cases before <;> rfl

theorem Tracks.delete (h : s.Tracks j) (target : Target) (options : DeleteOptions) :
    (s.delete w target options).store.contents.Follows s.config.versionLimit
      (j.step s.config s.contents.snapshots w (.delete target options)) := by
  unfold Journal.step
  dsimp only
  rw [← h.sound.consistent.find?_snapshot target]
  rcases delete_cases (w := w) h.sound.consistent h.sound.usable target options with
    ⟨_, hnone | hremote, -, halike⟩ | ⟨r, c, hfound, hremoval, -, halike⟩
  · rw [hnone]
    exact follows_of_alike h.contents halike
  · exact absurd (hremote.symm.trans h.alone) (by simp)
  · obtain ⟨p, hp⟩ := Contents.recordAt?_of_find? hfound
    have hr := h.sound.consistent.record?_of_recordAt? hp
    rw [hfound]
    exact follows_of_changed (h.contents.removal h.sound.consistent hr hremoval) halike

theorem Tracks.batchBase (h : s.Tracks j) (replace : Bool) :
    (s.batchBase replace).Consistent ∧
      (s.batchBase replace).Follows s.config.versionLimit (if replace then j.cleared else j) := by
  refine ⟨consistent_batchBase h.sound.consistent replace, ?_⟩
  cases replace with
  | true => exact h.contents.clear
  | false => exact h.contents

/-- Closing the slots when a batch is through changes nothing that a journal tells of. -/
theorem follows_of_reindex {c c' : Contents} {limit : Nat} (hc : c.Consistent)
    (h : c.Follows limit j) (hreindex : c.reindex = .ok c') : c'.Follows limit j :=
  h.congr (hc.of_reindex hreindex).2.2.2 (Contents.versions_reindex hreindex)

theorem Tracks.batchDetailed (h : s.Tracks j) (kind : BatchKind) (items : List Value)
    (replace : Bool) :
    (s.batchDetailed w kind items replace).store.contents.Follows s.config.versionLimit
      ((if replace then j.cleared else j).batch s.config w.keys items kind) := by
  obtain ⟨c, hc, -, halike⟩ := batchKeyed_spec (w := w) h.sound.consistent h.sound.usable kind
    (items.map fun item => (none, item)) replace
  obtain ⟨hbase, hfollows⟩ := h.batchBase replace
  refine follows_of_changed ?_ halike
  refine follows_of_reindex (hbase.itemsApplied s.config.versioning _).1 ?_ hc
  unfold Contents.itemsApplied
  cases kind with
  | set =>
    rw [prepared_stores]
    exact hfollows.items_store hbase s.config.versioning _
  | delete =>
    rw [prepared_removes]
    exact hfollows.items_remove hbase s.config.versioning _

theorem Tracks.load (h : s.Tracks j) (payload : Value) :
    (s.load w payload).store.contents.Follows s.config.versionLimit
      (j.step s.config s.contents.snapshots w (.load payload)) := by
  unfold Journal.step
  dsimp only
  cases hobjects : (Payload.sourced? s.config.source payload).bind Value.objects? with
  | some objects =>
    obtain ⟨p, hp, hcollects⟩ := Option.bind_eq_some_iff.mp hobjects
    have hitems := payloadItems_of_collects s hp (Value.objects?_eq_some_iff.mp hcollects)
    obtain ⟨c, hc, hreport, hbatch⟩ :=
      batchKeyed_spec (w := w) h.sound.consistent h.sound.usable .set _ true
    obtain ⟨-, hload, -⟩ := load_of_items h.sound.usable hitems hreport
    obtain ⟨hbase, hfollows⟩ := h.batchBase true
    refine follows_of_changed ?_ (hbatch.trans hload)
    refine follows_of_reindex (hbase.itemsApplied s.config.versioning _).1 ?_ hc
    unfold Contents.itemsApplied
    rw [preparedAll_objects, filterMap_toOption_map_ok]
    exact hfollows.items_store hbase s.config.versioning _
  | none =>
    rcases load_cases (w := w) h.sound.consistent h.sound.usable payload with
      ⟨_, -, halike⟩ | ⟨_, _, ⟨items, hitems, -⟩, -, -⟩
    · exact follows_of_alike h.contents halike
    · obtain ⟨p, objects, hp, hcollects⟩ := exists_collects_of_payloadItems hitems
      rw [hp, Option.bind_some, Value.objects?_eq_some_iff.mpr hcollects] at hobjects
      exact absurd hobjects (by simp)

theorem Tracks.restore (h : s.Tracks j) :
    (s.restore w).store.contents.Follows s.config.versionLimit
      (j.step s.config s.contents.snapshots w .restore) := by
  unfold Journal.step
  dsimp only
  rcases restore_cases (w := w) h.sound.usable with
    ⟨hfound, halike⟩ | ⟨bytes, archive, c, hbytes, harchive, hc, -, halike⟩
  · cases hsaved : w.storage.archive? s.config.name with
    | none => exact follows_of_alike h.contents halike
    | some archive =>
      obtain ⟨bytes, c, hbytes, harchive, hc⟩ := (archive?_eq_some_iff h.indexes).mp hsaved
      have hresult := (restore_of_archive h.sound.usable hbytes harchive hc).1
      exact absurd (hfound true hresult) (by simp)
  · have hsaved : w.storage.archive? s.config.name = some archive :=
      (archive?_eq_some_iff h.indexes).mpr ⟨bytes, c, hbytes, harchive, hc⟩
    rw [hsaved]
    have hrestored : ({ c with revision := s.revision } : Contents).Follows s.config.versionLimit
        ⟨archive.pairs, fun _ => [], 0⟩ := (unpacked_follows hc).congr rfl rfl
    exact follows_of_changed hrestored halike

theorem Tracks.declareIndex (h : s.Tracks j) (fields : List String) :
    (s.declareIndex w fields).store.contents.Follows s.config.versionLimit j := by
  rcases h.sound.declareIndex_cases (w := w) fields with ⟨-, -, halike⟩ | ⟨_, c, hc, -, halike⟩
  · exact follows_of_alike h.contents halike
  · obtain ⟨-, ⟨f, hf, hslots⟩, hversions, -⟩ := h.sound.consistent.declareIndex hc
    have hentries : c.entries = s.contents.entries := by
      rw [Contents.entries_eq_map_snapshots, Contents.declareIndex_entries hf hslots,
        ← Contents.entries_eq_map_snapshots]
    exact follows_of_alike (s := { s with contents := c }) (h.contents.congr hentries hversions)
      halike

/-- Each operation does to a store of its own what it does to its journal. -/
theorem Tracks.perform_contents (h : s.Tracks j) (w : World) (operation : Operation) :
    (s.perform w operation).store.contents.Follows s.config.versionLimit
      (j.step s.config s.contents.snapshots w operation) := by
  have hread := h.sound.contents_of_isRead w operation
  cases operation with
  | declareIndex fields => exact h.declareIndex fields
  | set given data options =>
    unfold Journal.step
    dsimp only
    rw [← chooseKey_fst]
    exact h.set given (Cells.of_fieldsAfter data options.overwrite)
  | delete target options => exact h.delete target options
  | undo key label => exact h.undo key label
  | reindex =>
    obtain ⟨c, hc, -, halike⟩ := reindex_spec (w := w) h.sound.consistent h.sound.usable
    exact follows_of_changed (follows_of_reindex h.sound.consistent h.contents hc) halike
  | clear => exact h.contents.clear.congr rfl rfl
  | batch kind items replace =>
    exact follows_of_alike (h.batchDetailed kind items replace)
      (batch_alike s w kind items replace)
  | batchDetailed kind items replace => exact h.batchDetailed kind items replace
  | load payload => exact h.load payload
  | sync =>
    rcases sync_cases (w := w) h.sound.consistent h.sound.usable with
      ⟨-, -, halike⟩ | ⟨_, _, _, _, hremote, -, -, -, -⟩
    · exact follows_of_alike h.contents halike
    · have halone := h.alone
      rw [hremote] at halone
      exact absurd halone (by simp)
  | restore => exact h.restore
  | _ =>
    rw [hread rfl]
    exact h.contents

theorem Tracks.perform (h : s.Tracks j) (w : World) (operation : Operation) :
    (s.perform w operation).store.Tracks (j.step s.config s.contents.snapshots w operation) := by
  have hconfig := h.sound.perform_config w operation
  refine ⟨h.sound.perform w operation, ?_, ?_, ?_⟩
  · exact (h.sound.perform_remote w operation).trans h.alone
  all_goals rw [hconfig]
  · exact h.indexes
  · exact h.perform_contents w operation

/-! ### Runs -/

def journal (s : Store) (j : Journal) : List (World × Operation) → Journal
  | [] => j
  | (w, operation) :: rest =>
    (s.perform w operation).store.journal (j.step s.config s.contents.snapshots w operation) rest

theorem Tracks.after (h : s.Tracks j) (steps : List (World × Operation)) :
    (s.after steps).Tracks (s.journal j steps) := by
  induction steps generalizing s j with
  | nil => exact h
  | cons step rest ih => exact ih (h.perform step.1 step.2)

theorem tracks_empty {config : Config} (hs : (create config w).1 = .ok s) :
    s.Tracks .empty := by
  have hfresh : s.Fresh := ⟨config, w, Or.inl hs⟩
  obtain ⟨hsound, -, hsnapshots⟩ := hfresh.sound
  obtain ⟨_, -, -, -, -, -, hremote, -⟩ := build_cases hs
  refine ⟨hsound, by rw [hremote]; rfl, hfresh.signature?_config, ?_, ?_⟩
  · rw [Contents.entries_eq_map_snapshots, hsnapshots]
    rfl
  · rw [hfresh.versions_eq]
    exact Versions.keeps_empty s.config.versionLimit

/-- What a store leaves in storage when it is saved is what its journal holds. -/
theorem Tracks.archive?_save (h : s.Tracks j) (hordered : s.contents.Ordered)
    (hnests : s.NestsWithin) (hfits : s.Fits) (w : World) (hsaved : (s.save w).result = .ok ()) :
    ∃ archive, (s.save w).world.storage.archive? s.name = some archive ∧
      archive.pairs = j.pairs := by
  have hconsistent := h.sound.consistent
  obtain ⟨c, hc, hentries, -⟩ := exists_unpacked hconsistent h.indexes
  have harchive := hfits.readArchive_encode hconsistent hordered hnests
  refine ⟨s.archive, ?_, ?_⟩
  · apply (archive?_eq_some_iff h.indexes).mpr
    exact ⟨_, c, get_save hsaved, harchive, hc⟩
  · rw [h.contents.pairs, ← hentries]
    exact (unpacked_follows hc).pairs

/-- The keys, the size and the fields that a store on its own gives after any operations from its
making on are those of a journal after the same operations, which starts empty. While all data that
comes in has its names in order, the fields of each record have theirs, so just one list of fields
gives what the journal says, and a store that is saved leaves in storage what its journal holds. -/
theorem reads_after_operations {config : Config} (hs : (create config w).1 = .ok s)
    (steps : List (World × Operation)) :
    let t := s.after steps
    let j := s.journal .empty steps
    t.keys = j.pairs.map Prod.fst ∧ t.size = j.pairs.length ∧
      (∀ w', ∃ records, (t.get w' .all).result = .ok records ∧
        records.map (fun r => (r.key, Cells.of r.fields)) = j.pairs ∧
        (s.TakesAllOrdered steps → ∀ r ∈ records, (Value.map r.fields).Ordered)) ∧
      (s.TakesAllOrdered steps → t.NestsWithin → t.Fits → ∀ w', (t.save w').result = .ok () →
        ∃ archive, (t.save w').world.storage.archive? t.name = some archive ∧
          archive.pairs = j.pairs) := by
  intro t j
  have hfresh : s.Fresh := ⟨config, w, Or.inl hs⟩
  have htracks : t.Tracks j := (tracks_empty hs).after steps
  have hconsistent := htracks.sound.consistent
  have hpairs := htracks.contents.pairs
  refine ⟨?_, ?_, fun w' => ⟨_, (get_alike htracks.sound.usable .all).1, ?_, ?_⟩,
    fun htakes => htracks.archive?_save (hfresh.after_ordered steps htakes)⟩
  · rw [hpairs, Ledger.keys_mapped]
    exact Contents.keys_eq_map_entries _
  · rw [hpairs]
    unfold Ledger.mapped
    rw [List.length_map, Contents.entries_eq_map_snapshots, List.length_map]
    exact hconsistent.size_eq.trans (List.length_map _).symm
  · rw [hpairs, Contents.entries_eq_map_snapshots]
    unfold Ledger.mapped
    rw [List.map_map]
    rfl
  · intro htakes r hr
    apply (hfresh.after_ordered steps htakes).entries (r.key, r.fields)
    rw [Contents.entries_eq_map_snapshots]
    exact List.mem_map_of_mem hr

/-- Of two records the first is merged with new fields and deleted by its position, and the second
is changed and goes back. A batch stores one more beside an item that cannot be stored. -/
def firstDeleted : List (World × Operation) :=
  [(.bare, .set (some "a") [("x", .bool true)] ⟨true, false⟩),
    (.bare, .set (some "b") [("x", .null)] ⟨false, false⟩),
    (.bare, .set (some "a") [("y", .null)] ⟨false, false⟩),
    (.bare, .delete (.position 0) ⟨false, false⟩),
    (.bare, .set (some "b") [("y", .null)] ⟨false, false⟩), (.bare, .undo "b" none),
    (.bare, .batch .set [.map [("y", .null)], .bool true] false)]

theorem reads_after_firstDeleted :
    let t := plain.after firstDeleted
    (create .standard .bare).1 = .ok plain ∧ plain.TakesAllOrdered firstDeleted ∧
      t.keys = ["b", "0"] ∧ t.size = 2 ∧
      (∃ records, (t.get .bare .all).result = .ok records ∧
        (∀ r ∈ records, (Value.map r.fields).Ordered) ∧
        records.map (fun r => (r.key, (Cells.of r.fields "x").isSome,
          (Cells.of r.fields "y").isSome)) = [("b", true, false), ("0", false, true)]) ∧
      t.NestsWithin ∧ t.Fits ∧ (t.save .bare).result = .ok () ∧
      ∃ archive, (t.save .bare).world.storage.archive? t.name = some archive ∧
        archive.pairs.map Prod.fst = ["b", "0"] := by
  dsimp only
  have hsingle (name : String) (v : Value) (hv : v.Ordered) : Value.Ordered (.map [(name, v)]) :=
    ⟨List.pairwise_singleton _ _, hv, trivial⟩
  have htakes : plain.TakesAllOrdered firstDeleted :=
    ⟨hsingle _ _ trivial, hsingle _ _ trivial, hsingle _ _ trivial, trivial,
      hsingle _ _ trivial, trivial, ⟨hsingle _ _ trivial, trivial, trivial⟩, trivial⟩
  have hpairs : (plain.journal .empty firstDeleted).pairs.map
      (fun e => (e.1, (e.2 "x").isSome, (e.2 "y").isSome)) =
        [("b", true, false), ("0", false, true)] := by decide +kernel
  have hfirst : (plain.journal .empty firstDeleted).pairs.map Prod.fst = ["b", "0"] := by
    have hnames := congrArg (List.map Prod.fst) hpairs
    rwa [List.map_map] at hnames
  have hnests : (plain.after firstDeleted).NestsWithin := by
    unfold NestsWithin
    decide +kernel
  have hfits : (plain.after firstDeleted).Fits := ⟨by decide +kernel, by decide +kernel⟩
  have hsaved : ((plain.after firstDeleted).save .bare).result = .ok () := by
    have htarget : Storage.isTarget (plain.after firstDeleted).name = true := by decide +kernel
    unfold save saveAs
    dsimp only [World.bare]
    rw [Storage.Backend.put_memory [] htarget]
    rfl
  obtain ⟨hkeys, hsize, hreads, hsaves⟩ := reads_after_operations create_plain firstDeleted
  obtain ⟨records, hresult, hcells, hordered⟩ := hreads .bare
  obtain ⟨archive, harchive, hkept⟩ := hsaves htakes hnests hfits .bare hsaved
  refine ⟨create_plain, htakes, hkeys.trans hfirst, ?_, ⟨records, hresult, hordered htakes, ?_⟩,
    hnests, hfits, hsaved, archive, harchive, ?_⟩
  · rw [hsize, ← List.length_map Prod.fst, hfirst]
    rfl
  · rw [← hpairs, ← hcells, List.map_map]
    rfl
  · rw [hkept]
    exact hfirst

end Store
end IndexedStore
