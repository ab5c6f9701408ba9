import IndexedStore.Proofs.Determined
import IndexedStore.Proofs.Versions

/-!
The maps in the data of a store have their entries in order. Merging, versions and batches pass on
what came in, and what is read from saved bytes is put in order as it is read; so when the data of
all operations is in order, the fields of every record are, and those of its earlier versions.
-/
namespace IndexedStore

namespace Value

theorem orderedItems_iff (items : List Value) : OrderedItems items ↔ ∀ v ∈ items, v.Ordered := by
  induction items with
  | nil => simp [OrderedItems]
  | cons v rest ih => rw [OrderedItems, ih, List.forall_mem_cons]

theorem orderedEntries_iff (entries : List (String × Value)) :
    OrderedEntries entries ↔ ∀ e ∈ entries, e.2.Ordered := by
  induction entries with
  | nil => simp [OrderedEntries]
  | cons e rest ih =>
    obtain ⟨name, v⟩ := e
    rw [OrderedEntries, ih, List.forall_mem_cons]

theorem Ordered.mem {m : Fields} (h : Ordered (.map m)) {e : String × Value} (he : e ∈ m) :
    e.2.Ordered := (orderedEntries_iff m).mp h.2 e he

theorem ordered_nil : Ordered (.map []) := ⟨SortedMap.sorted_nil, trivial⟩

theorem Ordered.insert {m : Fields} (h : Ordered (.map m)) {v : Value} (hv : v.Ordered)
    (name : String) : Ordered (.map (SortedMap.insert m name v)) := by
  refine ⟨SortedMap.sorted_insert name v h.1, (orderedEntries_iff _).mpr fun e he => ?_⟩
  rcases SortedMap.mem_insert he with rfl | he
  · exact hv
  · exact h.mem he

/-- New fields and those they come over give fields in order. -/
theorem Ordered.merged {current data : Fields} (h : Ordered (.map current))
    (hdata : Ordered (.map data)) (overwrite : Bool) :
    Ordered (.map (Contents.mergedFields current data overwrite)) := by
  unfold Contents.mergedFields SortedMap.merge
  split_ifs
  · exact hdata
  · have hentries := (orderedEntries_iff data).mp hdata.2
    clear hdata
    induction data generalizing current with
    | nil => exact h
    | cons e rest ih =>
      obtain ⟨he, hrest⟩ := List.forall_mem_cons.mp hentries
      exact ih (h.insert he e.1) hrest

end Value

/-! ### What is read from bytes -/

namespace Cbor

open Value (Ordered OrderedItems)

/-- The value of any item has its maps in order, whatever order the entries came in. -/
theorem ordered_of_toValue? (item : Cbor) : ∀ v, item.toValue? = some v → v.Ordered := by
  refine @Cbor.rec (fun item => ∀ v, item.toValue? = some v → v.Ordered)
    (fun items => ∀ vs, itemValues? items = some vs → OrderedItems vs)
    (fun entries => ∀ before m, Ordered (.map before) → entryValues? before entries = some m →
      Ordered (.map m))
    (fun e => ∀ v, e.2.toValue? = some v → v.Ordered)
    ?unsigned ?negative ?bytes ?text ?array ?map ?tagged ?bool ?null ?undefined ?float
    ?noItem ?item ?noEntry ?entry ?pair item
  case unsigned | text | bool | null | undefined | float =>
    intros
    rename_i hv
    obtain rfl := Option.some.inj hv
    trivial
  case negative =>
    intro n v hv
    unfold toValue? at hv
    split_ifs at hv
    obtain rfl := Option.some.inj hv
    trivial
  case bytes =>
    intro chunked bs v hv
    obtain ⟨s, -, rfl⟩ := Option.map_eq_some_iff.mp hv
    trivial
  case tagged => exact fun _ _ _ v hv => absurd hv (by simp [toValue?])
  case array =>
    intro items ih v hv
    obtain ⟨vs, hvs, rfl⟩ := Option.map_eq_some_iff.mp hv
    exact ih vs hvs
  case map =>
    intro entries ih v hv
    obtain ⟨m, hm, rfl⟩ := Option.map_eq_some_iff.mp hv
    exact ih [] m Value.ordered_nil hm
  case noItem =>
    intro vs hvs
    obtain rfl := Option.some.inj hvs
    trivial
  case item =>
    intro item rest hitem hrest vs hvs
    unfold itemValues? at hvs
    split at hvs
    · rename_i v tail hv htail
      obtain rfl := Option.some.inj hvs
      exact ⟨hitem v hv, hrest tail htail⟩
    · exact absurd hvs (by simp)
  case noEntry =>
    intro before m hbefore hm
    obtain rfl := Option.some.inj hm
    exact hbefore
  case entry =>
    intro e rest he hrest before m hbefore hm
    unfold entryValues? at hm
    split at hm
    · rename_i name v hname hv
      exact hrest _ m (hbefore.insert (he v hv) name) hm
    · exact absurd hm (by simp)
  case pair => exact fun _ _ _ h => h

theorem ordered_of_toFields? {item : Cbor} {fields : Fields} (h : item.toFields? = some fields) :
    Ordered (.map fields) := by
  unfold toFields? at h
  split at h
  · rename_i entries huntagged
    clear huntagged
    revert h
    suffices hfold : ∀ before : Fields, Ordered (.map before) →
        entries.foldlM (fun (fields : Fields) (e : Cbor × Cbor) => do
          let name ← e.1.toText?
          let v ← e.2.toValue?
          return SortedMap.insert fields name v) before = some fields → Ordered (.map fields) from
      hfold [] Value.ordered_nil
    induction entries with
    | nil =>
      intro before hbefore h
      obtain rfl := Option.some.inj h
      exact hbefore
    | cons e rest ih =>
      intro before hbefore h
      rw [List.foldlM_cons] at h
      obtain ⟨next, hnext, hrest⟩ := Option.bind_eq_some_iff.mp h
      obtain ⟨name, -, hname⟩ := Option.bind_eq_some_iff.mp hnext
      obtain ⟨v, hv, hinserted⟩ := Option.bind_eq_some_iff.mp hname
      obtain rfl := Option.some.inj hinserted
      exact ih _ (hbefore.insert (ordered_of_toValue? e.2 v hv) name) hrest
  · exact absurd h (by simp)

theorem ordered_of_toSnapshot? {depth : Nat} {item : Cbor} {r : Snapshot}
    (h : item.toSnapshot? depth = some r) : Ordered (.map r.fields) := by
  unfold toSnapshot? at h
  simp only [Option.bind_eq_bind, Option.bind_eq_some_iff] at h
  obtain ⟨_, -, _, -, key, -, _, -, position, -, _, -, fields, hfields, hr⟩ := h
  obtain rfl := Option.some.inj hr
  exact ordered_of_toFields? hfields

theorem mem_of_mapM {α β : Type} {g : α → Option β} {l : List α} {found : List β}
    (h : l.mapM g = some found) : ∀ y ∈ found, ∃ x ∈ l, g x = some y := by
  induction l generalizing found with
  | nil =>
    obtain rfl := Option.some.inj h
    exact fun y hy => absurd hy List.not_mem_nil
  | cons x l ih =>
    rw [List.mapM_cons] at h
    obtain ⟨y, hy, hrest⟩ := Option.bind_eq_some_iff.mp h
    obtain ⟨ys, hys, hfound⟩ := Option.bind_eq_some_iff.mp hrest
    obtain rfl := Option.some.inj hfound
    refine List.forall_mem_cons.mpr ⟨⟨x, List.mem_cons_self, hy⟩, fun z hz => ?_⟩
    obtain ⟨x', hx', hz⟩ := ih hys z hz
    exact ⟨x', List.mem_cons_of_mem _ hx', hz⟩

theorem ordered_of_toArchive? {depth : Nat} {item : Cbor} {a : Archive}
    (h : item.toArchive? depth = some a) : ∀ r ∈ a.records, Ordered (.map r.fields) := by
  unfold toArchive? at h
  simp only [Option.bind_eq_bind, Option.bind_eq_some_iff] at h
  obtain ⟨_, -, _, -, name, -, keyField, -, _, -, _, -, indexes, -, _, -, _, -, records, hrecords,
    ha⟩ := h
  obtain rfl := Option.some.inj ha
  intro r hr
  obtain ⟨item, -, hitem⟩ := mem_of_mapM hrecords r hr
  exact ordered_of_toSnapshot? hitem

end Cbor

/-! ### Earlier versions -/

namespace Versions

def Ordered (v : Versions) : Prop :=
  ∀ e ∈ v.records, ∀ d ∈ e.2.versions.entries, (Value.map d.2).Ordered

variable {v : Versions}

theorem Ordered.of_records {v' : Versions} (h : v.Ordered) (hv : ∀ e ∈ v'.records, e ∈ v.records) :
    v'.Ordered := fun e he => h e (hv e he)

theorem Ordered.remove (h : v.Ordered) (key : String) : (v.remove key).Ordered :=
  h.of_records fun _ he => (List.mem_filter.mp he).1

theorem Ordered.add (h : v.Ordered) {fields : Fields} (hfields : (Value.map fields).Ordered)
    (key : String) : (v.add key fields).2.Ordered := by
  intro e he d hd
  rcases SortedMap.mem_insert he with rfl | he
  · rw [RecordVersions.versions_add] at hd
    rcases Lru.mem_set hd with rfl | hd
    · exact hfields
    · cases hget : SortedMap.get? v.records key with
      | none =>
        rw [hget] at hd
        exact absurd hd List.not_mem_nil
      | some r =>
        rw [hget] at hd
        exact h (key, r) (SortedMap.mem_of_get? hget) d hd
  · exact h e he d hd

theorem Ordered.of_get? (h : v.Ordered) {key name : String} {fields : Fields}
    (hget : v.get? key name = some fields) : (Value.map fields).Ordered := by
  obtain ⟨r, hr, hpeek⟩ := Option.bind_eq_some_iff.mp hget
  obtain ⟨d, hd, rfl⟩ := Option.map_eq_some_iff.mp hpeek
  exact h (key, r) (SortedMap.mem_of_get? hr) d (List.mem_of_find?_eq_some hd)

end Versions

/-! ### Contents -/

namespace Ledger

def Ordered (l : Ledger Fields) : Prop := ∀ e ∈ l, (Value.map e.2).Ordered

variable {l : Ledger Fields}

theorem Ordered.put (h : l.Ordered) {data : Fields} (hdata : (Value.map data).Ordered)
    (key : String) (overwrite : Bool) :
    (l.put key (Contents.fieldsAfter data overwrite)).Ordered := by
  intro e he
  unfold Ledger.put at he
  split_ifs at he
  · obtain ⟨d, hd, rfl⟩ := List.mem_map.mp he
    split_ifs
    · exact (h d hd).merged hdata overwrite
    · exact h d hd
  · rcases List.mem_append.mp he with he | he
    · exact h e he
    · obtain rfl := List.mem_singleton.mp he
      exact hdata

theorem Ordered.erase (h : l.Ordered) (key : String) : (l.erase key).Ordered :=
  fun e he => h e (List.mem_filter.mp he).1

end Ledger

def BatchItem.Ordered : BatchItem → Prop
  | .store _ data => (Value.map data).Ordered
  | .remove _ => True

namespace Contents

structure Ordered (c : Contents) : Prop where
  entries : Ledger.Ordered c.entries
  versions : c.versions.Ordered

variable {c c' : Contents}

theorem Ordered.congr (h : c.Ordered) (hentries : c'.entries = c.entries)
    (hversions : c'.versions = c.versions) : c'.Ordered :=
  ⟨hentries ▸ h.entries, hversions ▸ h.versions⟩

theorem Ordered.clear (c : Contents) : c.clear.Ordered :=
  ⟨fun _ he => absurd he List.not_mem_nil, fun _ he => absurd he List.not_mem_nil⟩

theorem Ordered.upsert (h : c.Ordered) (hc : c.Consistent) {data : Fields}
    (hdata : (Value.map data).Ordered) (key : String) (overwrite versioning : Bool) :
    (c.upsert key data overwrite versioning).contents.Ordered := by
  constructor
  · rw [hc.entries_upsert]
    exact h.entries.put hdata key overwrite
  · cases hr : c.record? key with
    | none =>
      rw [upsert_of_none hr]
      exact h.versions
    | some r =>
      rw [upsert_of_some hr]
      dsimp only
      split_ifs
      · have hlive : r ∈ c.live := (mem_live c r).mpr ⟨_, (hc.record?_eq_some hr).1⟩
        have hfields := h.entries (r.key, r.fields) (List.mem_map.mpr ⟨r, hlive, rfl⟩)
        exact h.versions.add hfields key
      · exact h.versions

theorem Ordered.removal (h : c.Ordered) (hc : c.Consistent) {r : Record} {options : DeleteOptions}
    (hremoval : c.Removal r options c') : c'.Ordered := by
  constructor
  · rw [hc.entries_removal hremoval]
    exact h.entries.erase r.key
  · rw [(hc.declared_removal hremoval).2]
    exact h.versions.remove r.key

theorem Ordered.itemApplied (h : c.Ordered) (hc : c.Consistent) (versioning : Bool)
    {item : BatchItem} (hitem : item.Ordered) : (c.itemApplied versioning item).Ordered := by
  cases item with
  | store key data => exact h.upsert hc hitem key false versioning
  | remove key =>
    constructor
    · rw [hc.entries_itemApplied]
      exact h.entries.erase key
    · rcases itemApplied_remove_cases versioning c key with ⟨-, hsame⟩ | ⟨p, r, -, hhollow⟩
      · rw [hsame]
        exact h.versions
      · rw [versions_hollow hhollow]
        exact h.versions.remove r.key

theorem Ordered.itemsApplied (h : c.Ordered) (hc : c.Consistent) (versioning : Bool)
    {ready : List (Except StoreError BatchItem)}
    (hready : ∀ item, .ok item ∈ ready → item.Ordered) :
    (c.itemsApplied versioning ready).Ordered := by
  induction ready generalizing c with
  | nil => exact h
  | cons first rest ih =>
    have hrest : ∀ item, .ok item ∈ rest → item.Ordered :=
      fun item hitem => hready item (List.mem_cons_of_mem _ hitem)
    cases first with
    | error e => exact ih h hc hrest
    | ok item =>
      have hitem := hready item List.mem_cons_self
      exact ih (h.itemApplied hc versioning hitem) (hc.itemApplied versioning item).1 hrest

theorem Ordered.recordsStored (h : c.Ordered) (hc : c.Consistent) {records : List Snapshot}
    (hrecords : ∀ r ∈ records, (Value.map r.fields).Ordered) :
    (c.recordsStored records).Ordered := by
  induction records generalizing c with
  | nil => exact h
  | cons r rest ih =>
    obtain ⟨hr, hrest⟩ := List.forall_mem_cons.mp hrecords
    exact ih (h.upsert hc hr r.key true false) (hc.upsert r.key r.fields true false) hrest

/-- Contents that only have indexes declared have nothing out of order. -/
theorem ordered_of_declareIndexes {limit : Nat} {indexes : List (List String)}
    (hc : (Contents.empty limit).declareIndexes indexes = .ok c) : c.Ordered := by
  obtain ⟨-, hsnapshots, hversions, -⟩ := (consistent_empty limit).declareIndexes hc
  refine (Ordered.clear (.empty limit)).congr ?_ hversions
  rw [entries_eq_map_snapshots, hsnapshots]
  rfl

end Contents

/-! ### What comes in -/

namespace Payload

theorem ordered_atNames {names : List (List Char)} {payload v : Value} (h : payload.Ordered)
    (hv : atNames payload names = .ok v) : v.Ordered := by
  induction names generalizing payload with
  | nil =>
    obtain rfl := Except.ok.inj hv
    exact h
  | cons name rest ih =>
    unfold atNames at hv
    dsimp only at hv
    split at hv
    · split at hv
      · rename_i entries found hfound
        exact ih (h.mem (SortedMap.mem_of_get? hfound)) hv
      · exact absurd hv (by simp)
    · exact absurd hv (by simp)

theorem ordered_items {payload : Value} {named : Bool} {items : List (Option String × Value)}
    (h : payload.Ordered) (hitems : Payload.items payload named = .ok items) :
    ∀ e ∈ items, e.2.Ordered := by
  unfold Payload.items at hitems
  split at hitems
  · split at hitems
    · exact absurd hitems (by simp)
    · obtain rfl := Except.ok.inj hitems
      intro e he
      obtain ⟨item, hitem, rfl⟩ := List.mem_map.mp he
      exact (Value.orderedItems_iff _).mp h item hitem
  · split at hitems
    · exact absurd hitems (by simp)
    · obtain rfl := Except.ok.inj hitems
      intro e he
      obtain ⟨entry, hentry, rfl⟩ := List.mem_map.mp he
      exact h.mem hentry
  · exact absurd hitems (by simp)

end Payload

namespace Store

variable {s s' : Store} {w : World}

theorem ordered_payloadItems {payload : Value} {items : List (Option String × Value)}
    (h : payload.Ordered) (hitems : s.payloadItems payload = .ok items) :
    ∀ e ∈ items, e.2.Ordered := by
  unfold payloadItems at hitems
  split at hitems
  · exact Payload.ordered_items h hitems
  · split at hitems
    · rename_i hfound
      exact Payload.ordered_items (Payload.ordered_atNames h hfound) hitems
    · exact absurd hitems (by simp)

theorem ordered_preparedAll (s : Store) (kind : BatchKind) {items : List (Option String × Value)}
    (h : ∀ e ∈ items, e.2.Ordered) (keys : KeySupply) :
    ∀ item, .ok item ∈ (s.preparedAll keys kind items).1 → item.Ordered := by
  induction items generalizing keys with
  | nil => exact fun item hitem => absurd hitem List.not_mem_nil
  | cons e rest ih =>
    obtain ⟨given, v⟩ := e
    obtain ⟨hv, hrest⟩ := List.forall_mem_cons.mp h
    rw [preparedAll_cons]
    intro item hitem
    rcases List.mem_cons.mp hitem with hfirst | hitem
    · cases item with
      | remove key => trivial
      | store key data =>
        unfold prepared at hfirst
        split at hfirst
        · obtain ⟨-, rfl⟩ := BatchItem.store.inj (Except.ok.inj hfirst)
          exact hv
        · exact absurd hfirst (by simp)
        · split at hfirst <;> exact absurd hfirst (by simp)
        · exact absurd hfirst (by simp)
        · exact absurd hfirst (by simp)
    · exact ih hrest _ item hitem

def TakesOrdered (s : Store) (w : World) : Operation → Prop
  | .set _ data _ => (Value.map data).Ordered
  | .batch _ items _ | .batchDetailed _ items _ => Value.OrderedItems items
  | .load payload => payload.Ordered
  | .sync => ∀ remote body, s.remote = some remote →
      (remote.fetch w.client w.now).result = .ok body → body.toValue.Ordered
  | _ => True

def TakesAllOrdered (s : Store) : List (World × Operation) → Prop
  | [] => True
  | (w, operation) :: rest =>
    s.TakesOrdered w operation ∧ (s.perform w operation).store.TakesAllOrdered rest

/-! ### Every operation -/

theorem ordered_of_alike (h : s.contents.Ordered) (halike : s.Alike s') : s'.contents.Ordered :=
  halike.contents ▸ h

theorem ordered_of_changed {c : Contents} {quiet : Bool} {kind : EventKind} {key : Option String}
    (h : c.Ordered) (halike : (s.changed c quiet kind key).Alike s') : s'.contents.Ordered := by
  rw [halike.contents, changed_contents]
  exact h.congr rfl rfl

theorem Sound.ordered_set (h : s.Sound) (ho : s.contents.Ordered) (key : Option String)
    {data : Fields} (hdata : (Value.map data).Ordered) (options : SetOptions) :
    (s.set w key data options).store.contents.Ordered := by
  rcases set_cases (w := w) h.usable key data options with ⟨-, -, -, halike⟩ | ⟨_, rfl, -, halike⟩
  · exact ordered_of_alike ho halike
  · exact ordered_of_changed (ho.upsert h.consistent hdata _ _ _) halike

theorem Sound.ordered_delete (h : s.Sound) (ho : s.contents.Ordered) (target : Target)
    (options : DeleteOptions) : (s.delete w target options).store.contents.Ordered := by
  rcases delete_cases (w := w) h.consistent h.usable target options with
    ⟨-, -, -, halike⟩ | ⟨r, c, -, hremoval, -, halike⟩
  · exact ordered_of_alike ho halike
  · exact ordered_of_changed (ho.removal h.consistent hremoval) halike

theorem ordered_undoFields? (ho : s.contents.Ordered) {key : String} {label : Option String}
    {fields : Fields} (h : s.undoFields? key label = some fields) :
    (Value.map fields).Ordered := by
  unfold undoFields? at h
  cases label with
  | some label => exact ho.versions.of_get? h
  | none =>
    obtain ⟨e, he, rfl⟩ := Option.map_eq_some_iff.mp h
    unfold Versions.oldest? at he
    split at he
    · exact absurd he (by simp)
    · obtain ⟨fields, hget, rfl⟩ := Option.map_eq_some_iff.mp he
      exact ho.versions.of_get? hget

theorem Sound.ordered_undo (h : s.Sound) (ho : s.contents.Ordered) (key : String)
    (label : Option String) : (s.undo w key label).store.contents.Ordered := by
  rcases undo_cases (s := s) (w := w) key label with ⟨-, -, halike⟩ | ⟨fields, hfields, hset⟩
  · exact ordered_of_alike ho halike
  · rw [hset]
    exact h.ordered_set ho (some key) (ordered_undoFields? ho hfields) ⟨false, true⟩

theorem Sound.ordered_declareIndex (h : s.Sound) (ho : s.contents.Ordered) (fields : List String) :
    (s.declareIndex w fields).store.contents.Ordered := by
  rcases h.declareIndex_cases (w := w) fields with ⟨-, -, halike⟩ | ⟨_, c, hc, -, halike⟩
  · exact ordered_of_alike ho halike
  · obtain ⟨-, ⟨f, hf, hslots⟩, hversions, -⟩ := h.consistent.declareIndex hc
    have hentries : c.entries = s.contents.entries := by
      rw [Contents.entries_eq_map_snapshots, Contents.declareIndex_entries hf hslots,
        ← Contents.entries_eq_map_snapshots]
    exact ordered_of_alike (s := { s with contents := c }) (ho.congr hentries hversions) halike

theorem Sound.ordered_reindex (h : s.Sound) (ho : s.contents.Ordered) :
    (s.reindex w).store.contents.Ordered := by
  obtain ⟨c, hc, -, halike⟩ := reindex_spec (w := w) h.consistent h.usable
  obtain ⟨-, -, -, hentries⟩ := h.consistent.of_reindex hc
  exact ordered_of_changed (ho.congr hentries (Contents.versions_reindex hc)) halike

/-- Items in order applied to contents in order, and the slots closed. -/
theorem Sound.ordered_applied (h : s.Sound) (ho : s.contents.Ordered) (replace : Bool)
    {ready : List (Except StoreError BatchItem)} (hready : ∀ item, .ok item ∈ ready → item.Ordered)
    {c : Contents}
    (hc : ((s.batchBase replace).itemsApplied s.config.versioning ready).reindex = .ok c) :
    c.Ordered := by
  have hconsistent := consistent_batchBase h.consistent replace
  have hbase : (s.batchBase replace).Ordered := by
    cases replace with
    | true => exact Contents.Ordered.clear _
    | false => exact ho
  have happlied := hbase.itemsApplied hconsistent s.config.versioning hready
  obtain ⟨-, -, -, hentries⟩ := (hconsistent.itemsApplied s.config.versioning ready).1.of_reindex hc
  exact happlied.congr hentries (Contents.versions_reindex hc)

theorem Sound.ordered_batchDetailed (h : s.Sound) (ho : s.contents.Ordered) (kind : BatchKind)
    {items : List Value} (hitems : Value.OrderedItems items) (replace : Bool) :
    (s.batchDetailed w kind items replace).store.contents.Ordered := by
  obtain ⟨c, hc, -, halike⟩ := batchKeyed_spec (w := w) h.consistent h.usable kind
    (items.map fun item => (none, item)) replace
  have hordered : ∀ e ∈ items.map fun item => ((none : Option String), item), e.2.Ordered := by
    intro e he
    obtain ⟨item, hitem, rfl⟩ := List.mem_map.mp he
    exact (Value.orderedItems_iff items).mp hitems item hitem
  have hready := ordered_preparedAll s kind hordered w.keys
  exact ordered_of_changed (h.ordered_applied ho replace hready hc) halike

theorem Sound.ordered_loads (h : s.Sound) (ho : s.contents.Ordered) {payload : Value}
    (hpayload : payload.Ordered) {c : Contents} (hc : s.Loads w.keys payload c) : c.Ordered := by
  obtain ⟨items, hitems, hc⟩ := hc
  have hready := ordered_preparedAll s .set (ordered_payloadItems hpayload hitems) w.keys
  exact h.ordered_applied ho true hready hc

theorem ordered_unpacked {config : Config} {bytes : Bytes} {archive : Archive} {c : Contents}
    (harchive : readArchive bytes = .ok archive) (hc : unpacked config archive = .ok c) :
    c.Ordered := by
  have hrecords : ∀ r ∈ archive.records, (Value.map r.fields).Ordered := by
    unfold readArchive at harchive
    split at harchive
    · rename_i found hfound
      obtain rfl := Except.ok.inj harchive
      obtain ⟨item, -, hitem⟩ := Option.bind_eq_some_iff.mp hfound
      exact Cbor.ordered_of_toArchive? hitem
    · exact absurd harchive (by simp)
  obtain ⟨declared, hdeclared, rfl⟩ := unpacked_cases hc
  have hconsistent := ((Contents.consistent_empty config.versionLimit).declareIndexes hdeclared).1
  apply (Contents.ordered_of_declareIndexes hdeclared).recordsStored hconsistent
  intro r hr
  exact hrecords r (List.mem_mergeSort.mp hr)

/-- Every operation that brings data in order into a store leaves the data of the store in order. -/
theorem Sound.perform_ordered (h : s.Sound) (ho : s.contents.Ordered) (w : World)
    (operation : Operation) (htakes : s.TakesOrdered w operation) :
    (s.perform w operation).store.contents.Ordered := by
  have hread := h.contents_of_isRead w operation
  cases operation with
  | declareIndex fields => exact h.ordered_declareIndex ho fields
  | set key data options => exact h.ordered_set ho key htakes options
  | delete target options => exact h.ordered_delete ho target options
  | undo key label => exact h.ordered_undo ho key label
  | reindex => exact h.ordered_reindex ho
  | clear => exact (Contents.Ordered.clear s.contents).congr rfl rfl
  | batch kind items replace =>
    exact ordered_of_alike (h.ordered_batchDetailed ho kind htakes replace)
      (batch_alike s w kind items replace)
  | batchDetailed kind items replace => exact h.ordered_batchDetailed ho kind htakes replace
  | load payload =>
    rcases load_cases (w := w) h.consistent h.usable payload with
      ⟨-, -, halike⟩ | ⟨_, c, hc, -, halike⟩
    · exact ordered_of_alike ho halike
    · exact ordered_of_changed (h.ordered_loads ho htakes hc) halike
  | sync =>
    rcases sync_cases (w := w) h.consistent h.usable with
      ⟨-, -, halike⟩ | ⟨remote, body, _, c, hremote, hbody, hc, -, halike⟩
    · exact ordered_of_alike ho halike
    · exact ordered_of_changed (h.ordered_loads ho (htakes remote body hremote hbody) hc) halike
  | restore =>
    rcases restore_cases (w := w) h.usable with ⟨-, halike⟩ | ⟨_, _, c, -, harchive, hc, -, halike⟩
    · exact ordered_of_alike ho halike
    · have hrestored : ({ c with revision := s.revision } : Contents).Ordered :=
        (ordered_unpacked harchive hc).congr rfl rfl
      exact ordered_of_changed hrestored halike
  | _ =>
    rw [hread rfl]
    exact ho

/-- The data of a store is in order after operations that bring in data in order. -/
theorem Fresh.after_ordered (hs : s.Fresh) (steps : List (World × Operation))
    (htakes : s.TakesAllOrdered steps) : (s.after steps).contents.Ordered := by
  have hempty : s.contents.Ordered := by
    obtain ⟨config, remote, w, hbuild⟩ := hs.exists_build
    obtain ⟨c, hc, -, rfl, -⟩ := build_cases hbuild
    exact Contents.ordered_of_declareIndexes hc
  have hsound := hs.sound.1
  clear hs
  induction steps generalizing s with
  | nil => exact hempty
  | cons step rest ih =>
    obtain ⟨w, operation⟩ := step
    exact ih htakes.2 (hsound.perform_ordered hempty w operation htakes.1)
      (hsound.perform w operation)

end Store

end IndexedStore
