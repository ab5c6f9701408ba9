import IndexedStore.Proofs.Archives
import IndexedStore.Proofs.Backends
import IndexedStore.Proofs.Declarations
import IndexedStore.Proofs.Ordered

/-!
Saving a store and restoring another from what was saved. The other store comes out with the
records of the first in their order, at positions without gaps, with the indexes of its own
settings and those of the first, built anew, and without earlier versions, one revision on from
where it was.
-/
namespace IndexedStore

/-! ### Records stored whole -/

namespace Ledger

theorem foldl_put {records : List Snapshot} {l : Ledger Fields}
    (h : (l.map Prod.fst ++ records.map (·.key)).Nodup) (overwrite : Bool) :
    records.foldl (fun l r => Ledger.put l r.key (Contents.fieldsAfter r.fields overwrite)) l =
      l ++ records.map fun r => (r.key, r.fields) := by
  induction records generalizing l with
  | nil => exact (List.append_nil l).symm
  | cons r rest ih =>
    rw [List.map_cons, List.append_cons] at h
    have hnew : r.key ∉ l.map Prod.fst := by
      have hfront := (List.nodup_append.mp h).1
      rw [List.nodup_append] at hfront
      intro hmem
      exact hfront.2.2 _ hmem _ (List.mem_singleton_self _) rfl
    rw [List.foldl_cons, put_of_not_mem hnew, ih (by simpa using h), List.append_assoc]
    rfl

end Ledger

namespace Contents

variable {c c' : Contents}

theorem versions_recordsStored (c : Contents) (records : List Snapshot) :
    (c.recordsStored records).versions = c.versions := by
  unfold recordsStored
  induction records generalizing c with
  | nil => rfl
  | cons r rest ih =>
    rw [List.foldl_cons, ih]
    cases hr : c.record? r.key with
    | some found => rw [upsert_of_some hr]; rfl
    | none => rw [upsert_of_none hr]

theorem Consistent.declared_recordsStored (h : c.Consistent) (records : List Snapshot) :
    (c.recordsStored records).declared = c.declared := by
  unfold Contents.recordsStored
  induction records generalizing c with
  | nil => rfl
  | cons r rest ih =>
    exact (ih (h.upsert r.key r.fields true false)).trans
      (h.declared_upsert r.key r.fields true false)

theorem Consistent.signatures_recordsStored (h : c.Consistent) (records : List Snapshot) :
    (c.recordsStored records).catalog.signatures = c.catalog.signatures :=
  signatures_congr (h.declared_recordsStored records)

/-- The records of contents are kept in the order of their positions. -/
theorem Consistent.mergeSort_snapshots (h : c.Consistent) :
    c.snapshots.mergeSort (fun a b => a.position ≤ b.position) = c.snapshots := by
  apply List.mergeSort_of_pairwise
  unfold snapshots
  rw [List.pairwise_map]
  apply h.positions_ascend.imp
  intro r r' hlt
  exact decide_eq_true (Nat.le_of_lt hlt)

end Contents

def Config.signatures (config : Config) : List String :=
  config.indexes.filterMap Catalog.signature?

namespace Store

variable {a b : Store}

/-! ### Unpacking an archive -/

theorem signature?_archive {config : Config} (h : a.contents.Consistent)
    (hconfig : ∀ names ∈ config.indexes, (Catalog.signature? names).isSome) :
    (∀ names ∈ config.indexes ++ a.archive.indexes, (Catalog.signature? names).isSome) ∧
      (config.indexes ++ a.archive.indexes).filterMap Catalog.signature? =
        config.signatures ++ a.contents.catalog.signatures := by
  have hsecondary : a.archive.indexes.map Catalog.signature? =
      a.contents.catalog.signatures.map some := h.signature?_secondary
  constructor
  · intro names hnames
    rcases List.mem_append.mp hnames with hnames | hnames
    · exact hconfig names hnames
    · have hmem := List.mem_map_of_mem (f := Catalog.signature?) hnames
      rw [hsecondary] at hmem
      obtain ⟨signature, -, hsignature⟩ := List.mem_map.mp hmem
      rw [← hsignature]
      rfl
  · have harchive : a.archive.indexes.filterMap Catalog.signature? =
        a.contents.catalog.signatures := by
      calc a.archive.indexes.filterMap Catalog.signature?
          = (a.archive.indexes.map Catalog.signature?).filterMap id := by
            rw [List.filterMap_map]
            rfl
        _ = (a.contents.catalog.signatures.map some).filterMap id := by rw [hsecondary]
        _ = a.contents.catalog.signatures := List.filterMap_map.trans List.filterMap_some
    rw [List.filterMap_append, harchive]
    rfl

/-- What is unpacked has the indexes of the settings and those of the archive. -/
theorem mem_signatures_unpacked {config : Config} {archive : Archive} {c : Contents}
    (hc : unpacked config archive = .ok c) (k : String) :
    k ∈ c.catalog.signatures ↔
      k ∈ (config.indexes ++ archive.indexes).filterMap Catalog.signature? := by
  obtain ⟨declared, hdeclared, rfl⟩ := unpacked_cases hc
  obtain ⟨hconsistent, -⟩ :=
    (Contents.consistent_empty config.versionLimit).declareIndexes hdeclared
  obtain ⟨d, hd, hsignatures⟩ :=
    Contents.exists_declareIndexes (c := .empty config.versionLimit)
      (Contents.signature?_of_declareIndexes hdeclared)
  obtain rfl := Except.ok.inj (hdeclared.symm.trans hd)
  rw [hconsistent.signatures_recordsStored, hsignatures]
  exact or_iff_left List.not_mem_nil

/-- The archive of a store with consistent contents can be unpacked under any settings that a
store was made with. -/
theorem exists_unpacked {config : Config} (h : a.contents.Consistent)
    (hconfig : ∀ names ∈ config.indexes, (Catalog.signature? names).isSome) :
    ∃ c, unpacked config a.archive = .ok c ∧ c.entries = a.contents.entries ∧
      c.catalog.signatures =
        SortedMap.distinct (config.signatures ++ a.contents.catalog.signatures) ∧
      c.versions.records = [] := by
  obtain ⟨hall, hsignatures⟩ := signature?_archive h hconfig
  obtain ⟨d, hd, hdeclared⟩ :=
    Contents.exists_declareIndexes (c := .empty config.versionLimit) hall
  obtain ⟨hconsistent, hsnapshots, hversions, -, -⟩ :=
    (Contents.consistent_empty config.versionLimit).declareIndexes hd
  have hunpacked : unpacked config a.archive = .ok (d.recordsStored a.contents.snapshots) := by
    unfold unpacked
    rw [hd]
    exact congrArg (fun records => Except.ok (d.recordsStored records)) h.mergeSort_snapshots
  refine ⟨_, hunpacked, ?_, ?_, ?_⟩
  · have hempty : d.entries = [] := by
      rw [Contents.entries_eq_map_snapshots, hsnapshots]
      rfl
    have hkeys : (([] : Ledger Fields).map Prod.fst ++ a.contents.snapshots.map (·.key)).Nodup := by
      unfold Contents.snapshots
      rw [List.map_map]
      exact h.keys_nodup
    rw [hconsistent.entries_recordsStored, hempty, Ledger.foldl_put hkeys,
      Contents.entries_eq_map_snapshots]
    rfl
  · rw [hconsistent.signatures_recordsStored]
    apply SecondaryIndex.eq_of_mem_iff (SortedMap.sorted_names hconsistent.sorted_secondary)
      (SortedMap.pairwise_distinct _)
    intro k
    rw [SortedMap.mem_distinct, ← hsignatures]
    exact (hdeclared k).trans (or_iff_left List.not_mem_nil)
  · rw [Contents.versions_recordsStored, hversions]
    rfl

/-! ### Reading what was saved -/

/-- The fields of each record nest within what the reader of the binary form leaves to them: the
archive, its list of records and the record lie around them. -/
def NestsWithin (s : Store) : Prop :=
  ∀ r ∈ s.contents.snapshots, (Value.map r.fields).nesting + 3 ≤ Cbor.nestingLimit

/-- Positions and the bytes of the archive are counted in 64 bits. -/
structure Fits (s : Store) : Prop where
  slots : s.contents.slots.length ≤ 2 ^ 64
  bytes : (Cbor.encode s.archive.toCbor).length < 2 ^ 64

theorem Fits.position_lt (h : a.Fits) (hc : a.contents.Consistent) {r : Snapshot}
    (hr : r ∈ a.contents.snapshots) : r.position < 2 ^ 64 := by
  obtain ⟨record, hlive, rfl⟩ := List.mem_map.mp hr
  have hat := Contents.slotAt_position hc hlive
  unfold Contents.slotAt at hat
  rw [Option.join_eq_some_iff] at hat
  obtain ⟨hposition, -⟩ := List.getElem?_eq_some_iff.mp hat
  exact Nat.lt_of_lt_of_le hposition h.slots

theorem records_ordered (ho : a.contents.Ordered) :
    ∀ r ∈ a.archive.records, (Value.map r.fields).Ordered := by
  intro r hr
  apply ho.entries (r.key, r.fields)
  rw [Contents.entries_eq_map_snapshots]
  exact List.mem_map.mpr ⟨r, hr, rfl⟩

theorem Fits.readArchive_encode (h : a.Fits) (hc : a.contents.Consistent)
    (ho : a.contents.Ordered) (hnests : a.NestsWithin) :
    readArchive (Cbor.encode a.archive.toCbor) = .ok a.archive := by
  have hread : Cbor.readArchive? (Cbor.encode a.archive.toCbor) = some a.archive :=
    (Cbor.readArchive?_encode (records_ordered ho) (fun r hr => h.position_lt hc hr)
      h.bytes).trans (if_pos hnests)
  unfold readArchive
  rw [hread]

/-- The bytes of a store are refused when the fields of one of its records nest too deep. -/
theorem Fits.readArchive_encode_of_deeper (h : a.Fits) (hc : a.contents.Consistent)
    (ho : a.contents.Ordered) (hdeep : ¬ a.NestsWithin) :
    readArchive (Cbor.encode a.archive.toCbor) =
      .error (.value (.decodingFailed "malformed")) := by
  have hread : Cbor.readArchive? (Cbor.encode a.archive.toCbor) = none :=
    (Cbor.readArchive?_encode (records_ordered ho) (fun r hr => h.position_lt hc hr)
      h.bytes).trans (if_neg hdeep)
  unfold readArchive
  rw [hread]

/-! ### Saving and restoring -/

theorem get_save {w : World} (h : (a.save w).result = .ok ()) :
    (a.save w).world.storage.get a.name = .ok (some (Cbor.encode a.archive.toCbor)) := by
  apply Storage.Backend.get_put
  unfold save saveAs at h
  dsimp only at h
  cases hput : (w.storage.put a.name (Cbor.encode a.archive.toCbor)).1 with
  | ok _ => rfl
  | error e =>
    rw [hput] at h
    exact absurd h (by simp [Except.mapError])

theorem get_of_stored {w w' : World} (hname : b.name = a.name)
    (hsaved : (a.save w).result = .ok ())
    (hstored : w'.storage.get a.name = (a.save w).world.storage.get a.name) :
    w'.storage.get b.name = .ok (some (Cbor.encode a.archive.toCbor)) := by
  rw [hname, hstored]
  exact get_save hsaved

theorem Fresh.name_after (h : a.Fresh) (steps : List (World × Operation)) :
    (a.after steps).name = a.name :=
  congrArg Config.name (h.sound.1.after_config steps)

/-- A store that restoring led to, beside the store that was saved and the one it was before. -/
structure RestoredFrom (s a b : Store) : Prop where
  /-- The records of the saved store in their order, at positions without gaps. -/
  snapshots : s.contents.snapshots =
    a.contents.snapshots.mapIdx fun position r => { r with position := position }
  signatures : s.contents.catalog.signatures =
    SortedMap.distinct (b.config.signatures ++ a.contents.catalog.signatures)
  verified : s.verify = []
  unversioned : ∀ key, s.labels key = []
  revision : s.revision = b.revision + 1

theorem RestoredFrom.of_unpacked {s : Store} {c : Contents}
    (hc : unpacked b.config a.archive = .ok c) (hentries : c.entries = a.contents.entries)
    (hsignatures : c.catalog.signatures =
      SortedMap.distinct (b.config.signatures ++ a.contents.catalog.signatures))
    (hversions : c.versions.records = [])
    (halike : (b.changed { c with revision := b.revision } false .batch none).Alike s) :
    s.RestoredFrom a b := by
  obtain ⟨hconsistent, hholes⟩ := unpacked_consistent hc
  have hcontents : s.contents = ({ c with revision := b.revision } : Contents).bump := by
    rw [halike.contents, changed_contents]
  constructor
  · rw [hcontents]
    change c.snapshots = _
    rw [hconsistent.snapshots_eq hholes, hentries, Contents.entries_eq_map_snapshots]
    apply List.ext_getElem?
    intro i
    rw [List.getElem?_mapIdx, List.getElem?_mapIdx, List.getElem?_map, Option.map_map]
    rfl
  · rw [hcontents]
    exact hsignatures
  · unfold verify
    rw [hcontents]
    exact hconsistent.problems_eq_nil
  · intro key
    unfold labels Versions.labels
    rw [hcontents]
    change ((SortedMap.get? c.versions.records key).map (·.order)).getD [] = []
    rw [hversions]
    rfl
  · change s.contents.revision = b.contents.revision + 1
    rw [hcontents]
    rfl

theorem Fresh.signature?_config (h : a.Fresh) :
    ∀ names ∈ a.config.indexes, (Catalog.signature? names).isSome := by
  obtain ⟨config, remote, w, hbuild⟩ := h.exists_build
  obtain ⟨c, hc, rfl, -⟩ := build_cases hbuild
  exact Contents.signature?_of_declareIndexes hc

/-- What a store saves, any other store of its name restores. -/
theorem restored_after_save (ha : a.Fresh) (hb : b.Fresh) (hname : b.name = a.name)
    (stepsA stepsB : List (World × Operation)) (htakes : a.TakesAllOrdered stepsA)
    (hnests : (a.after stepsA).NestsWithin) (hfits : (a.after stepsA).Fits) (w w' : World) :
    (Storage.isTarget a.name = true → ∀ blobs, w.storage = .memory blobs →
      ((a.after stepsA).save w).result = .ok ()) ∧
    (((a.after stepsA).save w).result = .ok () →
      w'.storage.get a.name = ((a.after stepsA).save w).world.storage.get a.name →
      ((b.after stepsB).restore w').result = .ok true ∧
        ((b.after stepsB).restore w').store.RestoredFrom (a.after stepsA) (b.after stepsB)) := by
  have hordered := ha.after_ordered stepsA htakes
  have hnameA := ha.name_after stepsA
  have hnameB := (hb.name_after stepsB).trans (hname.trans hnameA.symm)
  have hsoundA := ha.sound.1.after stepsA
  have hsoundB := hb.sound.1.after stepsB
  have hconfig := hb.signature?_config
  rw [← hb.sound.1.after_config stepsB] at hconfig
  rw [← hnameA]
  generalize a.after stepsA = A at *
  generalize b.after stepsB = B at *
  constructor
  · intro htarget blobs hblobs
    unfold save saveAs
    rw [hblobs]
    dsimp only
    rw [Storage.Backend.put_memory blobs htarget]
    rfl
  · intro hsaved hstored
    have hbytes := get_of_stored hnameB hsaved hstored
    have harchive := hfits.readArchive_encode hsoundA.consistent hordered hnests
    obtain ⟨c, hc, hentries, hsignatures, hversions⟩ :=
      exists_unpacked hsoundA.consistent hconfig
    obtain ⟨hresult, halike⟩ := restore_of_archive hsoundB.usable hbytes harchive hc
    exact ⟨hresult, .of_unpacked hc hentries hsignatures hversions halike⟩

def slotLeft : List (World × Operation) :=
  [(.bare, .declareIndex ["city"]),
    (.bare, .set (some "a") [("city", .text "Rome")] ⟨false, false⟩),
    (.bare, .set (some "b") [("city", .text "Oslo")] ⟨false, false⟩),
    (.bare, .delete (.key "a") ⟨true, false⟩)]

theorem restored_after_slotLeft :
    let s := plain.after slotLeft
    let w := (s.save .bare).world
    let t := plain.after [(.bare, .set (some "c") [] ⟨false, false⟩)]
    plain.Fresh ∧ plain.TakesAllOrdered slotLeft ∧ s.NestsWithin ∧ s.Fits ∧
      Storage.isTarget plain.name = true ∧ (s.save .bare).result = .ok () ∧
      s.contents.snapshots = [⟨"b", 1, [("city", .text "Oslo")]⟩] ∧
      (t.restore w).result = .ok true ∧
      (t.restore w).store.contents.snapshots = [⟨"b", 0, [("city", .text "Oslo")]⟩] ∧
      (t.restore w).store.contents.catalog.signatures = ["city"] ∧
      (t.restore w).store.revision = 2 := by
  intro s w t
  have hsnapshots : s.contents.snapshots = [⟨"b", 1, [("city", .text "Oslo")]⟩] := rfl
  have htakes : plain.TakesAllOrdered slotLeft := by
    have hordered (city : String) : Value.Ordered (.map [("city", .text city)]) :=
      ⟨List.pairwise_singleton _ _, trivial, trivial⟩
    exact ⟨trivial, hordered _, hordered _, trivial, trivial⟩
  have hnests : s.NestsWithin := by
    unfold NestsWithin
    rw [hsnapshots]
    intro r hr
    obtain rfl := List.mem_singleton.mp hr
    decide
  have hfits : s.Fits := ⟨by decide, by decide +kernel⟩
  have htarget : Storage.isTarget plain.name = true := by decide +kernel
  obtain ⟨hsave, hrestore⟩ := restored_after_save plain_fresh plain_fresh rfl slotLeft
    [(.bare, .set (some "c") [] ⟨false, false⟩)] htakes hnests hfits .bare w
  have hsaved := hsave htarget _ rfl
  have hstored : w = ((plain.after slotLeft).save .bare).world := rfl
  obtain ⟨hresult, hrestored⟩ := hrestore hsaved (hstored ▸ rfl)
  exact ⟨plain_fresh, htakes, hnests, hfits, htarget, hsaved, hsnapshots, hresult,
    hrestored.snapshots, hrestored.signatures, hrestored.revision⟩

/-- Where some fields nest deeper than the reader accepts, saving succeeds as before, but no store
can restore what was saved; it is left as it was. -/
theorem refused_after_deeper_save (ha : a.Fresh) (hb : b.Fresh) (hname : b.name = a.name)
    (stepsA stepsB : List (World × Operation)) (htakes : a.TakesAllOrdered stepsA)
    (hdeep : ¬ (a.after stepsA).NestsWithin) (hfits : (a.after stepsA).Fits) {w w' : World}
    (hsaved : ((a.after stepsA).save w).result = .ok ())
    (hstored : w'.storage.get a.name = ((a.after stepsA).save w).world.storage.get a.name) :
    ((b.after stepsB).restore w').result = .error (.value (.decodingFailed "malformed")) ∧
      (b.after stepsB).Alike ((b.after stepsB).restore w').store := by
  have hnameA := ha.name_after stepsA
  have hnameB := (hb.name_after stepsB).trans (hname.trans hnameA.symm)
  rw [← hnameA] at hstored
  have hbytes := get_of_stored hnameB hsaved hstored
  have harchive := hfits.readArchive_encode_of_deeper (ha.sound.1.after stepsA).consistent
    (ha.after_ordered stepsA htakes) hdeep
  unfold restore
  rw [usable_eq (hb.sound.1.after stepsB).usable, tracked_result, hbytes]
  dsimp only
  rw [harchive]
  exact ⟨rfl, tracked_alike (⟨.error _, _, w'⟩ : Outcome Bool)⟩

end Store

end IndexedStore
