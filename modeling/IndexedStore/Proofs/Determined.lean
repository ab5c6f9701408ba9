import IndexedStore.Proofs.Ledger

/-!
Contents without empty slots are determined by what they hold: the keys and fields of the records
in their order and the fields of the declared indexes fix every slot, every membership and every
index. So two ways of writing lead to the same contents as soon as they lead to the same records.
-/
namespace IndexedStore

namespace SecondaryIndex

variable {ix ix' : SecondaryIndex}

/-- An index is determined by its fields and by what it holds. -/
theorem Holds.determined {data : Nat → Option Fields} (h : ix.Holds data) (h' : ix'.Holds data)
    (hfields : ix'.fields = ix.fields) : ix' = ix := by
  refine WellFormed.determined h.wellFormed h'.wellFormed hfields fun b p => ?_
  rw [h.mem_lookup, h'.mem_lookup]
  simp only [bucketOf_congr hfields]

end SecondaryIndex

namespace Catalog

variable {c c' : Catalog}

def declared (c : Catalog) : SortedMap (List String) := c.secondary.map fun e => (e.1, e.2.fields)

theorem get?_declared (c : Catalog) (k : String) :
    SortedMap.get? c.declared k = (SortedMap.get? c.secondary k).map SecondaryIndex.fields :=
  SortedMap.get?_map (fun _ (ix : SecondaryIndex) => ix.fields) c.secondary k

theorem membershipsOf_eq (c : Catalog) (fields : Fields) :
    c.membershipsOf fields = c.declared.map fun e => (e.1, Bucket.ofFields e.2 fields) := by
  unfold membershipsOf declared
  rw [List.map_map]
  rfl

/-! ### What leaves the declarations alone -/

theorem declared_mapIndexes (c : Catalog) {f : SecondaryIndex → SecondaryIndex}
    (hf : ∀ ix, (f ix).fields = ix.fields) : (c.mapIndexes f).declared = c.declared := by
  unfold declared mapIndexes
  rw [List.map_map]
  apply List.map_congr_left
  intro e _
  exact congrArg (Prod.mk e.1) (hf e.2)

theorem declared_file (c : Catalog) (r : Record) : (c.file r).1.declared = c.declared :=
  declared_mapIndexes c (f := fun ix => (ix.insert (ix.bucketOf r.fields) r.position).2)
    fun _ => SecondaryIndex.fields_insert _ _ _

theorem declared_clear (c : Catalog) : c.clear.declared = c.declared :=
  declared_mapIndexes c (f := SecondaryIndex.clear) fun _ => rfl

theorem declared_modify (hc : SortedMap.Sorted c.secondary) (signature : String)
    {f : SecondaryIndex → SecondaryIndex} (hf : ∀ ix, (f ix).fields = ix.fields) :
    (c.modify signature f).declared = c.declared := by
  have hsorted := sorted_modify hc signature f
  apply SortedMap.ext_get? (SortedMap.sorted_map (fun _ ix => ix.fields) hsorted)
    (SortedMap.sorted_map (fun _ ix => ix.fields) hc)
  intro k
  change SortedMap.get? (c.modify signature f).declared k = SortedMap.get? c.declared k
  rw [get?_declared, get?_declared, get?_modify]
  split_ifs with hk
  · rw [Option.map_map]
    exact congrFun (congrArg Option.map (funext hf)) _
  · rfl

theorem declared_foldl_modify (hc : SortedMap.Sorted c.secondary)
    {g : SecondaryIndex → String → SecondaryIndex} (hg : ∀ ix b, (g ix b).fields = ix.fields)
    (memberships : List (String × String)) :
    (memberships.foldl (fun c e => c.modify e.1 fun ix => g ix e.2) c).declared = c.declared ∧
      SortedMap.Sorted
        (memberships.foldl (fun c e => c.modify e.1 fun ix => g ix e.2) c).secondary := by
  induction memberships generalizing c with
  | nil => exact ⟨rfl, hc⟩
  | cons e rest ih =>
    obtain ⟨hdeclared, hsorted⟩ := ih (sorted_modify hc e.1 fun ix => g ix e.2)
    exact ⟨hdeclared.trans (declared_modify hc e.1 fun ix => hg ix e.2), hsorted⟩

theorem declared_unfile (hc : SortedMap.Sorted c.secondary) (r : Record) :
    (c.unfile r).1.declared = c.declared :=
  (declared_foldl_modify hc (g := fun ix b => (ix.remove b r.position).2)
    (fun _ _ => SecondaryIndex.fields_remove _ _ _) r.memberships).1

theorem declared_reposition (hc : SortedMap.Sorted c.secondary) (r : Record) (p : Nat) :
    (c.reposition r p).1.declared = c.declared ∧
      SortedMap.Sorted (c.reposition r p).1.secondary := by
  unfold reposition
  split_ifs
  · exact ⟨rfl, hc⟩
  · exact declared_foldl_modify hc (g := fun ix b => (ix.reposition b r.position p).2)
      (fun _ _ => SecondaryIndex.fields_reposition _ _ _ _) r.memberships

theorem declared_fileAll (records : List Record) (c : Catalog) (offset : Nat)
    (h : (c.fileAll offset records).1 = .ok c') : c'.declared = c.declared := by
  induction records generalizing c offset with
  | nil => exact congrArg declared (Except.ok.inj h).symm
  | cons r rest ih =>
    unfold fileAll at h
    split_ifs at h
    · exact (ih _ _ h).trans (declared_file (c.insertPrimary r.key offset) r)

end Catalog

namespace Contents

variable {c c' : Contents}

def declared (c : Contents) : SortedMap (List String) := c.catalog.declared

theorem Consistent.sorted_secondary (h : c.Consistent) : SortedMap.Sorted c.catalog.secondary :=
  h.reflects.files.declared.sorted

theorem Consistent.declared_upsert (h : c.Consistent) (key : String) (data : Fields)
    (overwrite versioning : Bool) :
    (c.upsert key data overwrite versioning).contents.declared = c.declared := by
  unfold declared
  cases hr : c.record? key with
  | some r =>
    rw [upsert_of_some hr]
    exact (Catalog.declared_file _ _).trans (Catalog.declared_unfile h.sorted_secondary r)
  | none =>
    rw [upsert_of_none hr]
    exact Catalog.declared_file (c.catalog.insertPrimary key c.slots.length) _

theorem Consistent.declared_forget (h : c.Consistent) (r : Record) :
    (c.forget r).declared = c.declared := Catalog.declared_unfile h.sorted_secondary r

theorem Consistent.declared_hollow (h : c.Consistent) {p : Nat} {r : Record}
    (hc : c.hollow p = some (r, c')) : c'.declared = c.declared := by
  unfold Contents.hollow at hc
  obtain ⟨s, -, heq⟩ := Option.map_eq_some_iff.mp hc
  obtain ⟨rfl, rfl⟩ := Prod.mk.inj heq
  exact h.declared_forget s

theorem versions_hollow {p : Nat} {r : Record} (hc : c.hollow p = some (r, c')) :
    c'.versions = c.versions.remove r.key := by
  unfold Contents.hollow at hc
  obtain ⟨s, -, heq⟩ := Option.map_eq_some_iff.mp hc
  obtain ⟨rfl, rfl⟩ := Prod.mk.inj heq
  rfl

theorem Consistent.declared_cut (h : c.Consistent) {p : Nat} {r : Record}
    (hc : c.cut p = some (r, c')) :
    c'.declared = c.declared ∧ SortedMap.Sorted c'.catalog.secondary ∧
      c'.versions = c.versions.remove r.key := by
  unfold Contents.cut at hc
  obtain ⟨s, -, heq⟩ := Option.map_eq_some_iff.mp hc
  obtain ⟨rfl, rfl⟩ := Prod.mk.inj heq
  refine ⟨h.declared_forget s, ?_, rfl⟩
  exact (Catalog.declared_foldl_modify h.sorted_secondary
    (g := fun ix b => (ix.remove b s.position).2)
    (fun _ _ => SecondaryIndex.fields_remove _ _ _) s.memberships).2

theorem declared_repositionSlots (slots : List (Option Record)) {catalog : Catalog}
    (hc : SortedMap.Sorted catalog.secondary) (offset : Nat) :
    (repositionSlots catalog offset slots).1.declared = catalog.declared := by
  induction slots generalizing catalog offset with
  | nil => rfl
  | cons o rest ih =>
    cases o with
    | none => exact ih hc (offset + 1)
    | some r =>
      obtain ⟨hdeclared, hsorted⟩ := Catalog.declared_reposition hc r offset
      exact (ih hsorted (offset + 1)).trans hdeclared

theorem versions_reindex (hc : c.reindex = .ok c') : c'.versions = c.versions := by
  unfold Contents.reindex at hc
  split at hc
  · obtain rfl := Except.ok.inj hc
    rfl
  · exact absurd hc (by simp)

theorem declared_reindex (hc : c.reindex = .ok c') : c'.declared = c.declared := by
  unfold Contents.reindex at hc
  split at hc
  · rename_i catalog records hbuilt
    obtain rfl := Except.ok.inj hc
    have hfiled := Catalog.declared_fileAll c.dense c.catalog.clear 0 (congrArg Prod.fst hbuilt)
    exact hfiled.trans (Catalog.declared_clear c.catalog)
  · exact absurd hc (by simp)

/-- A deletion leaves the declarations alone and forgets the versions of the record. -/
theorem Consistent.declared_removal (h : c.Consistent) {r : Record} {options : DeleteOptions}
    (hc : c.Removal r options c') :
    c'.declared = c.declared ∧ c'.versions = c.versions.remove r.key := by
  cases hc with
  | hollowed _ hhollow => exact ⟨h.declared_hollow hhollow, versions_hollow hhollow⟩
  | @rebuilt _ cut _ _ hcut hbuilt =>
    obtain ⟨hdeclared, -, hversions⟩ := h.declared_cut hcut
    exact ⟨(declared_reindex hbuilt).trans hdeclared, (versions_reindex hbuilt).trans hversions⟩
  | @closed cut _ _ hcut =>
    obtain ⟨hdeclared, hsorted, hversions⟩ := h.declared_cut hcut
    exact ⟨(declared_repositionSlots _ hsorted _).trans hdeclared, hversions⟩

theorem Consistent.declared_itemApplied (h : c.Consistent) (versioning : Bool)
    (item : BatchItem) : (c.itemApplied versioning item).declared = c.declared := by
  cases item with
  | store key data => exact h.declared_upsert key data false versioning
  | remove key =>
    rcases itemApplied_remove_cases versioning c key with ⟨-, hsame⟩ | ⟨p, r, -, hhollow⟩
    · rw [hsame]
    · exact h.declared_hollow hhollow

theorem Consistent.declared_itemsApplied (h : c.Consistent) (versioning : Bool)
    (ready : List (Except StoreError BatchItem)) :
    (c.itemsApplied versioning ready).declared = c.declared := by
  unfold Contents.itemsApplied
  induction ready.filterMap Except.toOption generalizing c with
  | nil => rfl
  | cons item rest ih =>
    exact (ih (h.itemApplied versioning item).1).trans (h.declared_itemApplied versioning item)

/-! ### The slots and indexes that records and declarations determine -/

def filedAt (declared : SortedMap (List String)) (position : Nat) (e : String × Fields) : Record :=
  ⟨position, e.1, e.2, declared.map fun d => (d.1, Bucket.ofFields d.2 e.2)⟩

theorem slots_eq_map_live (h : c.slots.countP Option.isNone = 0) : c.slots = c.live.map some := by
  have hsome : ∀ o ∈ c.slots, ¬ o.isNone = true := List.countP_eq_zero.mp h
  unfold live
  generalize c.slots = slots at hsome
  induction slots with
  | nil => rfl
  | cons o rest ih =>
    obtain ⟨ho, hrest⟩ := List.forall_mem_cons.mp hsome
    cases o with
    | none => exact absurd ho (by simp)
    | some r => exact congrArg (some r :: ·) (ih hrest)

/-- Without empty slots, the slots are the records in their order, each filed at its place. -/
theorem Consistent.slots_eq (h : c.Consistent) (hholes : c.holes = 0) :
    c.slots = c.entries.mapIdx fun i e => some (filedAt c.declared i e) := by
  have hlive := slots_eq_map_live (h.counted ▸ hholes)
  apply List.ext_getElem?
  intro i
  rw [List.getElem?_mapIdx]
  unfold entries
  rw [List.getElem?_map, hlive, List.getElem?_map, Option.map_map]
  cases hr : c.live[i]? with
  | none => rfl
  | some r =>
    have hat : slotAt c.slots i = some r := by
      rw [hlive, slotAt_map_some, hr]
    have hposition := h.reflects.files.position i r hat
    have hmemberships := h.reflects.files.memberships i r hat
    rw [Catalog.membershipsOf_eq] at hmemberships
    obtain ⟨position, key, fields, memberships⟩ := r
    dsimp only at hposition hmemberships
    subst hposition hmemberships
    rfl

theorem map_mapIdx {α β γ : Type} (f : Nat → α → β) (g : β → γ) (l : List α) :
    (l.mapIdx f).map g = l.mapIdx fun i x => g (f i x) := by
  apply List.ext_getElem?
  intro i
  rw [List.getElem?_map, List.getElem?_mapIdx, List.getElem?_mapIdx, Option.map_map]
  rfl

theorem mapIdx_map {α β γ : Type} (f : α → β) (g : Nat → β → γ) (l : List α) :
    (l.map f).mapIdx g = l.mapIdx fun i x => g i (f x) := by
  apply List.ext_getElem?
  intro i
  rw [List.getElem?_mapIdx, List.getElem?_map, List.getElem?_mapIdx, Option.map_map]
  rfl

/-- Without empty slots, the records stand at positions from zero on. -/
theorem Consistent.snapshots_eq (h : c.Consistent) (hholes : c.holes = 0) :
    c.snapshots = c.entries.mapIdx fun position e => ⟨e.1, position, e.2⟩ := by
  have hlive : c.live = c.entries.mapIdx (filedAt c.declared) := by
    have hslots := h.slots_eq hholes
    rw [slots_eq_map_live (h.counted ▸ hholes)] at hslots
    apply List.map_injective_iff.mpr (Option.some_injective Record)
    rw [hslots, map_mapIdx]
  unfold snapshots
  rw [hlive, map_mapIdx]
  rfl

/-- Contents without empty slots that agree on their records and declarations agree on their slots
and indexes. -/
theorem Consistent.determined (h : c.Consistent) (h' : c'.Consistent) (hholes : c.holes = 0)
    (hholes' : c'.holes = 0) (hentries : c'.entries = c.entries)
    (hdeclared : c'.declared = c.declared) :
    c'.slots = c.slots ∧ c'.catalog = c.catalog := by
  have hslots : c'.slots = c.slots := by
    rw [h.slots_eq hholes, h'.slots_eq hholes', hentries, hdeclared]
  have hreflects := h'.reflects
  rw [hslots] at hreflects
  have hprimary : c'.catalog.primary = c.catalog.primary := by
    apply SortedMap.ext_get? hreflects.keys.sorted h.reflects.keys.sorted
    intro key
    apply Option.ext
    intro p
    exact (hreflects.keys.position?_iff key p).trans (h.reflects.keys.position?_iff key p).symm
  have hsecondary : c'.catalog.secondary = c.catalog.secondary := by
    apply SortedMap.ext_get? h'.sorted_secondary h.sorted_secondary
    intro k
    have hfields := congrArg (SortedMap.get? · k) hdeclared
    change SortedMap.get? c'.catalog.declared k = SortedMap.get? c.catalog.declared k at hfields
    rw [Catalog.get?_declared, Catalog.get?_declared] at hfields
    cases hix : SortedMap.get? c.catalog.secondary k with
    | none =>
      rw [hix, Option.map_none, Option.map_eq_none_iff] at hfields
      exact hfields
    | some ix =>
      rw [hix, Option.map_some] at hfields
      obtain ⟨ix', hix', hsame⟩ := Option.map_eq_some_iff.mp hfields
      have hholds := h.reflects.files.holds (k, ix) (SortedMap.mem_of_get? hix)
      have hholds' := hreflects.files.holds (k, ix') (SortedMap.mem_of_get? hix')
      rw [hix']
      exact congrArg some (hholds.determined hholds' hsame)
  refine ⟨hslots, ?_⟩
  calc c'.catalog = ⟨c'.catalog.primary, c'.catalog.secondary⟩ := rfl
    _ = ⟨c.catalog.primary, c.catalog.secondary⟩ := by rw [hprimary, hsecondary]
    _ = c.catalog := rfl

end Contents
end IndexedStore
