import Mathlib.Logic.Function.Basic
import IndexedStore.Index.Catalog
import IndexedStore.Proofs.SecondaryIndex

/-!
What the indexes of a store say about its records. Records are given as a function from
positions; the indexes reflect it when they hold exactly its keys and buckets. Filing, taking
out and moving one record are updates of that function, and building anew reflects the records
it is built from.
-/
namespace IndexedStore

namespace SecondaryIndex

/-- The index files exactly the fields found at each position under their bucket. -/
structure Holds (ix : SecondaryIndex) (data : Nat → Option Fields) : Prop where
  wellFormed : ix.WellFormed
  mem_lookup : ∀ b p, p ∈ ix.lookup b ↔ ∃ f, data p = some f ∧ ix.bucketOf f = b

variable {ix : SecondaryIndex} {data : Nat → Option Fields}

theorem bucketOf_congr {ix ix' : SecondaryIndex} (h : ix'.fields = ix.fields) (f : Fields) :
    ix'.bucketOf f = ix.bucketOf f := by
  unfold bucketOf
  rw [h]

theorem holds_empty (names : List String) : (empty names).Holds fun _ => none :=
  ⟨wellFormed_empty names, by simp⟩

/-- Filing a record changes nothing when it is filed already. -/
theorem Holds.insert (h : ix.Holds data) {f : Fields} {p : Nat}
    (hfree : data p = none ∨ data p = some f) :
    (ix.insert (ix.bucketOf f) p).2.Holds (Function.update data p (some f)) := by
  refine ⟨wellFormed_insert h.wellFormed _ _, fun b q => ?_⟩
  rw [mem_lookup_insert, h.mem_lookup]
  simp only [bucketOf_congr (fields_insert ix (ix.bucketOf f) p)]
  by_cases hq : q = p
  · subst hq
    rw [Function.update_self]
    rcases hfree with hnone | hsome
    · simp [hnone, eq_comm]
    · simp [hsome, eq_comm]
  · rw [Function.update_of_ne hq]
    simp [hq]

theorem Holds.mem_bucket (h : ix.Holds data) {f : Fields} {p : Nat} (hp : data p = some f) :
    p ∈ ix.lookup (ix.bucketOf f) := (h.mem_lookup _ p).mpr ⟨f, hp, rfl⟩

theorem Holds.remove (h : ix.Holds data) {f : Fields} {p : Nat} (hp : data p = some f) :
    (ix.remove (ix.bucketOf f) p).2.Holds (Function.update data p none) := by
  refine ⟨wellFormed_remove h.wellFormed _ _, fun b q => ?_⟩
  rw [mem_lookup_remove h.wellFormed, h.mem_lookup]
  simp only [bucketOf_congr (fields_remove ix (ix.bucketOf f) p)]
  by_cases hq : q = p
  · subst hq
    simp [hp, eq_comm]
  · rw [Function.update_of_ne hq]
    simp [hq]

theorem Holds.reposition (h : ix.Holds data) {f : Fields} {p q : Nat} (hp : data p = some f)
    (hq : data q = none) :
    (ix.reposition (ix.bucketOf f) p q).2.Holds
      (Function.update (Function.update data p none) q (some f)) := by
  have hremoved := h.remove hp
  have hbucket := bucketOf_congr (fields_remove ix (ix.bucketOf f) p) f
  rw [reposition_of_mem (h.mem_bucket hp)]
  have hfree : Function.update data p none q = none := by
    by_cases hqp : q = p
    · rw [hqp, Function.update_self]
    · rw [Function.update_of_ne hqp, hq]
  have hinserted := hremoved.insert (f := f) (p := q) (Or.inl hfree)
  rwa [hbucket] at hinserted

/-- The count is that of the positions at which there are fields. -/
theorem Holds.count_eq (h : ix.Holds data) {l : List Nat} (hl : l.Nodup)
    (hmem : ∀ p, p ∈ l ↔ ∃ f, data p = some f) : ix.count = l.length := by
  have hpairs : (l.map fun p => (ix.bucketOf ((data p).getD []), p)).Nodup := by
    refine hl.map ?_
    intro p q hpq
    exact (Prod.mk.inj hpq).2
  rw [h.wellFormed.count_eq hpairs, List.length_map]
  intro b p
  rw [h.mem_lookup]
  simp only [List.mem_map, Prod.mk.injEq]
  constructor
  · rintro ⟨q, hq, rfl, rfl⟩
    obtain ⟨f, hf⟩ := (hmem q).mp hq
    exact ⟨f, hf, by rw [hf, Option.getD_some]⟩
  · rintro ⟨f, hf, rfl⟩
    exact ⟨p, (hmem p).mpr ⟨f, hf⟩, by rw [hf, Option.getD_some], rfl⟩

end SecondaryIndex

namespace Catalog

/-! ### Declarations -/

structure Canonical (names : List String) : Prop where
  ne_nil : names ≠ []
  ascending : names.Pairwise (· < ·)
  plain : ∀ name ∈ names, name ≠ "" ∧ Bucket.separator ∉ name.toList

structure WellDeclared (c : Catalog) : Prop where
  sorted : SortedMap.Sorted c.secondary
  declared : ∀ e ∈ c.secondary, e.1 = e.2.signature ∧ Canonical e.2.fields

def membershipsOf (c : Catalog) (fields : Fields) : List (String × String) :=
  c.secondary.map fun e => (e.1, e.2.bucketOf fields)

def mapIndexes (c : Catalog) (f : SecondaryIndex → SecondaryIndex) : Catalog :=
  { c with secondary := c.secondary.map fun e => (e.1, f e.2) }

@[simp] theorem mapIndexes_primary (c : Catalog) (f : SecondaryIndex → SecondaryIndex) :
    (c.mapIndexes f).primary = c.primary := rfl

theorem membershipsOf_mapIndexes (c : Catalog) {f : SecondaryIndex → SecondaryIndex}
    (hf : ∀ ix, (f ix).fields = ix.fields) (fields : Fields) :
    (c.mapIndexes f).membershipsOf fields = c.membershipsOf fields := by
  unfold membershipsOf mapIndexes
  rw [List.map_map]
  refine List.map_congr_left fun e _ => ?_
  exact congrArg (Prod.mk e.1) (SecondaryIndex.bucketOf_congr (hf e.2) fields)

theorem sorted_membershipsOf {c : Catalog} (hc : SortedMap.Sorted c.secondary)
    (fields : Fields) : SortedMap.Sorted (c.membershipsOf fields) := by
  unfold membershipsOf SortedMap.Sorted
  rw [List.pairwise_map]
  exact hc

theorem WellDeclared.mapIndexes {c : Catalog} (h : c.WellDeclared)
    {f : SecondaryIndex → SecondaryIndex} (hf : ∀ ix, (f ix).fields = ix.fields) :
    (c.mapIndexes f).WellDeclared := by
  refine ⟨SortedMap.sorted_map (fun _ ix => f ix) h.sorted, ?_⟩
  intro e he
  obtain ⟨d, hd, rfl⟩ := List.mem_map.mp he
  obtain ⟨hsignature, hcanonical⟩ := h.declared d hd
  refine ⟨?_, ?_⟩
  · unfold SecondaryIndex.signature at hsignature ⊢
    rw [hf]
    exact hsignature
  · rw [hf]
    exact hcanonical

theorem canonical_of_canonicalFields {names fields : List String}
    (h : canonicalFields names = .ok fields) : Canonical fields := by
  unfold canonicalFields at h
  split_ifs at h with hempty
  split at h
  · exact absurd h (by simp)
  · rename_i hfind
    obtain rfl := Except.ok.inj h
    have hmem : ∀ name, name ∈ SortedMap.distinct names ↔ name ∈ names :=
      SortedMap.mem_distinct names
    refine ⟨?_, SortedMap.pairwise_distinct names, ?_⟩
    · obtain ⟨name, hname⟩ := List.exists_mem_of_ne_nil names (by simpa using hempty)
      exact List.ne_nil_of_mem ((hmem name).mpr hname)
    · intro name hname
      have hgood := List.find?_eq_none.mp hfind name ((hmem name).mp hname)
      simp only [Bool.or_eq_true, not_or, List.contains_iff_mem] at hgood
      refine ⟨fun heq => hgood.1 (by rw [heq]; rfl), hgood.2⟩

/-! ### Each change of a record as a change of each index -/

theorem file_eq (c : Catalog) (r : Record) :
    c.file r =
      (c.mapIndexes fun ix => (ix.insert (ix.bucketOf r.fields) r.position).2,
        { r with memberships := c.membershipsOf r.fields }) := rfl

@[simp] theorem modify_primary (c : Catalog) (signature : String)
    (f : SecondaryIndex → SecondaryIndex) : (c.modify signature f).primary = c.primary := by
  unfold modify
  split <;> rfl

theorem get?_modify (c : Catalog) (signature k : String) (f : SecondaryIndex → SecondaryIndex) :
    SortedMap.get? (c.modify signature f).secondary k =
      if k = signature then (SortedMap.get? c.secondary k).map f
      else SortedMap.get? c.secondary k := by
  unfold modify
  cases h : SortedMap.get? c.secondary signature with
  | some ix =>
    simp only [SortedMap.get?_insert]
    split_ifs with hk
    · rw [hk, h, Option.map_some]
    · rfl
  | none =>
    split_ifs with hk
    · rw [hk, h, Option.map_none]
    · rfl

theorem sorted_modify {c : Catalog} (h : SortedMap.Sorted c.secondary) (signature : String)
    (f : SecondaryIndex → SecondaryIndex) :
    SortedMap.Sorted (c.modify signature f).secondary := by
  unfold modify
  split
  · exact SortedMap.sorted_insert _ _ h
  · exact h

/-- Changing the index of each membership, when every index has one. -/
theorem foldl_modify (g : SecondaryIndex → String → SecondaryIndex)
    (memberships : List (String × String)) (hm : SortedMap.Sorted memberships) (c : Catalog)
    (hc : SortedMap.Sorted c.secondary) :
    (memberships.foldl (fun c e => c.modify e.1 fun ix => g ix e.2) c).primary = c.primary ∧
      SortedMap.Sorted
        (memberships.foldl (fun c e => c.modify e.1 fun ix => g ix e.2) c).secondary ∧
      ∀ k, SortedMap.get?
          (memberships.foldl (fun c e => c.modify e.1 fun ix => g ix e.2) c).secondary k =
        match SortedMap.get? memberships k with
        | some bucket => (SortedMap.get? c.secondary k).map fun ix => g ix bucket
        | none => SortedMap.get? c.secondary k := by
  induction memberships generalizing c with
  | nil => exact ⟨rfl, hc, fun k => rfl⟩
  | cons e rest ih =>
    obtain ⟨signature, bucket⟩ := e
    obtain ⟨hhead, htail⟩ := List.pairwise_cons.mp hm
    obtain ⟨hprimary, hsorted, hget⟩ :=
      ih htail (c.modify signature fun ix => g ix bucket) (sorted_modify hc _ _)
    rw [List.foldl_cons]
    refine ⟨hprimary.trans (modify_primary _ _ _), hsorted, fun k => ?_⟩
    rw [hget, get?_modify, SortedMap.get?_cons]
    by_cases hk : k = signature
    · subst hk
      rw [SortedMap.get?_eq_none_of_forall_lt hhead]
      simp
    · simp [hk, Ne.symm hk]

theorem foldl_modify_membershipsOf (g : SecondaryIndex → String → SecondaryIndex) {c : Catalog}
    (hc : SortedMap.Sorted c.secondary) (fields : Fields) :
    (c.membershipsOf fields).foldl (fun c e => c.modify e.1 fun ix => g ix e.2) c =
      c.mapIndexes fun ix => g ix (ix.bucketOf fields) := by
  have hm := sorted_membershipsOf hc fields
  obtain ⟨hprimary, hsorted, hget⟩ := foldl_modify g _ hm c hc
  have hsecondary := SortedMap.ext_get? hsorted
    (SortedMap.sorted_map (fun _ ix => g ix (ix.bucketOf fields)) hc) fun k => by
      rw [hget, SortedMap.get?_map fun _ ix => g ix (ix.bucketOf fields)]
      unfold membershipsOf
      rw [SortedMap.get?_map fun _ (ix : SecondaryIndex) => ix.bucketOf fields]
      cases SortedMap.get? c.secondary k <;> rfl
  unfold mapIndexes
  rw [← hsecondary, ← hprimary]

theorem unfile_eq {c : Catalog} (hc : SortedMap.Sorted c.secondary) {r : Record}
    (hr : r.memberships = c.membershipsOf r.fields) :
    c.unfile r =
      (c.mapIndexes fun ix => (ix.remove (ix.bucketOf r.fields) r.position).2,
        { r with memberships := [] }) := by
  unfold unfile
  rw [hr]
  exact congrArg (Prod.mk · _) (foldl_modify_membershipsOf
    (fun ix bucket => (ix.remove bucket r.position).2) hc r.fields)

theorem reposition_eq {c : Catalog} (hc : SortedMap.Sorted c.secondary) {r : Record}
    (hr : r.memberships = c.membershipsOf r.fields) {p : Nat} (hp : r.position ≠ p) :
    c.reposition r p =
      ((c.mapIndexes fun ix =>
        (ix.reposition (ix.bucketOf r.fields) r.position p).2).insertPrimary r.key p,
        { r with position := p }) := by
  unfold reposition
  rw [if_neg hp]
  have hmoved := foldl_modify_membershipsOf
    (fun ix bucket => (ix.reposition bucket r.position p).2) hc r.fields
  rw [← hr] at hmoved
  exact congrArg (fun c : Catalog => (c.insertPrimary r.key p, { r with position := p })) hmoved

end Catalog
end IndexedStore
