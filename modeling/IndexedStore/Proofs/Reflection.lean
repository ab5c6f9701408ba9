import IndexedStore.Proofs.Catalog

/-!
Catalogs that reflect the records at positions. One lemma for each change of a catalog says
which records it reflects afterwards; building a catalog anew from records with different keys
succeeds and reflects them.
-/
namespace IndexedStore.Catalog

/-- Every secondary index files exactly the records at the positions, each of which knows its
position and its buckets. -/
structure Files (c : Catalog) (records : Nat → Option Record) : Prop where
  declared : c.WellDeclared
  holds : ∀ e ∈ c.secondary, e.2.Holds fun p => (records p).map (·.fields)
  memberships : ∀ p r, records p = some r → r.memberships = c.membershipsOf r.fields
  position : ∀ p r, records p = some r → r.position = p

/-- The primary index maps exactly the keys of the records to their positions. -/
structure Keys (c : Catalog) (records : Nat → Option Record) : Prop where
  sorted : SortedMap.Sorted c.primary
  position?_iff : ∀ key p, c.position? key = some p ↔ ∃ r, records p = some r ∧ r.key = key

structure Reflects (c : Catalog) (records : Nat → Option Record) : Prop where
  files : c.Files records
  keys : c.Keys records

variable {c : Catalog} {records : Nat → Option Record}

/-! ### Primary index -/

theorem position?_insertPrimary (c : Catalog) (key k : String) (p : Nat) :
    (c.insertPrimary key p).position? k = if k = key then some p else c.position? k :=
  SortedMap.get?_insert _ _ _ _

theorem position?_removePrimary (c : Catalog) (key k : String) :
    (c.removePrimary key).position? k = if k = key then none else c.position? k :=
  SortedMap.get?_erase _ _ _

theorem Keys.position?_eq (h : c.Keys records) {p : Nat} {r : Record} (hr : records p = some r) :
    c.position? r.key = some p := (h.position?_iff r.key p).mpr ⟨r, hr, rfl⟩

theorem Keys.eq_of_key_eq (h : c.Keys records) {p q : Nat} {r r' : Record}
    (hr : records p = some r) (hr' : records q = some r') (hkey : r.key = r'.key) : p = q := by
  have hp := h.position?_eq hr
  rw [hkey, h.position?_eq hr'] at hp
  exact (Option.some.inj hp).symm

theorem Keys.congr (h : c.Keys records) {c' : Catalog} (hc : c'.primary = c.primary) :
    c'.Keys records := by
  refine ⟨by rw [hc]; exact h.sorted, fun key p => ?_⟩
  have hposition : c'.position? key = c.position? key := by
    unfold position?
    rw [hc]
  rw [hposition, h.position?_iff]

theorem Keys.insertPrimary (h : c.Keys records) {r : Record} {p : Nat} (hfree : records p = none)
    (hnew : c.position? r.key = none) :
    (c.insertPrimary r.key p).Keys (Function.update records p (some r)) := by
  refine ⟨SortedMap.sorted_insert _ _ h.sorted, fun key q => ?_⟩
  rw [position?_insertPrimary]
  by_cases hq : q = p
  · subst hq
    rw [Function.update_self]
    by_cases hkey : key = r.key
    · simp [hkey]
    · simp [hkey, h.position?_iff, hfree, Ne.symm hkey]
  · rw [Function.update_of_ne hq, ← h.position?_iff]
    by_cases hkey : key = r.key
    · subst hkey
      simp [hnew, Ne.symm hq]
    · simp [hkey]

theorem Keys.removePrimary (h : c.Keys records) {r : Record} {p : Nat}
    (hr : records p = some r) :
    (c.removePrimary r.key).Keys (Function.update records p none) := by
  refine ⟨SortedMap.sorted_erase _ h.sorted, fun key q => ?_⟩
  rw [position?_removePrimary]
  by_cases hq : q = p
  · subst hq
    by_cases hkey : key = r.key
    · simp [hkey]
    · simp [hkey, h.position?_iff, hr, Ne.symm hkey]
  · rw [Function.update_of_ne hq, ← h.position?_iff]
    by_cases hkey : key = r.key
    · subst hkey
      simp [h.position?_eq hr, Ne.symm hq]
    · simp [hkey]

theorem Keys.replace (h : c.Keys records) {r r' : Record} {p : Nat} (hr : records p = some r)
    (hkey : r'.key = r.key) : c.Keys (Function.update records p (some r')) := by
  refine ⟨h.sorted, fun key q => ?_⟩
  rw [h.position?_iff]
  by_cases hq : q = p
  · subst hq
    simp [hr, hkey]
  · rw [Function.update_of_ne hq]

theorem Keys.move (h : c.Keys records) {r r' : Record} {p q : Nat} (hr : records p = some r)
    (hfree : records q = none) (hkey : r'.key = r.key) :
    (c.insertPrimary r.key q).Keys
      (Function.update (Function.update records p none) q (some r')) := by
  refine ⟨SortedMap.sorted_insert _ _ h.sorted, fun key s => ?_⟩
  rw [position?_insertPrimary]
  by_cases hs : s = q
  · subst hs
    rw [Function.update_self]
    by_cases hk : key = r.key
    · simp [hk, hkey]
    · simp [hk, hkey, h.position?_iff, hfree, Ne.symm hk]
  · rw [Function.update_of_ne hs]
    by_cases hsp : s = p
    · subst hsp
      by_cases hk : key = r.key
      · simp [hk, Ne.symm hs]
      · simp [hk, h.position?_iff, hr, Ne.symm hk]
    · rw [Function.update_of_ne hsp, ← h.position?_iff]
      by_cases hk : key = r.key
      · subst hk
        simp [h.position?_eq hr, Ne.symm hs, Ne.symm hsp]
      · simp [hk]

/-! ### Secondary indexes -/

theorem map_update (records : Nat → Option Record) (p : Nat) (o : Option Record) :
    (fun q => (Function.update records p o q).map (·.fields)) =
      Function.update (fun q => (records q).map (·.fields)) p (o.map (·.fields)) := by
  funext q
  by_cases hq : q = p
  · subst hq
    simp
  · simp [hq]

theorem Files.of_secondary (h : c.Files records) {c' : Catalog}
    (hc : c'.secondary = c.secondary) : c'.Files records := by
  have hm : ∀ f, c'.membershipsOf f = c.membershipsOf f := fun f => by
    unfold membershipsOf
    rw [hc]
  refine ⟨⟨by rw [hc]; exact h.declared.sorted, by rw [hc]; exact h.declared.declared⟩,
    by rw [hc]; exact h.holds, fun p r hr => ?_, h.position⟩
  rw [hm, h.memberships p r hr]

/-- Changing every index by a step that suits the new records. -/
theorem Files.mapIndexes (h : c.Files records) {records' : Nat → Option Record}
    {f : SecondaryIndex → SecondaryIndex} (hf : ∀ ix, (f ix).fields = ix.fields)
    (hholds : ∀ ix, ix.Holds (fun p => (records p).map (·.fields)) →
      (f ix).Holds fun p => (records' p).map (·.fields))
    (hm : ∀ p r, records' p = some r → r.memberships = c.membershipsOf r.fields)
    (hp : ∀ p r, records' p = some r → r.position = p) :
    (c.mapIndexes f).Files records' := by
  refine ⟨h.declared.mapIndexes hf, ?_, fun p r hr => ?_, hp⟩
  · intro e he
    obtain ⟨d, hd, rfl⟩ := List.mem_map.mp he
    exact hholds d.2 (h.holds d hd)
  · rw [membershipsOf_mapIndexes c hf, hm p r hr]

theorem Files.file (h : c.Files records) {r : Record} (hfree : records r.position = none) :
    (c.file r).1.Files (Function.update records r.position (some (c.file r).2)) := by
  change (c.mapIndexes fun ix => (ix.insert (ix.bucketOf r.fields) r.position).2).Files
    (Function.update records r.position
      (some { r with memberships := c.membershipsOf r.fields }))
  refine h.mapIndexes (fun ix => SecondaryIndex.fields_insert _ _ _) ?_ ?_ ?_
  · intro ix hix
    rw [map_update]
    exact hix.insert (Or.inl (by rw [hfree, Option.map_none]))
  · intro p s hs
    by_cases hp : p = r.position
    · subst hp
      rw [Function.update_self] at hs
      rw [← Option.some.inj hs]
    · rw [Function.update_of_ne hp] at hs
      exact h.memberships p s hs
  · intro p s hs
    by_cases hp : p = r.position
    · subst hp
      rw [Function.update_self] at hs
      rw [← Option.some.inj hs]
    · rw [Function.update_of_ne hp] at hs
      exact h.position p s hs

theorem Files.unfile (h : c.Files records) {r : Record} {p : Nat} (hr : records p = some r) :
    (c.unfile r).1.Files (Function.update records p none) := by
  rw [unfile_eq h.declared.sorted (h.memberships p r hr), h.position p r hr]
  change (c.mapIndexes fun ix => (ix.remove (ix.bucketOf r.fields) p).2).Files
    (Function.update records p none)
  refine h.mapIndexes (fun ix => SecondaryIndex.fields_remove _ _ _) ?_ ?_ ?_
  · intro ix hix
    rw [map_update]
    exact hix.remove (by rw [hr, Option.map_some])
  · intro q s hs
    by_cases hq : q = p
    · subst hq
      simp at hs
    · rw [Function.update_of_ne hq] at hs
      exact h.memberships q s hs
  · intro q s hs
    by_cases hq : q = p
    · subst hq
      simp at hs
    · rw [Function.update_of_ne hq] at hs
      exact h.position q s hs

theorem unfile_primary (h : c.Files records) {r : Record} {p : Nat} (hr : records p = some r) :
    (c.unfile r).1.primary = c.primary := by
  rw [unfile_eq h.declared.sorted (h.memberships p r hr)]
  rfl

theorem Reflects.reposition (h : c.Reflects records) {r : Record} {p q : Nat}
    (hr : records p = some r) (hfree : records q = none) :
    (c.reposition r q).1.Reflects
      (Function.update (Function.update records p none) q (some { r with position := q })) := by
  have hpq : r.position ≠ q := by
    rw [h.files.position p r hr]
    rintro rfl
    rw [hr] at hfree
    exact absurd hfree (by simp)
  rw [reposition_eq h.files.declared.sorted (h.files.memberships p r hr) hpq,
    h.files.position p r hr]
  -- The records elsewhere are as they were.
  have hothers : ∀ s t,
      Function.update (Function.update records p none) q (some { r with position := q }) s =
        some t → (s = q ∧ t = { r with position := q }) ∨ records s = some t := by
    intro s t hs
    by_cases hsq : s = q
    · subst hsq
      rw [Function.update_self] at hs
      exact Or.inl ⟨rfl, (Option.some.inj hs).symm⟩
    · rw [Function.update_of_ne hsq] at hs
      by_cases hsp : s = p
      · subst hsp
        simp at hs
      · rw [Function.update_of_ne hsp] at hs
        exact Or.inr hs
  have hmoved : (c.mapIndexes fun ix => (ix.reposition (ix.bucketOf r.fields) p q).2).Files
      (Function.update (Function.update records p none) q (some { r with position := q })) := by
    refine h.files.mapIndexes (fun ix => SecondaryIndex.fields_reposition _ _ _ _) ?_ ?_ ?_
    · intro ix hix
      rw [map_update, map_update]
      exact hix.reposition (by rw [hr, Option.map_some]) (by rw [hfree, Option.map_none])
    · intro s t hs
      rcases hothers s t hs with ⟨-, rfl⟩ | hs
      · exact h.files.memberships p r hr
      · exact h.files.memberships s t hs
    · intro s t hs
      rcases hothers s t hs with ⟨rfl, rfl⟩ | hs
      · rfl
      · exact h.files.position s t hs
  refine ⟨hmoved.of_secondary rfl, ?_⟩
  have hkeys : (c.mapIndexes fun ix => (ix.reposition (ix.bucketOf r.fields) p q).2).Keys
      records := h.keys.congr rfl
  exact hkeys.move hr hfree rfl

/-! ### Records in place of records -/

/-- A new record at a free position. -/
theorem Reflects.add (h : c.Reflects records) {r : Record} (hfree : records r.position = none)
    (hnew : c.position? r.key = none) :
    ((c.insertPrimary r.key r.position).file r).1.Reflects (Function.update records r.position
      (some ((c.insertPrimary r.key r.position).file r).2)) := by
  have hfiles : (c.insertPrimary r.key r.position).Files records := h.files.of_secondary rfl
  refine ⟨hfiles.file hfree, Keys.congr ?_ (c := c.insertPrimary r.key r.position) rfl⟩
  exact h.keys.insertPrimary (r := ((c.insertPrimary r.key r.position).file r).2) hfree hnew

/-- Other fields for a record. -/
theorem Reflects.change (h : c.Reflects records) {r : Record} {p : Nat} (hr : records p = some r)
    (fields : Fields) :
    ((c.unfile r).1.file { r with memberships := [], fields := fields }).1.Reflects
      (Function.update records p
        (some ((c.unfile r).1.file { r with memberships := [], fields := fields }).2)) := by
  have hp : r.position = p := h.files.position p r hr
  have hunfiled := h.files.unfile hr
  refine ⟨?_, ?_⟩
  · subst hp
    have hfiled := hunfiled.file (r := { r with memberships := [], fields := fields })
      (Function.update_self _ _ _)
    rwa [Function.update_idem] at hfiled
  · refine Keys.congr (h.keys.replace hr ?_) ?_
    · rfl
    · rw [file_eq, mapIndexes_primary, unfile_primary h.files hr]

/-- A record taken out. -/
theorem Reflects.drop (h : c.Reflects records) {r : Record} {p : Nat} (hr : records p = some r) :
    ((c.unfile r).1.removePrimary r.key).Reflects (Function.update records p none) := by
  refine ⟨(h.files.unfile hr).of_secondary rfl, ?_⟩
  exact (h.keys.congr (unfile_primary h.files hr)).removePrimary hr

theorem Reflects.ext (h : c.Reflects records) {records' : Nat → Option Record}
    (heq : ∀ p, records p = records' p) : c.Reflects records' := by
  have hfun : records = records' := funext heq
  rwa [← hfun]

/-! ### Building anew -/

theorem reflects_clear (h : c.WellDeclared) : c.clear.Reflects fun _ => none := by
  have hclear : c.clear = { c.mapIndexes SecondaryIndex.clear with primary := [] } := rfl
  refine ⟨⟨?_, ?_, by simp, by simp⟩, ⟨SortedMap.sorted_nil, ?_⟩⟩
  · have hdeclared := h.mapIndexes (f := SecondaryIndex.clear) fun _ => rfl
    exact ⟨hdeclared.sorted, hdeclared.declared⟩
  · intro e he
    obtain ⟨d, -, rfl⟩ := List.mem_map.mp he
    exact SecondaryIndex.holds_empty d.2.fields
  · intro key p
    simp [clear, position?, SortedMap.get?_nil]

theorem membershipsOf_clear (c : Catalog) (f : Fields) :
    c.clear.membershipsOf f = c.membershipsOf f :=
  membershipsOf_mapIndexes c (f := SecondaryIndex.clear) (fun _ => rfl) f

theorem membershipsOf_file (c : Catalog) (r : Record) (f : Fields) :
    (c.file r).1.membershipsOf f = c.membershipsOf f := by
  rw [file_eq]
  exact membershipsOf_mapIndexes c
    (f := fun ix => (ix.insert (ix.bucketOf r.fields) r.position).2)
    (fun ix => SecondaryIndex.fields_insert _ _ _) f

def refiled (c : Catalog) (r : Record) : Record :=
  { r with memberships := c.membershipsOf r.fields }

theorem fileAll_cons (c : Catalog) (r : Record) (rest : List Record)
    (hnew : c.position? r.key = none) :
    c.fileAll r.position (r :: rest) =
      ((((c.insertPrimary r.key r.position).file r).1.fileAll (r.position + 1) rest).1,
        c.refiled r ::
          (((c.insertPrimary r.key r.position).file r).1.fileAll (r.position + 1) rest).2) := by
  rw [fileAll, if_neg (by simp), if_neg (by simp [hnew])]
  rfl

/-- Filing records with new and different keys, one position after another. -/
theorem fileAll_reflects (rs : List Record) (c : Catalog) (records : Nat → Option Record)
    (offset : Nat) (h : c.Reflects records) (hfree : ∀ p, offset ≤ p → records p = none)
    (hposition : ∀ i r, rs[i]? = some r → r.position = offset + i)
    (hnew : ∀ r ∈ rs, c.position? r.key = none) (hkeys : (rs.map (·.key)).Nodup) :
    ∃ c', c.fileAll offset rs = (.ok c', rs.map c.refiled) ∧
      c'.Reflects (fun p => if p < offset then records p else (rs.map c.refiled)[p - offset]?) ∧
      ∀ f, c'.membershipsOf f = c.membershipsOf f := by
  induction rs generalizing c records offset with
  | nil =>
    refine ⟨c, rfl, h.ext fun p => ?_, fun f => rfl⟩
    split_ifs with hp
    · rfl
    · simpa using hfree p (by omega)
  | cons r rest ih =>
    have hr : r.position = offset := by simpa using hposition 0 r rfl
    subst hr
    have hrnew : c.position? r.key = none := hnew r List.mem_cons_self
    rw [List.map_cons] at hkeys
    obtain ⟨hrkey, hrestkeys⟩ := List.nodup_cons.mp hkeys
    have hadded := h.add (hfree r.position (le_refl _)) hrnew
    have hm : ∀ f, ((c.insertPrimary r.key r.position).file r).1.membershipsOf f =
        c.membershipsOf f := membershipsOf_file (c.insertPrimary r.key r.position) r
    have hrefiled : ((c.insertPrimary r.key r.position).file r).1.refiled = c.refiled := by
      funext s
      unfold refiled
      rw [hm]
    have hrestnew : ∀ s ∈ rest,
        ((c.insertPrimary r.key r.position).file r).1.position? s.key = none := by
      intro s hs
      have hne : s.key ≠ r.key := fun heq =>
        hrkey (heq ▸ List.mem_map_of_mem (f := (·.key)) hs)
      change (c.insertPrimary r.key r.position).position? s.key = none
      rw [position?_insertPrimary, if_neg hne]
      exact hnew s (List.mem_cons_of_mem _ hs)
    obtain ⟨c', hfiled, hreflects, hm'⟩ := ih
      ((c.insertPrimary r.key r.position).file r).1 _ (r.position + 1) hadded
      (fun p hp => by rw [Function.update_of_ne (by omega), hfree p (by omega)])
      (fun i s hs => by rw [hposition (i + 1) s (by simpa using hs)]; omega) hrestnew hrestkeys
    rw [hrefiled] at hfiled hreflects
    refine ⟨c', ?_, hreflects.ext fun p => ?_, fun f => (hm' f).trans (hm f)⟩
    · rw [fileAll_cons c r rest hrnew, hfiled]
      rfl
    · rw [List.map_cons]
      rcases lt_trichotomy p r.position with hp | rfl | hp
      · rw [if_pos (by omega), if_pos hp, Function.update_of_ne (by omega)]
      · rw [if_pos (by omega), if_neg (by omega), Function.update_self, Nat.sub_self]
        rfl
      · rw [if_neg (by omega), if_neg (by omega),
          show p - r.position = p - (r.position + 1) + 1 by omega, List.getElem?_cons_succ]

end IndexedStore.Catalog
