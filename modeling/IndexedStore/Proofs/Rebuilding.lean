import IndexedStore.Proofs.Contents

/-!
Operations on all records at once. A reindex of records with different keys succeeds, leaves no
slot empty and keeps the order of the records; declaring an index files every record in it and
leaves the other indexes as they are.
-/
namespace IndexedStore.Contents

def entries (c : Contents) : List (String × Fields) := c.live.map fun r => (r.key, r.fields)

variable {c : Contents}

theorem keys_eq_map_entries (c : Contents) : c.keys = c.entries.map Prod.fst := by
  unfold keys entries
  rw [List.map_map]
  rfl

/-! ### Empty contents -/

theorem consistent_empty (limit : Nat) : (empty limit).Consistent := by
  refine ⟨?_, rfl⟩
  have hdeclared : Catalog.empty.WellDeclared := ⟨SortedMap.sorted_nil, by simp [Catalog.empty]⟩
  exact (Catalog.reflects_clear hdeclared).ext fun p => rfl

theorem Consistent.clear (h : c.Consistent) : c.clear.Consistent := by
  refine ⟨?_, rfl⟩
  exact (Catalog.reflects_clear h.reflects.files.declared).ext fun p => rfl

/-! ### Reindexing -/

theorem getElem?_dense (c : Contents) (i : Nat) :
    c.dense[i]? = (c.live[i]?).map fun r => { r with position := i, memberships := [] } := by
  unfold dense
  rw [List.getElem?_mapIdx]

theorem map_dense {α : Type} (c : Contents) (f : String → Fields → α) :
    c.dense.map (fun r => f r.key r.fields) = c.live.map fun r => f r.key r.fields := by
  refine List.ext_getElem? fun i => ?_
  rw [List.getElem?_map, List.getElem?_map, getElem?_dense, Option.map_map]
  rfl

theorem slotAt_map_some (rs : List Record) (p : Nat) : slotAt (rs.map some) p = rs[p]? := by
  unfold slotAt
  rw [List.getElem?_map]
  cases rs[p]? <;> rfl

theorem filterMap_id_map_some (rs : List Record) : (rs.map some).filterMap id = rs := by
  rw [List.filterMap_map]
  exact List.filterMap_some

theorem countP_isNone_map_some (rs : List Record) :
    (rs.map some).countP Option.isNone = 0 := by
  rw [List.countP_eq_zero]
  intro o ho
  obtain ⟨r, -, rfl⟩ := List.mem_map.mp ho
  simp

/-- A reindex succeeds whenever the keys of the records differ. -/
theorem exists_reindex (hd : c.catalog.WellDeclared) (hk : c.keys.Nodup) :
    ∃ c', c.reindex = .ok c' ∧ c'.Consistent ∧ c'.holes = 0 ∧ c'.entries = c.entries ∧
      c'.slots = (c.dense.map c.catalog.refiled).map some ∧
      c'.versions = c.versions ∧ c'.revision = c.revision := by
  have hrefiled : c.catalog.clear.refiled = c.catalog.refiled := by
    funext r
    unfold Catalog.refiled
    rw [Catalog.membershipsOf_clear]
  have hkeys : (c.dense.map (·.key)).Nodup := by
    rw [map_dense c fun key _ => key]
    exact hk
  obtain ⟨catalog, hbuilt, hreflects, -⟩ := Catalog.fileAll_reflects c.dense c.catalog.clear
    (fun _ => none) 0 (Catalog.reflects_clear hd) (fun _ _ => rfl)
    (fun i r hr => by
      rw [getElem?_dense] at hr
      obtain ⟨s, -, rfl⟩ := Option.map_eq_some_iff.mp hr
      exact (Nat.zero_add i).symm)
    (fun r _ => rfl) hkeys
  rw [hrefiled] at hbuilt hreflects
  have hlive : ((c.dense.map c.catalog.refiled).map some).filterMap id =
      c.dense.map c.catalog.refiled := filterMap_id_map_some _
  let slots := (c.dense.map c.catalog.refiled).map some
  refine ⟨{ c with slots := slots, catalog := catalog, holes := 0 },
    ?_, ⟨?_, ?_⟩, rfl, ?_, rfl, rfl, rfl⟩
  · unfold reindex Catalog.rebuild
    rw [hbuilt]
  · refine hreflects.ext fun p => ?_
    rw [if_neg (Nat.not_lt_zero p), Nat.sub_zero, slotAt_map_some]
  · exact (countP_isNone_map_some _).symm
  · unfold entries live
    rw [hlive, List.map_map]
    exact map_dense c fun key fields => (key, fields)

theorem Consistent.exists_reindex (h : c.Consistent) :
    ∃ c', c.reindex = .ok c' ∧ c'.Consistent ∧ c'.holes = 0 ∧ c'.entries = c.entries ∧
      c'.slots = (c.dense.map c.catalog.refiled).map some ∧
      c'.versions = c.versions ∧ c'.revision = c.revision :=
  Contents.exists_reindex h.reflects.files.declared h.keys_nodup

/-! ### Declaring indexes -/

def filedIn (ix : SecondaryIndex) (slots : List (Option Record)) : SecondaryIndex :=
  slots.foldl (fun ix o => match o with
    | none => ix
    | some r => (ix.insert (ix.bucketOf r.fields) r.position).2) ix

theorem filedIn_none (ix : SecondaryIndex) (rest : List (Option Record)) :
    filedIn ix (none :: rest) = filedIn ix rest := rfl

theorem filedIn_some (ix : SecondaryIndex) (r : Record) (rest : List (Option Record)) :
    filedIn ix (some r :: rest) =
      filedIn (ix.insert (ix.bucketOf r.fields) r.position).2 rest := rfl

theorem fields_filedIn (ix : SecondaryIndex) (slots : List (Option Record)) :
    (filedIn ix slots).fields = ix.fields := by
  induction slots generalizing ix with
  | nil => rfl
  | cons o rest ih =>
    cases o with
    | none => exact ih ix
    | some r => rw [filedIn_some, ih, SecondaryIndex.fields_insert]

theorem fileSlots_eq (catalog : Catalog) (slots : List (Option Record)) :
    fileSlots catalog slots =
      (catalog.mapIndexes (filedIn · slots), slots.map (Option.map catalog.refiled)) := by
  induction slots generalizing catalog with
  | nil =>
    unfold Catalog.mapIndexes
    rw [show catalog.secondary.map (fun e => (e.1, filedIn e.2 [])) = catalog.secondary from
      List.map_id _]
    rfl
  | cons o rest ih =>
    cases o with
    | none =>
      unfold fileSlots
      rw [ih]
      rfl
    | some r =>
      have hrefiled : (catalog.file r).1.refiled = catalog.refiled := by
        funext s
        unfold Catalog.refiled
        rw [Catalog.membershipsOf_file]
      unfold fileSlots
      simp only [ih, hrefiled]
      refine Prod.ext ?_ rfl
      change (catalog.mapIndexes fun ix =>
        (ix.insert (ix.bucketOf r.fields) r.position).2).mapIndexes (filedIn · rest) = _
      unfold Catalog.mapIndexes
      rw [List.map_map]
      rfl

theorem slotAt_map (f : Record → Record) (slots : List (Option Record)) (p : Nat) :
    slotAt (slots.map (Option.map f)) p = (slotAt slots p).map f := by
  unfold slotAt
  rw [List.getElem?_map]
  cases slots[p]? <;> rfl

/-- Filing slots from an offset on overlays what an index holds. -/
theorem holds_filedIn (slots : List (Option Record)) (ix : SecondaryIndex)
    (data : Nat → Option Fields) (offset : Nat) (h : ix.Holds data)
    (hslots : ∀ i r, slotAt slots i = some r → r.position = offset + i ∧
      (data (offset + i) = none ∨ data (offset + i) = some r.fields)) :
    (filedIn ix slots).Holds fun p =>
      if p < offset then data p
      else ((slotAt slots (p - offset)).map (·.fields)).or (data p) := by
  induction slots generalizing ix data offset with
  | nil =>
    have hdata : (fun p => if p < offset then data p
        else ((slotAt [] (p - offset)).map (·.fields)).or (data p)) = data := by
      funext p
      split_ifs
      · rfl
      · rfl
    rw [hdata]
    exact h
  | cons o rest ih =>
    have hstep : ∀ i r, slotAt rest i = some r → r.position = offset + 1 + i ∧
        (data (offset + 1 + i) = none ∨ data (offset + 1 + i) = some r.fields) := by
      intro i r hr
      have hnext := hslots (i + 1) r hr
      rwa [show offset + (i + 1) = offset + 1 + i by omega] at hnext
    cases o with
    | none =>
      have hrest := ih ix data (offset + 1) h hstep
      rw [filedIn_none]
      convert hrest using 2 with p
      rcases lt_trichotomy p offset with hp | rfl | hp
      · rw [if_pos hp, if_pos (by omega)]
      · rw [if_neg (by omega), if_pos (by omega), Nat.sub_self]
        rfl
      · rw [if_neg (by omega), if_neg (by omega),
          show p - offset = p - (offset + 1) + 1 by omega, slotAt_cons_succ]
    | some r =>
      obtain ⟨hposition, hfree⟩ := hslots 0 r rfl
      rw [Nat.add_zero] at hposition hfree
      have hinserted := h.insert hfree
      rw [← hposition] at hinserted
      have hrest := ih _ _ (offset + 1) hinserted fun i s hs => by
        obtain ⟨hp, hdata⟩ := hstep i s hs
        refine ⟨hp, ?_⟩
        rwa [Function.update_of_ne (by omega)]
      rw [filedIn_some]
      convert hrest using 2 with p
      rw [hposition]
      rcases lt_trichotomy p offset with hp | rfl | hp
      · rw [if_pos hp, if_pos (by omega), Function.update_of_ne (by omega)]
      · rw [if_neg (by omega), if_pos (by omega), Nat.sub_self, Function.update_self]
        rfl
      · rw [if_neg (by omega), if_neg (by omega), Function.update_of_ne (by omega),
          show p - offset = p - (offset + 1) + 1 by omega, slotAt_cons_succ]

def withIndex (catalog : Catalog) (fields : List String) : Catalog :=
  { catalog with
    secondary := SortedMap.insert catalog.secondary (Bucket.signature fields) (.empty fields) }

theorem declare_cases {catalog : Catalog} {names : List String} {d : Catalog.Declared}
    (h : catalog.declare names = .ok d) :
    (d.created = false ∧ d.catalog = catalog) ∨
      ∃ fields, Catalog.Canonical fields ∧ d.created = true ∧
        d.catalog = withIndex catalog fields := by
  unfold Catalog.declare at h
  split at h
  · exact absurd h (by simp)
  · rename_i fields hfields
    dsimp only at h
    split_ifs at h with hcontains
    · obtain rfl := Except.ok.inj h
      exact Or.inl ⟨rfl, rfl⟩
    · obtain rfl := Except.ok.inj h
      exact Or.inr ⟨fields, Catalog.canonical_of_canonicalFields hfields, rfl, rfl⟩

theorem Consistent.withIndex_declared (h : c.Consistent) {fields : List String}
    (hcanonical : Catalog.Canonical fields) : (withIndex c.catalog fields).WellDeclared := by
  refine ⟨SortedMap.sorted_insert _ _ h.reflects.files.declared.sorted, fun e he => ?_⟩
  rcases SortedMap.mem_insert he with rfl | he
  · exact ⟨rfl, hcanonical⟩
  · exact h.reflects.files.declared.declared e he

/-- Once the slots are filed, the new index holds the records, as the others do. -/
theorem Consistent.holds_withIndex (h : c.Consistent) (fields : List String) :
    ∀ e ∈ (withIndex c.catalog fields).secondary,
      (filedIn e.2 c.slots).Holds fun p => (slotAt c.slots p).map (·.fields) := by
  intro e he
  rcases SortedMap.mem_insert he with rfl | he
  · have hfiled := holds_filedIn c.slots (.empty fields) _ 0
      (SecondaryIndex.holds_empty fields) fun i r hr =>
        ⟨by rw [h.reflects.files.position i r hr, Nat.zero_add], Or.inl rfl⟩
    simpa using hfiled
  · -- An index that was there holds the records already.
    have hfiled := holds_filedIn c.slots e.2 _ 0 (h.reflects.files.holds e he) fun i r hr =>
      ⟨by rw [h.reflects.files.position i r hr, Nat.zero_add], Or.inr (by
        rw [Nat.zero_add, hr, Option.map_some])⟩
    simpa using hfiled

theorem Consistent.fileSlots (h : c.Consistent) {fields : List String}
    (hcanonical : Catalog.Canonical fields) :
    (Contents.fileSlots (withIndex c.catalog fields) c.slots).1.Reflects
      (slotAt (Contents.fileSlots (withIndex c.catalog fields) c.slots).2) := by
  have hdeclared := h.withIndex_declared hcanonical
  have hholds := h.holds_withIndex fields
  rw [fileSlots_eq]
  generalize hnew : withIndex c.catalog fields = catalog at hdeclared hholds
  have hslotAt : ∀ p, slotAt (c.slots.map (Option.map catalog.refiled)) p =
      (slotAt c.slots p).map catalog.refiled := slotAt_map catalog.refiled c.slots
  have hfields : ∀ p, (slotAt (c.slots.map (Option.map catalog.refiled)) p).map (·.fields) =
      (slotAt c.slots p).map (·.fields) := fun p => by
    rw [hslotAt, Option.map_map]
    rfl
  refine ⟨⟨hdeclared.mapIndexes fun ix => fields_filedIn ix c.slots, ?_, ?_, ?_⟩, ?_⟩
  · intro e he
    obtain ⟨d, hd, rfl⟩ := List.mem_map.mp he
    simp only [hfields]
    exact hholds d hd
  · intro p r hr
    rw [hslotAt] at hr
    obtain ⟨s, -, rfl⟩ := Option.map_eq_some_iff.mp hr
    rw [Catalog.membershipsOf_mapIndexes catalog fun ix => fields_filedIn ix c.slots]
    rfl
  · intro p r hr
    rw [hslotAt] at hr
    obtain ⟨s, hs, rfl⟩ := Option.map_eq_some_iff.mp hr
    exact h.reflects.files.position p s hs
  · have hkeys : (catalog.mapIndexes (filedIn · c.slots)).Keys (slotAt c.slots) :=
      h.reflects.keys.congr (by rw [← hnew]; rfl)
    refine ⟨hkeys.sorted, fun key p => ?_⟩
    rw [hkeys.position?_iff, hslotAt]
    constructor
    · rintro ⟨r, hr, hkey⟩
      exact ⟨catalog.refiled r, by rw [hr, Option.map_some], hkey⟩
    · rintro ⟨r, hr, hkey⟩
      obtain ⟨s, hs, rfl⟩ := Option.map_eq_some_iff.mp hr
      exact ⟨s, hs, hkey⟩

/-- Declaring an index keeps the records with their positions, and the number of empty slots. -/
theorem Consistent.declareIndex (h : c.Consistent) {names : List String} {signature : String}
    {c' : Contents} (hc : c.declareIndex names = .ok (signature, c')) :
    c'.Consistent ∧ (∃ f : Record → Record, (∀ r, (f r).snapshot = r.snapshot) ∧
      c'.slots = c.slots.map (Option.map f)) ∧
      c'.versions = c.versions ∧ c'.revision = c.revision ∧ c'.holes = c.holes := by
  unfold Contents.declareIndex at hc
  split at hc
  · exact absurd hc (by simp)
  · rename_i d hd
    rcases declare_cases hd with ⟨hcreated, -⟩ | ⟨fields, hcanonical, hcreated, hcatalog⟩
    · rw [hcreated] at hc
      obtain ⟨-, rfl⟩ := Prod.mk.inj (Except.ok.inj hc)
      exact ⟨h, ⟨id, fun r => rfl, by simp⟩, rfl, rfl, rfl⟩
    · rw [hcreated] at hc
      obtain ⟨-, rfl⟩ := Prod.mk.inj (Except.ok.inj hc)
      rw [hcatalog]
      have hslots := congrArg Prod.snd (fileSlots_eq (withIndex c.catalog fields) c.slots)
      refine ⟨⟨h.fileSlots hcanonical, ?_⟩,
        ⟨(withIndex c.catalog fields).refiled, fun r => rfl, hslots⟩, rfl, rfl, rfl⟩
      change c.holes = (Contents.fileSlots _ c.slots).2.countP Option.isNone
      rw [hslots, h.counted, List.countP_map]
      congr 1
      funext o
      cases o <;> rfl

end IndexedStore.Contents
