import IndexedStore.Proofs.Determined

/-!
Declaring indexes one after another. It fails only for names that no index may have, and the
signatures that are declared in the end are those of the names and those that were there.
-/
namespace IndexedStore

namespace Catalog

variable {c : Catalog} {names fields : List String} {signature : String}

def signature? (names : List String) : Option String :=
  (canonicalFields names).toOption.map Bucket.signature

theorem signature?_eq_some_iff :
    signature? names = some signature ↔
      ∃ fields, canonicalFields names = .ok fields ∧ Bucket.signature fields = signature := by
  unfold signature?
  cases canonicalFields names with
  | error fault => simp [Except.toOption]
  | ok fields => simp [Except.toOption]

/-- The fields of a declared index can be declared again as they are. -/
theorem canonicalFields_of_canonical (h : Canonical names) : canonicalFields names = .ok names := by
  have hempty : names.isEmpty = false := by simpa using h.ne_nil
  have hplain : (names.find? fun name =>
      name.isEmpty || name.toList.contains Bucket.separator) = none := by
    rw [List.find?_eq_none]
    intro name hname
    obtain ⟨hfilled, hseparator⟩ := h.plain name hname
    simp [hfilled, hseparator]
  have hsame : SortedMap.distinct names = names :=
    SecondaryIndex.eq_of_mem_iff (SortedMap.pairwise_distinct names) h.ascending
      (SortedMap.mem_distinct names)
  unfold canonicalFields
  rw [hempty, hplain, hsame]
  rfl

theorem signature?_of_canonical (h : Canonical names) :
    signature? names = some (Bucket.signature names) :=
  signature?_eq_some_iff.mpr ⟨names, canonicalFields_of_canonical h, rfl⟩

theorem names_declared (c : Catalog) : SortedMap.names c.declared = c.signatures := by
  unfold SortedMap.names declared signatures SortedMap.names
  rw [List.map_map]
  rfl

/-- Names that can be declared are, and nothing else is. -/
theorem declare_of_signature? (h : signature? names = some signature) :
    ∃ d, c.declare names = .ok d ∧ d.signature = signature ∧
      ∀ k, k ∈ d.catalog.signatures ↔ k = signature ∨ k ∈ c.signatures := by
  obtain ⟨fields, hfields, rfl⟩ := signature?_eq_some_iff.mp h
  unfold declare
  rw [hfields]
  dsimp only
  by_cases hcontains : SortedMap.contains c.secondary (Bucket.signature fields) = true
  · rw [if_pos hcontains]
    refine ⟨_, rfl, rfl, fun k => ⟨Or.inr, ?_⟩⟩
    rintro (rfl | hk)
    · obtain ⟨ix, hix⟩ := (SortedMap.contains_iff _ _).mp hcontains
      exact List.mem_map.mpr ⟨_, SortedMap.mem_of_get? hix, rfl⟩
    · exact hk
  · rw [if_neg hcontains]
    exact ⟨_, rfl, rfl, fun k => SortedMap.mem_names_insert c.secondary _ k _⟩

end Catalog

namespace Contents

variable {c c' : Contents} {names : List String} {signature : String}

theorem signatures_congr (h : c'.declared = c.declared) :
    c'.catalog.signatures = c.catalog.signatures := by
  rw [← Catalog.names_declared, ← Catalog.names_declared]
  exact congrArg SortedMap.names h

theorem signatures_fileSlots (catalog : Catalog) (slots : List (Option Record)) :
    (fileSlots catalog slots).1.signatures = catalog.signatures := by
  have hdeclared : (fileSlots catalog slots).1.declared = catalog.declared := by
    rw [fileSlots_eq]
    exact Catalog.declared_mapIndexes catalog fun ix => fields_filedIn ix slots
  rw [← Catalog.names_declared, ← Catalog.names_declared, hdeclared]

theorem declareIndex_of_signature? (h : Catalog.signature? names = some signature) :
    ∃ c', c.declareIndex names = .ok (signature, c') ∧
      ∀ k, k ∈ c'.catalog.signatures ↔ k = signature ∨ k ∈ c.catalog.signatures := by
  obtain ⟨d, hd, rfl, hsignatures⟩ := Catalog.declare_of_signature? (c := c.catalog) h
  unfold declareIndex
  rw [hd]
  dsimp only
  rcases declare_cases hd with ⟨hcreated, hsame⟩ | ⟨fields, -, hcreated, -⟩
  · rw [hcreated]
    rw [hsame] at hsignatures
    exact ⟨c, rfl, hsignatures⟩
  · rw [hcreated]
    refine ⟨_, rfl, fun k => ?_⟩
    rw [← hsignatures, ← signatures_fileSlots d.catalog c.slots]

theorem signature?_of_declareIndex (h : c.declareIndex names = .ok (signature, c')) :
    (Catalog.signature? names).isSome := by
  unfold declareIndex at h
  split at h
  · exact absurd h (by simp)
  · rename_i d hd
    unfold Catalog.declare at hd
    split at hd
    · exact absurd hd (by simp)
    · rename_i fields hfields
      rw [Catalog.signature?_eq_some_iff.mpr ⟨fields, hfields, rfl⟩]
      rfl

/-- Indexes are all declared when each of them can be. -/
theorem exists_declareIndexes {indexes : List (List String)}
    (h : ∀ names ∈ indexes, (Catalog.signature? names).isSome) :
    ∃ c', c.declareIndexes indexes = .ok c' ∧
      ∀ k, k ∈ c'.catalog.signatures ↔
        k ∈ indexes.filterMap Catalog.signature? ∨ k ∈ c.catalog.signatures := by
  unfold declareIndexes
  induction indexes generalizing c with
  | nil => exact ⟨c, rfl, fun k => by simp⟩
  | cons names rest ih =>
    obtain ⟨hnames, hrest⟩ := List.forall_mem_cons.mp h
    obtain ⟨signature, hsignature⟩ := Option.isSome_iff_exists.mp hnames
    obtain ⟨d, hd, hdeclared⟩ := declareIndex_of_signature? (c := c) hsignature
    obtain ⟨c', hc', hall⟩ := ih (c := d) hrest
    refine ⟨c', ?_, fun k => ?_⟩
    · rw [List.foldlM_cons, hd]
      exact hc'
    · rw [hall, hdeclared, List.filterMap_cons_some hsignature, List.mem_cons]
      tauto

theorem signature?_of_declareIndexes {indexes : List (List String)}
    (h : c.declareIndexes indexes = .ok c') :
    ∀ names ∈ indexes, (Catalog.signature? names).isSome := by
  unfold declareIndexes at h
  induction indexes generalizing c with
  | nil => exact fun names hnames => absurd hnames List.not_mem_nil
  | cons names rest ih =>
    rw [List.foldlM_cons] at h
    cases hd : c.declareIndex names with
    | error fault =>
      rw [hd] at h
      exact absurd h (by simp [Except.map, bind, Except.bind])
    | ok declared =>
      rw [hd] at h
      exact List.forall_mem_cons.mpr ⟨signature?_of_declareIndex hd, ih h⟩

/-- The indexes of consistent contents can all be declared anew, under the same signatures. -/
theorem Consistent.signature?_secondary (h : c.Consistent) :
    (c.catalog.secondary.map (·.2.fields)).map Catalog.signature? =
      c.catalog.signatures.map some := by
  unfold Catalog.signatures SortedMap.names
  rw [List.map_map, List.map_map]
  apply List.map_congr_left
  intro e he
  obtain ⟨hsignature, hcanonical⟩ := h.reflects.files.declared.declared e he
  exact (Catalog.signature?_of_canonical hcanonical).trans (congrArg some hsignature.symm)

end Contents
end IndexedStore
