import IndexedStore.Proofs.Checks
import IndexedStore.Proofs.Rebuilding

/-!
Exactness of indexes, spelled out on the data of the contents: which positions the slots hold,
what each key and each bucket maps to, and what the counts are. Consistent contents are exact.
-/
namespace IndexedStore.Contents

/-- Slots, primary index, secondary indexes, memberships and counts say the same. -/
structure Exact (c : Contents) : Prop where
  /-- The record in a slot has the position of the slot. -/
  position : ∀ (i : Nat) (r : Record), c.slots[i]? = some (some r) → r.position = i
  keys_differ : c.keys.Nodup
  /-- The primary index is a map from exactly the keys of the records to their positions. -/
  primary_ascends : (SortedMap.names c.catalog.primary).Pairwise (· < ·)
  primary : ∀ key p, (key, p) ∈ c.catalog.primary ↔ ∃ r ∈ c.live, r.key = key ∧ r.position = p
  /-- Each index is declared once, under the signature of its fields. -/
  signatures_ascend : c.catalog.signatures.Pairwise (· < ·)
  signature : ∀ e ∈ c.catalog.secondary, e.1 = e.2.signature
  /-- A bucket holds the positions of its records in ascending order. -/
  bucket : ∀ e ∈ c.catalog.secondary, ∀ b, e.2.lookup b =
    (c.live.filter fun r => e.2.bucketOf r.fields = b).map (·.position)
  bucket_ascends : ∀ e ∈ c.catalog.secondary, ∀ b, (e.2.lookup b).Pairwise (· < ·)
  bucket_filled : ∀ e ∈ c.catalog.secondary, ∀ d ∈ e.2.buckets, d.2 ≠ []
  buckets_ascend : ∀ e ∈ c.catalog.secondary, (SortedMap.names e.2.buckets).Pairwise (· < ·)
  count : ∀ e ∈ c.catalog.secondary, e.2.count = c.live.length
  /-- A record knows its bucket in each index, in the order of signatures. -/
  memberships : ∀ r ∈ c.live, r.memberships =
    c.catalog.secondary.map fun e => (e.1, e.2.bucketOf r.fields)
  /-- The empty slots are counted, so the size is the number of records. -/
  holes : c.holes = c.slots.countP Option.isNone
  size : c.size = c.live.length

variable {c : Contents}

theorem slotAt_position (h : c.Consistent) {r : Record} (hr : r ∈ c.live) :
    slotAt c.slots r.position = some r := by
  obtain ⟨p, hp⟩ := (mem_live c r).mp hr
  rw [h.reflects.files.position p r hp]
  exact hp

theorem slotAt_eq_some_iff (h : c.Consistent) (p : Nat) (r : Record) :
    slotAt c.slots p = some r ↔ r ∈ c.live ∧ r.position = p := by
  constructor
  · intro hp
    exact ⟨(mem_live c r).mpr ⟨p, hp⟩, h.reflects.files.position p r hp⟩
  · rintro ⟨hr, rfl⟩
    exact slotAt_position h hr

/-- The positions of the records that satisfy a test ascend. -/
theorem filter_positions_ascend (h : c.Consistent) (test : Record → Bool) :
    ((c.live.filter test).map (·.position)).Pairwise (· < ·) := by
  rw [List.pairwise_map]
  exact h.positions_ascend.filter _

theorem Consistent.lookup_eq (h : c.Consistent) {e : String × SecondaryIndex}
    (he : e ∈ c.catalog.secondary) (b : String) : e.2.lookup b =
      (c.live.filter fun r => e.2.bucketOf r.fields = b).map (·.position) := by
  have hholds := h.reflects.files.holds e he
  refine SecondaryIndex.eq_of_mem_iff
    (SecondaryIndex.lookup_ascending hholds.wellFormed.ascending b)
    (filter_positions_ascend h _) fun p => ?_
  rw [hholds.mem_lookup]
  simp only [List.mem_map, List.mem_filter, decide_eq_true_eq]
  constructor
  · rintro ⟨f, hf, hb⟩
    obtain ⟨r, hr, rfl⟩ := Option.map_eq_some_iff.mp hf
    obtain ⟨hlive, hp⟩ := (slotAt_eq_some_iff h p r).mp hr
    exact ⟨r, ⟨hlive, hb⟩, hp⟩
  · rintro ⟨r, ⟨hlive, hb⟩, rfl⟩
    exact ⟨r.fields, by rw [slotAt_position h hlive, Option.map_some], hb⟩

theorem Consistent.index_count (h : c.Consistent) {e : String × SecondaryIndex}
    (he : e ∈ c.catalog.secondary) : e.2.count = c.live.length := by
  have hpositions : (c.live.map (·.position)).Nodup := by
    unfold List.Nodup
    rw [List.pairwise_map]
    exact h.positions_ascend.imp ne_of_lt
  rw [(h.reflects.files.holds e he).count_eq hpositions, List.length_map]
  intro p
  rw [List.mem_map]
  constructor
  · rintro ⟨r, hr, rfl⟩
    exact ⟨r.fields, by rw [slotAt_position h hr, Option.map_some]⟩
  · rintro ⟨f, hf⟩
    obtain ⟨r, hr, -⟩ := Option.map_eq_some_iff.mp hf
    obtain ⟨hlive, hp⟩ := (slotAt_eq_some_iff h p r).mp hr
    exact ⟨r, hlive, hp⟩

/-- The relation between indexes and slots that operations keep gives exactness. -/
theorem Consistent.exact (h : c.Consistent) : c.Exact where
  position i r hr := h.reflects.files.position i r (by
    unfold slotAt
    rw [hr, Option.join_some])
  keys_differ := h.keys_nodup
  primary_ascends := SortedMap.sorted_names h.reflects.keys.sorted
  primary key p := by
    rw [← SortedMap.get?_eq_some_iff h.reflects.keys.sorted]
    change c.catalog.position? key = some p ↔ _
    rw [h.reflects.keys.position?_iff]
    constructor
    · rintro ⟨r, hr, hkey⟩
      obtain ⟨hlive, hp⟩ := (slotAt_eq_some_iff h p r).mp hr
      exact ⟨r, hlive, hkey, hp⟩
    · rintro ⟨r, hlive, hkey, hp⟩
      exact ⟨r, (slotAt_eq_some_iff h p r).mpr ⟨hlive, hp⟩, hkey⟩
  signatures_ascend := SortedMap.sorted_names h.reflects.files.declared.sorted
  signature e he := (h.reflects.files.declared.declared e he).1
  bucket _ he b := h.lookup_eq he b
  bucket_ascends e he b :=
    SecondaryIndex.lookup_ascending (h.reflects.files.holds e he).wellFormed.ascending b
  bucket_filled e he := (h.reflects.files.holds e he).wellFormed.nonempty
  buckets_ascend e he := SortedMap.sorted_names (h.reflects.files.holds e he).wellFormed.sorted
  count _ he := h.index_count he
  memberships r hr := by
    obtain ⟨p, hp⟩ := (mem_live c r).mp hr
    exact h.reflects.files.memberships p r hp
  holes := h.counted
  size := h.size_eq

/-! ### Checks -/

theorem Consistent.intact (h : c.Consistent) : c.catalog.Intact :=
  ⟨h.reflects.keys.sorted, fun e he => (h.reflects.files.holds e he).wellFormed⟩

theorem Consistent.describes (h : c.Consistent) : c.catalog.Describes c.slots where
  position := h.exact.position
  primary := by
    have hprimary : c.catalog.primary.Nodup := h.reflects.keys.sorted.imp fun hlt heq =>
      ne_of_lt hlt (congrArg Prod.fst heq)
    refine (List.perm_ext_iff_of_nodup hprimary
      (Catalog.nodup_map_positions h.positions_ascend _)).mpr ?_
    rintro ⟨key, p⟩
    rw [h.exact.primary, List.mem_map]
    simp only [Prod.mk.injEq]
  secondary e he := by
    have hformed := h.intact.indexes e he
    refine (List.perm_ext_iff_of_nodup
      (SecondaryIndex.entries_nodup hformed.sorted hformed.ascending)
      (Catalog.nodup_map_positions h.positions_ascend _)).mpr ?_
    rintro ⟨b, p⟩
    rw [SecondaryIndex.mem_entries hformed.sorted, h.lookup_eq he b, List.mem_map, List.mem_map]
    simp only [List.mem_filter, decide_eq_true_eq, Prod.mk.injEq, and_assoc]

/-- A check of consistent contents finds nothing. -/
theorem Consistent.problems_eq_nil (h : c.Consistent) : c.problems = [] :=
  (h.intact.problems_eq_nil_iff c.slots).mpr h.describes

end IndexedStore.Contents
