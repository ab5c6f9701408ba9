import IndexedStore.Proofs.Delimited
import IndexedStore.Proofs.Recency
import IndexedStore.Proofs.Runs
import IndexedStore.Store.Inspection

/-!
Inspections agree with the indexes. The fields of an index are found again in its signature, and
the buckets that the records then come to are those that the index has, none of them twice and none
of them empty.
-/
namespace IndexedStore

/-- The names of an index are what its signature is taken apart into. -/
theorem Catalog.Canonical.names_eq {names : List String} (h : Canonical names) :
    (Text.splitAt Bucket.separator (Bucket.signature names).toList).map String.ofList = names := by
  have hplain : ∀ piece ∈ names.map String.toList, Bucket.separator ∉ piece := by
    intro piece hpiece
    obtain ⟨name, hname, rfl⟩ := List.mem_map.mp hpiece
    exact (h.plain name hname).2
  unfold Bucket.signature Bucket.joined
  rw [String.toList_ofList, Delimited.splitAt_joined (by simpa using h.ne_nil) hplain,
    List.map_map]
  exact (List.map_congr_left fun name _ => String.ofList_toList).trans (List.map_id names)

namespace Contents

variable {c : Contents} {e : String × SecondaryIndex}

/-- The buckets of an index are those that records belong to. -/
theorem Consistent.mem_buckets (h : c.Consistent) (he : e ∈ c.catalog.secondary) (b : String) :
    b ∈ SortedMap.names e.2.buckets ↔ ∃ r ∈ c.live, e.2.bucketOf r.fields = b := by
  have hformed := h.intact.indexes e he
  rw [hformed.mem_names, h.lookup_eq he, ne_eq, List.map_eq_nil_iff, List.filter_eq_nil_iff]
  simp

/-- Counting the buckets of the records anew gives the number of buckets of the index. -/
theorem Consistent.bucketCount_eq (h : c.Consistent) (he : e ∈ c.catalog.secondary) :
    Inspection.bucketCount e.1 c.snapshots = e.2.bucketCount := by
  obtain ⟨hsignature, hcanonical⟩ := h.reflects.files.declared.declared e he
  have hbuckets : (SortedMap.names e.2.buckets).Nodup :=
    (h.exact.buckets_ascend e he).imp ne_of_lt
  have hperm : (c.snapshots.map fun r => e.2.bucketOf r.fields).eraseDups.Perm
      (SortedMap.names e.2.buckets) := by
    refine (List.perm_ext_iff_of_nodup (Lru.nodup_eraseDups _) hbuckets).mpr fun b => ?_
    rw [List.mem_eraseDups, h.mem_buckets he]
    unfold snapshots
    rw [List.map_map, List.mem_map]
    rfl
  unfold Inspection.bucketCount
  rw [hsignature, SecondaryIndex.signature, hcanonical.names_eq]
  exact hperm.length_eq.trans (List.length_map _)

end Contents

namespace Store

variable {s : Store}

/-- After any operations, in any worlds, an inspection finds all records, has for each declared
index as many buckets as the index itself, and no problems. -/
theorem ofStore_after_operations (hs : s.Fresh) (steps : List (World × Operation)) (w : World) :
    let t := s.after steps
    (t.get w .all).result = .ok t.contents.snapshots ∧
    (Inspection.ofStore t).indexes =
      t.contents.catalog.secondary.map (fun e => (e.1, e.2.bucketCount)) ∧
    (Inspection.ofStore t).records = t.contents.snapshots.length ∧
    (Inspection.ofStore t).problems = [] := by
  intro t
  have hsound : t.Sound := hs.sound.1.after steps
  have hconsistent := hsound.consistent
  refine ⟨(get_alike hsound.usable .all).1, ?_, ?_, hconsistent.problems_eq_nil⟩
  · change (t.contents.catalog.secondary.map Prod.fst).map _ = _
    rw [List.map_map]
    exact List.map_congr_left fun e he => congrArg (Prod.mk e.1) (hconsistent.bucketCount_eq he)
  · exact hconsistent.exact.size.trans (List.length_map _).symm

theorem ofStore_after_gapClosed :
    plain.Fresh ∧ (Inspection.ofStore (plain.after gapClosed)).indexes = [("city", 1)] ∧
      (Inspection.ofStore (plain.after gapClosed)).problems = [] := by
  obtain ⟨-, hindexes, -, hproblems⟩ := ofStore_after_operations plain_fresh gapClosed .bare
  have hheld : (plain.after gapClosed).contents.catalog.secondary.map
      (fun e => (e.1, e.2.bucketCount)) = [("city", 1)] := rfl
  exact ⟨plain_fresh, hindexes.trans hheld, hproblems⟩

end Store
end IndexedStore
