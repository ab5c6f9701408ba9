import Mathlib.Data.List.Nodup
import IndexedStore.Index.Secondary
import IndexedStore.Proofs.SortedMap

/-!
A secondary index as a set of pairs of a bucket and a position. Filing adds a pair, taking out
removes one, and moving replaces one by another. All of them keep the buckets ascending and
filled and the count true, and a bucket is determined by the positions in it.
-/
namespace IndexedStore.SecondaryIndex

def entries (ix : SecondaryIndex) : List (String × Nat) :=
  ix.buckets.flatMap fun e => e.2.map fun p => (e.1, p)

/-- Names of buckets and positions in buckets ascend, no bucket is empty, and the count is the
number of pairs. -/
structure WellFormed (ix : SecondaryIndex) : Prop where
  sorted : SortedMap.Sorted ix.buckets
  ascending : ∀ e ∈ ix.buckets, e.2.Pairwise (· < ·)
  nonempty : ∀ e ∈ ix.buckets, e.2 ≠ []
  counted : ix.count = ix.entries.length

/-! ### Positions in a bucket -/

theorem mem_insertAscending (p q : Nat) (l : List Nat) :
    q ∈ insertAscending p l ↔ q = p ∨ q ∈ l := by
  induction l with
  | nil => simp [insertAscending]
  | cons a l ih =>
    unfold insertAscending
    split_ifs with hlt heq
    · simp
    · subst heq
      simp
    · simp only [List.mem_cons, ih]
      tauto

theorem pairwise_insertAscending (p : Nat) {l : List Nat} (h : l.Pairwise (· < ·)) :
    (insertAscending p l).Pairwise (· < ·) := by
  induction l with
  | nil => exact List.pairwise_singleton _ _
  | cons a l ih =>
    obtain ⟨hhead, htail⟩ := List.pairwise_cons.mp h
    unfold insertAscending
    split_ifs with hlt heq
    · refine List.pairwise_cons.mpr ⟨fun q hq => ?_, h⟩
      rcases List.mem_cons.mp hq with rfl | hq
      · exact hlt
      · exact lt_trans hlt (hhead q hq)
    · exact h
    · refine List.pairwise_cons.mpr ⟨fun q hq => ?_, ih htail⟩
      rcases (mem_insertAscending p q l).mp hq with rfl | hq
      · omega
      · exact hhead q hq

/-- Ascending lists with the same members are the same list. -/
theorem eq_of_mem_iff {α : Type} [Preorder α] {l l' : List α} (hl : l.Pairwise (· < ·))
    (hl' : l'.Pairwise (· < ·)) (h : ∀ p, p ∈ l ↔ p ∈ l') : l = l' := by
  refine List.Perm.eq_of_pairwise (fun a b _ _ hab hba => absurd hab (lt_asymm hba)) hl hl' ?_
  exact (List.perm_ext_iff_of_nodup (hl.imp ne_of_lt) (hl'.imp ne_of_lt)).mpr h

theorem contains_iff (ix : SecondaryIndex) (b : String) (p : Nat) :
    ix.contains b p = true ↔ p ∈ ix.lookup b := by
  unfold contains
  exact List.contains_iff_mem

theorem lookup_eq_of_get? {ix : SecondaryIndex} {b : String} {ps : List Nat}
    (h : SortedMap.get? ix.buckets b = some ps) : ix.lookup b = ps := by
  unfold lookup
  rw [h, Option.getD_some]

theorem lookup_ascending {ix : SecondaryIndex} (h : ∀ e ∈ ix.buckets, e.2.Pairwise (· < ·))
    (b : String) : (ix.lookup b).Pairwise (· < ·) := by
  cases hget : SortedMap.get? ix.buckets b with
  | none => simp [lookup, hget]
  | some ps =>
    rw [lookup_eq_of_get? hget]
    exact h (b, ps) (SortedMap.mem_of_get? hget)

/-! ### The pairs of an index -/

theorem mem_entries {ix : SecondaryIndex} (h : SortedMap.Sorted ix.buckets) (b : String)
    (p : Nat) : (b, p) ∈ ix.entries ↔ p ∈ ix.lookup b := by
  unfold entries
  simp only [List.mem_flatMap, List.mem_map, Prod.mk.injEq]
  constructor
  · rintro ⟨⟨b', ps⟩, hmem, q, hq, rfl, rfl⟩
    rwa [lookup_eq_of_get? ((SortedMap.get?_eq_some_iff h b' ps).mpr hmem)]
  · intro hp
    cases hget : SortedMap.get? ix.buckets b with
    | none => simp [lookup, hget] at hp
    | some ps =>
      rw [lookup_eq_of_get? hget] at hp
      exact ⟨(b, ps), SortedMap.mem_of_get? hget, p, hp, rfl, rfl⟩

theorem entries_nodup {ix : SecondaryIndex} (hs : SortedMap.Sorted ix.buckets)
    (ha : ∀ e ∈ ix.buckets, e.2.Pairwise (· < ·)) : ix.entries.Nodup := by
  unfold entries
  rw [List.nodup_flatMap]
  constructor
  · intro e he
    refine List.Nodup.map ?_ ((ha e he).imp ne_of_lt)
    intro p q hpq
    exact (Prod.mk.inj hpq).2
  · refine hs.imp ?_
    rintro e e' hlt ⟨b, p⟩ hb hb'
    obtain ⟨q, -, hq⟩ := List.mem_map.mp hb
    obtain ⟨q', -, hq'⟩ := List.mem_map.mp hb'
    have hname : e.1 = e'.1 := (Prod.mk.inj (hq.trans hq'.symm)).1
    exact absurd hlt (by rw [hname]; exact lt_irrefl _)

/-- Any list that names each pair of an index once is as long as the count. -/
theorem WellFormed.count_eq {ix : SecondaryIndex} (h : ix.WellFormed) {l : List (String × Nat)}
    (hl : l.Nodup) (hmem : ∀ b p, (b, p) ∈ l ↔ p ∈ ix.lookup b) : ix.count = l.length := by
  rw [h.counted]
  refine List.Perm.length_eq ((List.perm_ext_iff_of_nodup
    (entries_nodup h.sorted h.ascending) hl).mpr ?_)
  rintro ⟨b, p⟩
  rw [mem_entries h.sorted, hmem]

/-- Only the buckets that are looked up empty are left out. -/
theorem WellFormed.get?_buckets {ix : SecondaryIndex} (h : ix.WellFormed) (b : String) :
    SortedMap.get? ix.buckets b = if ix.lookup b = [] then none else some (ix.lookup b) := by
  cases hget : SortedMap.get? ix.buckets b with
  | none =>
    have hlookup : ix.lookup b = [] := by
      unfold lookup
      rw [hget, Option.getD_none]
    rw [if_pos hlookup]
  | some positions =>
    have hsome := h.nonempty (b, positions) (SortedMap.mem_of_get? hget)
    rw [lookup_eq_of_get? hget, if_neg hsome]

theorem WellFormed.mem_names {ix : SecondaryIndex} (h : ix.WellFormed) (b : String) :
    b ∈ SortedMap.names ix.buckets ↔ ix.lookup b ≠ [] := by
  rw [SortedMap.mem_names, h.get?_buckets]
  split_ifs with hempty <;> simp [hempty]

/-- Indexes over the same fields with the same pairs are the same index. -/
theorem WellFormed.determined {ix ix' : SecondaryIndex} (h : ix.WellFormed) (h' : ix'.WellFormed)
    (hfields : ix'.fields = ix.fields) (hpairs : ∀ b p, p ∈ ix'.lookup b ↔ p ∈ ix.lookup b) :
    ix' = ix := by
  have hlookup : ∀ b, ix'.lookup b = ix.lookup b := fun b =>
    eq_of_mem_iff (lookup_ascending h'.ascending b) (lookup_ascending h.ascending b) (hpairs b)
  have hbuckets : ix'.buckets = ix.buckets := by
    apply SortedMap.ext_get? h'.sorted h.sorted
    intro b
    rw [h.get?_buckets, h'.get?_buckets, hlookup]
  have hcount : ix'.count = ix.count := by
    rw [h.counted, h'.counted]
    unfold entries
    rw [hbuckets]
  obtain ⟨fields, buckets, count⟩ := ix
  obtain ⟨fields', buckets', count'⟩ := ix'
  subst hfields hbuckets hcount
  rfl

/-! ### The empty index -/

theorem wellFormed_empty (fields : List String) : (empty fields).WellFormed :=
  ⟨SortedMap.sorted_nil, by simp [empty], by simp [empty], rfl⟩

@[simp] theorem lookup_empty (fields : List String) (b : String) :
    (empty fields).lookup b = [] := rfl

/-! ### Filing -/

@[simp] theorem fields_insert (ix : SecondaryIndex) (b : String) (p : Nat) :
    (ix.insert b p).2.fields = ix.fields := by
  unfold insert
  split_ifs <;> rfl

theorem lookup_insert (ix : SecondaryIndex) (b b' : String) (p : Nat)
    (h : ix.contains b p = false) :
    (ix.insert b p).2.lookup b' =
      if b' = b then insertAscending p (ix.lookup b) else ix.lookup b' := by
  unfold insert
  simp only [h, Bool.false_eq_true, if_false]
  unfold lookup
  rw [SortedMap.get?_insert]
  split_ifs <;> rfl

theorem mem_lookup_insert (ix : SecondaryIndex) (b b' : String) (p q : Nat) :
    q ∈ (ix.insert b p).2.lookup b' ↔ (b' = b ∧ q = p) ∨ q ∈ ix.lookup b' := by
  cases h : ix.contains b p with
  | true =>
    have hmem := (contains_iff ix b p).mp h
    simp only [insert, h, if_true]
    constructor
    · exact Or.inr
    · rintro (⟨rfl, rfl⟩ | hq)
      · exact hmem
      · exact hq
  | false =>
    rw [lookup_insert ix b b' p h]
    split_ifs with hb
    · subst hb
      simp [mem_insertAscending]
    · simp [hb]

theorem wellFormed_insert {ix : SecondaryIndex} (h : ix.WellFormed) (b : String) (p : Nat) :
    (ix.insert b p).2.WellFormed := by
  cases hc : ix.contains b p with
  | true => simpa only [insert, hc, if_true] using h
  | false =>
    have hbuckets : (ix.insert b p).2.buckets =
        SortedMap.insert ix.buckets b (insertAscending p (ix.lookup b)) := by
      simp [insert, hc]
    have hcount : (ix.insert b p).2.count = ix.count + 1 := by simp [insert, hc]
    have hnew : insertAscending p (ix.lookup b) ≠ [] :=
      List.ne_nil_of_mem ((mem_insertAscending p p (ix.lookup b)).mpr (Or.inl rfl))
    have hsorted : SortedMap.Sorted (ix.insert b p).2.buckets := by
      rw [hbuckets]
      exact SortedMap.sorted_insert _ _ h.sorted
    have hascending : ∀ e ∈ (ix.insert b p).2.buckets, e.2.Pairwise (· < ·) := by
      rw [hbuckets]
      intro e he
      rcases SortedMap.mem_insert he with rfl | he
      · exact pairwise_insertAscending p (lookup_ascending h.ascending b)
      · exact h.ascending e he
    refine ⟨hsorted, hascending, ?_, ?_⟩
    · rw [hbuckets]
      intro e he
      rcases SortedMap.mem_insert he with rfl | he
      · exact hnew
      · exact h.nonempty e he
    · have hfresh : (b, p) ∉ ix.entries := by
        rw [mem_entries h.sorted, ← contains_iff, hc]
        simp
      rw [hcount, h.counted, ← List.length_cons (a := (b, p))]
      refine List.Perm.length_eq ((List.perm_ext_iff_of_nodup (List.nodup_cons.mpr
        ⟨hfresh, entries_nodup h.sorted h.ascending⟩) (entries_nodup hsorted hascending)).mpr ?_)
      rintro ⟨b', q⟩
      rw [List.mem_cons, mem_entries hsorted, mem_entries h.sorted, mem_lookup_insert,
        Prod.mk.injEq]

/-! ### Taking out -/

@[simp] theorem fields_remove (ix : SecondaryIndex) (b : String) (p : Nat) :
    (ix.remove b p).2.fields = ix.fields := by
  unfold remove
  split_ifs <;> rfl

theorem mem_erase_ascending {l : List Nat} (h : l.Pairwise (· < ·)) (p q : Nat) :
    q ∈ l.erase p ↔ q ∈ l ∧ q ≠ p := by
  rw [List.Nodup.mem_erase_iff (h.imp ne_of_lt)]
  exact and_comm

theorem lookup_remove (ix : SecondaryIndex) (b b' : String) (p : Nat)
    (h : ix.contains b p = true) :
    (ix.remove b p).2.lookup b' = if b' = b then (ix.lookup b).erase p else ix.lookup b' := by
  unfold remove
  simp only [h, if_true]
  unfold lookup
  by_cases hempty : ((SortedMap.get? ix.buckets b).getD []).erase p = []
  · simp only [hempty, List.isEmpty_nil, if_true, SortedMap.get?_erase]
    split_ifs <;> rfl
  · simp only [List.isEmpty_iff, hempty, if_false, SortedMap.get?_insert]
    split_ifs <;> rfl

theorem mem_lookup_remove {ix : SecondaryIndex} (h : ix.WellFormed) (b b' : String)
    (p q : Nat) :
    q ∈ (ix.remove b p).2.lookup b' ↔ q ∈ ix.lookup b' ∧ ¬ (b' = b ∧ q = p) := by
  cases hc : ix.contains b p with
  | true =>
    rw [lookup_remove ix b b' p hc]
    split_ifs with hb
    · subst hb
      rw [mem_erase_ascending (lookup_ascending h.ascending b')]
      simp
    · simp [hb]
  | false =>
    simp only [remove, hc, Bool.false_eq_true, if_false]
    constructor
    · intro hq
      refine ⟨hq, ?_⟩
      rintro ⟨rfl, rfl⟩
      rw [(contains_iff ix b' q).mpr hq] at hc
      exact absurd hc (by decide)
    · exact And.left

theorem wellFormed_remove {ix : SecondaryIndex} (h : ix.WellFormed) (b : String) (p : Nat) :
    (ix.remove b p).2.WellFormed := by
  cases hc : ix.contains b p with
  | false => simpa only [remove, hc, Bool.false_eq_true, if_false] using h
  | true =>
    have hmem : p ∈ ix.lookup b := (contains_iff ix b p).mp hc
    have hcount : (ix.remove b p).2.count = ix.count - 1 := by simp [remove, hc]
    -- Every bucket that is left is an old one, or the old bucket without the position.
    have hleft : ∀ e ∈ (ix.remove b p).2.buckets,
        e ∈ ix.buckets ∨ (e.2 = (ix.lookup b).erase p ∧ e.2 ≠ []) := by
      intro e he
      simp only [remove, hc, if_true] at he
      split_ifs at he with hempty
      · exact Or.inl (List.mem_filter.mp he).1
      · rcases SortedMap.mem_insert he with rfl | he
        · exact Or.inr ⟨rfl, by simpa using hempty⟩
        · exact Or.inl he
    have hsorted : SortedMap.Sorted (ix.remove b p).2.buckets := by
      simp only [remove, hc, if_true]
      split_ifs
      · exact SortedMap.sorted_erase _ h.sorted
      · exact SortedMap.sorted_insert _ _ h.sorted
    have hascending : ∀ e ∈ (ix.remove b p).2.buckets, e.2.Pairwise (· < ·) := by
      intro e he
      rcases hleft e he with he | ⟨he, -⟩
      · exact h.ascending e he
      · rw [he]
        exact (lookup_ascending h.ascending b).sublist List.erase_sublist
    refine ⟨hsorted, hascending, ?_, ?_⟩
    · intro e he
      rcases hleft e he with he | ⟨-, he⟩
      · exact h.nonempty e he
      · exact he
    · have hgone : (b, p) ∉ (ix.remove b p).2.entries := by
        rw [mem_entries hsorted, mem_lookup_remove h]
        simp
      have hperm : ix.entries.Perm ((b, p) :: (ix.remove b p).2.entries) := by
        refine (List.perm_ext_iff_of_nodup (entries_nodup h.sorted h.ascending)
          (List.nodup_cons.mpr ⟨hgone, entries_nodup hsorted hascending⟩)).mpr ?_
        rintro ⟨b', q⟩
        rw [List.mem_cons, mem_entries hsorted, mem_entries h.sorted, mem_lookup_remove h,
          Prod.mk.injEq]
        constructor
        · intro hq
          by_cases hbq : b' = b ∧ q = p
          · exact Or.inl hbq
          · exact Or.inr ⟨hq, hbq⟩
        · rintro (⟨rfl, rfl⟩ | ⟨hq, -⟩)
          · exact hmem
          · exact hq
      have hlength := hperm.length_eq
      rw [List.length_cons] at hlength
      rw [hcount, h.counted]
      omega

/-! ### Moving -/

theorem reposition_of_mem {ix : SecondaryIndex} {b : String} {source : Nat}
    (h : source ∈ ix.lookup b) (target : Nat) :
    ix.reposition b source target = (ix.remove b source).2.insert b target := by
  have hc := (contains_iff ix b source).mpr h
  unfold reposition
  have hfirst : (ix.remove b source).1 = true := by simp [remove, hc]
  rw [← Prod.eta (ix.remove b source), hfirst]

theorem wellFormed_reposition {ix : SecondaryIndex} (h : ix.WellFormed) (bucket : String)
    (source target : Nat) : (ix.reposition bucket source target).2.WellFormed := by
  have hremoved := wellFormed_remove h bucket source
  unfold reposition
  split
  · rename_i heq
    rw [heq] at hremoved
    exact wellFormed_insert hremoved bucket target
  · rename_i heq
    rw [heq] at hremoved
    exact hremoved

@[simp] theorem fields_reposition (ix : SecondaryIndex) (b : String) (source target : Nat) :
    (ix.reposition b source target).2.fields = ix.fields := by
  have hremove := fields_remove ix b source
  unfold reposition
  split
  · rename_i hr
    rw [fields_insert, ← hremove, hr]
  · rename_i hr
    rw [← hremove, hr]

end IndexedStore.SecondaryIndex
