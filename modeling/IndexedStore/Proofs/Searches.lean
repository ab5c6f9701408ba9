import IndexedStore.Index.Search
import IndexedStore.Proofs.SecondaryIndex

/-!
Searches against walks through a bucket. In an ascending list a position has one place, and halving
finds it. So it makes no difference to a well-formed index how the places in its buckets are found.
-/
namespace IndexedStore

/-! ### Places -/

/-- What the place of a position in a list means: the position stands there, or it fits in between
the smaller ones before that place and the greater ones from it on. -/
inductive Located (position : Nat) : List Nat → Place → Prop where
  | found (before after : List Nat) :
    Located position (before ++ position :: after) (.found before.length)
  | vacant (before after : List Nat) (hbefore : ∀ q ∈ before, q < position)
    (hafter : ∀ q ∈ after, position < q) :
    Located position (before ++ after) (.vacant before.length)

def Finder.Reliable (find : Finder) : Prop :=
  ∀ (positions : List Nat) (position : Nat), positions.Pairwise (· < ·) →
    Located position positions (find positions position)

namespace Located

variable {positions : List Nat} {position offset : Nat}

theorem mem (h : Located position positions (.found offset)) : position ∈ positions := by
  cases h with
  | found before after => exact List.mem_append_right _ List.mem_cons_self

theorem not_mem (h : Located position positions (.vacant offset)) : position ∉ positions := by
  cases h with
  | vacant before after hbefore hafter =>
    intro hmem
    rcases List.mem_append.mp hmem with hmem | hmem
    · exact lt_irrefl _ (hbefore _ hmem)
    · exact lt_irrefl _ (hafter _ hmem)

theorem insertIdx_eq (h : Located position positions (.vacant offset)) :
    positions.insertIdx offset position = SecondaryIndex.insertAscending position positions := by
  cases h with
  | vacant before after hbefore hafter =>
    induction before with
    | nil =>
      cases after with
      | nil => rfl
      | cons a after => exact (if_pos (hafter a List.mem_cons_self)).symm
    | cons a before ih =>
      obtain ⟨ha, hrest⟩ := List.forall_mem_cons.mp hbefore
      rw [List.cons_append, List.length_cons, List.insertIdx_succ_cons, ih hrest,
        SecondaryIndex.insertAscending, if_neg ha.not_gt, if_neg ha.ne']

theorem eraseIdx_eq (h : Located position positions (.found offset))
    (hpositions : positions.Pairwise (· < ·)) :
    positions.eraseIdx offset = positions.erase position := by
  cases h with
  | found before after =>
    have hnew : position ∉ before := fun hmem =>
      lt_irrefl _ ((List.pairwise_append.mp hpositions).2.2 _ hmem _ List.mem_cons_self)
    rw [List.eraseIdx_append_of_length_le le_rfl, Nat.sub_self, List.eraseIdx_cons_zero,
      List.erase_append_right _ hnew, List.erase_cons_head]

end Located

namespace Place

variable {positions : List Nat} {position low high : Nat}

/-- What stands before an offset of an ascending list is smaller than what stands there, and what
stands behind it is greater. -/
theorem around_of_ascending (h : positions.Pairwise (· < ·)) {offset : Nat}
    (hoffset : offset < positions.length) :
    (∀ q ∈ positions.take offset, q < positions[offset]) ∧
      ∀ q ∈ positions.drop (offset + 1), positions[offset] < q := by
  have hsplit : positions.take offset ++ positions[offset] :: positions.drop (offset + 1) =
      positions := by
    rw [List.getElem_cons_drop, List.take_append_drop]
  rw [← hsplit, List.pairwise_append, List.pairwise_cons] at h
  obtain ⟨-, ⟨hbehind, -⟩, hbefore⟩ := h
  exact ⟨fun q hq => hbefore q hq _ List.mem_cons_self, hbehind⟩

theorem located_found {offset : Nat} (hoffset : offset < positions.length)
    (hthere : positions[offset] = position) : Located position positions (.found offset) := by
  subst hthere
  have hlocated : Located positions[offset] _ _ :=
    .found (positions.take offset) (positions.drop (offset + 1))
  rwa [List.getElem_cons_drop, List.take_append_drop, List.length_take,
    Nat.min_eq_left hoffset.le] at hlocated

theorem located_vacant {offset : Nat} (hoffset : offset ≤ positions.length)
    (hbefore : ∀ q ∈ positions.take offset, q < position)
    (hafter : ∀ q ∈ positions.drop offset, position < q) :
    Located position positions (.vacant offset) := by
  have hlocated := Located.vacant _ _ hbefore hafter
  rwa [List.take_append_drop, List.length_take, Nat.min_eq_left hoffset] at hlocated

/-- Halving keeps what is smaller before the part that is left and what is greater behind it. -/
theorem located_between (h : positions.Pairwise (· < ·)) (hle : low ≤ high)
    (hhigh : high ≤ positions.length) (hbefore : ∀ q ∈ positions.take low, q < position)
    (hafter : ∀ q ∈ positions.drop high, position < q) :
    Located position positions (between positions position low high hhigh) := by
  fun_induction between positions position low high hhigh with
  | case1 low high hhigh hlow middle hcompare ih =>
    have hmiddle : middle < positions.length := by omega
    have hless : positions[middle] < position := Nat.compare_eq_lt.mp hcompare
    refine ih (by omega) (fun q hq => ?_) hafter
    rw [List.take_succ_eq_append_getElem hmiddle, List.mem_append, List.mem_singleton] at hq
    rcases hq with hq | rfl
    · exact ((around_of_ascending h hmiddle).1 q hq).trans hless
    · exact hless
  | case2 low high hhigh hlow middle hcompare =>
    exact located_found (by omega) (Nat.compare_eq_eq.mp hcompare)
  | case3 low high hhigh hlow middle hcompare ih =>
    have hmiddle : middle < positions.length := by omega
    have hgreater : position < positions[middle] := Nat.compare_eq_gt.mp hcompare
    refine ih (by omega) hbefore fun q hq => ?_
    rw [← List.getElem_cons_drop hmiddle, List.mem_cons] at hq
    rcases hq with rfl | hq
    · exact hgreater
    · exact hgreater.trans ((around_of_ascending h hmiddle).2 q hq)
  | case4 low high hhigh hlow =>
    obtain rfl : low = high := by omega
    exact located_vacant hhigh hbefore hafter

end Place

theorem Finder.reliable_halving : Finder.halving.Reliable := fun positions position h =>
  Place.located_between h (Nat.zero_le _) le_rfl (by simp) (by simp)

namespace SecondaryIndex

/-! ### Indexes with searches -/

section Searched

variable {find : Finder} {ix : SecondaryIndex}

theorem containsBy_eq (hfind : find.Reliable) (h : ix.WellFormed) (b : String) (p : Nat) :
    ix.containsBy find b p = ix.contains b p := by
  have hlocated := hfind _ p (lookup_ascending h.ascending b)
  unfold containsBy
  cases hplace : find (ix.lookup b) p with
  | found offset =>
    rw [hplace] at hlocated
    exact ((contains_iff ix b p).mpr hlocated.mem).symm
  | vacant offset =>
    rw [hplace] at hlocated
    exact (Bool.eq_false_iff.mpr (mt (contains_iff ix b p).mp hlocated.not_mem)).symm

theorem insertBy_eq (hfind : find.Reliable) (h : ix.WellFormed) (b : String) (p : Nat) :
    ix.insertBy find b p = ix.insert b p := by
  have hlocated := hfind _ p (lookup_ascending h.ascending b)
  have hcontains := containsBy_eq hfind h b p
  unfold containsBy at hcontains
  unfold insertBy insert
  cases hplace : find (ix.lookup b) p with
  | found offset =>
    rw [hplace] at hcontains
    rw [← hcontains]
    rfl
  | vacant offset =>
    rw [hplace] at hcontains hlocated
    rw [← hcontains, ← hlocated.insertIdx_eq]
    rfl

theorem removeBy_eq (hfind : find.Reliable) (h : ix.WellFormed) (b : String) (p : Nat) :
    ix.removeBy find b p = ix.remove b p := by
  have hascending := lookup_ascending h.ascending b
  have hlocated := hfind _ p hascending
  have hcontains := containsBy_eq hfind h b p
  unfold containsBy at hcontains
  unfold removeBy remove
  cases hplace : find (ix.lookup b) p with
  | found offset =>
    rw [hplace] at hcontains hlocated
    rw [← hcontains, ← hlocated.eraseIdx_eq hascending]
    rfl
  | vacant offset =>
    rw [hplace] at hcontains
    rw [← hcontains]
    rfl

theorem repositionBy_eq (hfind : find.Reliable) (h : ix.WellFormed) (b : String)
    (source target : Nat) : ix.repositionBy find b source target = ix.reposition b source target := by
  have hremoved := wellFormed_remove h b source
  unfold repositionBy reposition
  rw [removeBy_eq hfind h]
  cases hleft : ix.remove b source with
  | mk removed left =>
    rw [hleft] at hremoved
    cases removed with
    | true => exact insertBy_eq hfind hremoved b target
    | false => rfl

end Searched

end SecondaryIndex
end IndexedStore
