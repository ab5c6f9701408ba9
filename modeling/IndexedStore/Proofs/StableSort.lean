import Mathlib.Data.List.Nodup
import Mathlib.Data.List.Pairwise
import Mathlib.Data.List.Perm.Basic

/-!
Stable sorts. The stable sort of a list by a comparison has the same members, in ascending order,
and members that tie with one another stand in it as they stood in the list. There is one such
list, and it can be put together bucket by bucket, when the buckets part the list, come in
ascending order and are each sorted.
-/
namespace IndexedStore

variable {α β : Type} {compare compare' : α → α → Ordering} {l sorted sorted' : List α}

/-- A list is the stable sort of another one: it has the same members, in ascending order, and
keeps the order of those that tie. -/
structure StableSort (compare : α → α → Ordering) (l sorted : List α) : Prop where
  perm : sorted.Perm l
  ascends : sorted.Pairwise fun a b => (compare a b).isLE
  ties : ∀ a ∈ l, sorted.filter (compare a · == .eq) = l.filter (compare a · == .eq)

/-- Of two members one stands before the other one. -/
theorem sublist_or_sublist {a b : α} (ha : a ∈ l) (hb : b ∈ l) (hne : a ≠ b) :
    [a, b].Sublist l ∨ [b, a].Sublist l := by
  obtain ⟨before, behind, rfl⟩ := List.append_of_mem ha
  rcases List.mem_append.mp hb with hbefore | hbehind
  · have hsub := (List.singleton_sublist.mpr hbefore).append
      (List.singleton_sublist.mpr (List.mem_cons_self (a := a) (l := behind)))
    exact Or.inr hsub
  · rcases List.mem_cons.mp hbehind with heq | hbehind
    · exact absurd heq.symm hne
    · have hsub := (List.singleton_sublist.mpr hbehind).cons_cons a
      exact Or.inl (hsub.trans (List.sublist_append_right before _))

namespace StableSort

theorem congr (h : StableSort compare l sorted)
    (hsame : ∀ a ∈ l, ∀ b ∈ l, compare a b = compare' a b) : StableSort compare' l sorted where
  perm := h.perm
  ascends := h.ascends.imp_of_mem fun ha hb hle => by
    rwa [← hsame _ (h.perm.mem_iff.mp ha) _ (h.perm.mem_iff.mp hb)]
  ties a ha := by
    have hfilter : ∀ b ∈ l, (compare' a b == .eq) = (compare a b == .eq) := fun b hb => by
      rw [hsame a ha b hb]
    rw [List.filter_congr hfilter, ← h.ties a ha]
    exact List.filter_congr fun b hb => hfilter b (h.perm.mem_iff.mp hb)

theorem of_length_lt_two (h : l.length < 2) : StableSort compare l l where
  perm := List.Perm.refl l
  ascends := by
    match l, h with
    | [], _ => exact List.Pairwise.nil
    | [a], _ => exact List.pairwise_singleton _ a
  ties _ _ := rfl

/-- Two ascending lists with the same members that agree on ties are the same list. -/
theorem unique [Std.TransCmp compare] (h : StableSort compare l sorted)
    (h' : StableSort compare l sorted') : sorted' = sorted := by
  have hperm : sorted'.Perm sorted := h'.perm.trans h.perm.symm
  have hties : ∀ a ∈ sorted,
      sorted'.filter (compare a · == .eq) = sorted.filter (compare a · == .eq) := by
    intro a ha
    rw [h.ties a (h.perm.mem_iff.mp ha), h'.ties a (h.perm.mem_iff.mp ha)]
  have hascends := h.ascends
  have hascends' := h'.ascends
  clear h h'
  induction sorted generalizing sorted' with
  | nil => exact hperm.eq_nil
  | cons a rest ih =>
    cases sorted' with
    | nil => exact absurd hperm.symm.eq_nil (List.cons_ne_nil a rest)
    | cons b rest' =>
      obtain ⟨ha, hrest⟩ := List.pairwise_cons.mp hascends
      obtain ⟨hb, hrest'⟩ := List.pairwise_cons.mp hascends'
      -- Each head is below the other one, so the two tie and are the first of their ties.
      have hself : compare a a = .eq := Std.ReflCmp.compare_self
      have htie : compare a b = .eq := by
        rcases List.mem_cons.mp (hperm.mem_iff.mp List.mem_cons_self) with rfl | hmem
        · exact hself
        · rcases List.mem_cons.mp (hperm.mem_iff.mpr List.mem_cons_self) with rfl | hmem'
          · exact hself
          · exact Std.OrientedCmp.isLE_antisymm (ha b hmem) (hb a hmem')
      have hheads := hties a List.mem_cons_self
      rw [List.filter_cons_of_pos (by simp [htie]), List.filter_cons_of_pos (by simp [hself])]
        at hheads
      obtain ⟨rfl, -⟩ := List.cons.inj hheads
      congr 1
      apply ih hperm.cons_inv _ hrest hrest'
      intro c hc
      have hboth := hties c (List.mem_cons_of_mem b hc)
      rw [List.filter_cons, List.filter_cons] at hboth
      split_ifs at hboth
      · exact (List.cons.inj hboth).2
      · exact hboth

theorem mergeSort [Std.TransCmp compare] (l : List α) :
    StableSort compare l (l.mergeSort fun a b => (compare a b).isLE) := by
  have htrans : ∀ a b c : α, (compare a b).isLE = true → (compare b c).isLE = true →
      (compare a c).isLE = true := fun _ _ _ => Std.TransCmp.isLE_trans
  have htotal : ∀ a b : α, ((compare a b).isLE || (compare b a).isLE) = true := by
    intro a b
    have hswap : compare b a = (compare a b).swap := Std.OrientedCmp.eq_swap
    rw [hswap]
    cases compare a b <;> rfl
  refine ⟨List.mergeSort_perm _ _, List.pairwise_mergeSort htrans htotal l, fun a _ => ?_⟩
  -- The ties are in order already, so the sort keeps them as a sublist, and it has no others.
  have htied : (l.filter (compare a · == .eq)).Pairwise fun b c => (compare b c).isLE := by
    apply List.pairwise_of_forall_mem_list
    intro b hb c hc
    have hab := beq_iff_eq.mp (List.mem_filter.mp hb).2
    have hac := beq_iff_eq.mp (List.mem_filter.mp hc).2
    rw [← Std.TransCmp.congr_left hab, hac]
    rfl
  have hsub := (List.sublist_mergeSort htrans htotal htied List.filter_sublist).filter
    (compare a · == .eq)
  rw [List.filter_filter] at hsub
  simp only [Bool.and_self] at hsub
  refine (hsub.eq_of_length_le ?_).symm
  exact Nat.le_of_eq ((List.mergeSort_perm l _).filter _).length_eq

/-- A pair stands in the stable sort in the order of the comparison, or else of the list. -/
theorem pair_iff [Std.TransCmp compare] (h : StableSort compare l sorted) {a b : α} (ha : a ∈ l)
    (hb : b ∈ l) : [a, b].Sublist sorted ↔
      compare a b = .lt ∨ (compare a b = .eq ∧ [a, b].Sublist l) := by
  have hself : compare a a = .eq := Std.ReflCmp.compare_self
  have htied : compare a b = .eq → ([a, b].Sublist sorted ↔ [a, b].Sublist l) := by
    intro htie
    have hkept : ∀ l' : List α,
        [a, b].Sublist l' ↔ [a, b].Sublist (l'.filter (compare a · == .eq)) := by
      intro l'
      constructor
      · intro hsub
        have hfiltered := hsub.filter (compare a · == .eq)
        rwa [List.filter_cons_of_pos (by simp [hself]), List.filter_cons_of_pos (by simp [htie]),
          List.filter_nil] at hfiltered
      · exact fun hsub => hsub.trans List.filter_sublist
    rw [hkept sorted, hkept l, h.ties a ha]
  constructor
  · intro hsub
    have hle := List.pairwise_iff_forall_sublist.mp h.ascends hsub
    cases hcompare : compare a b with
    | lt => exact Or.inl rfl
    | eq => exact Or.inr ⟨rfl, (htied hcompare).mp hsub⟩
    | gt =>
      rw [hcompare] at hle
      exact absurd hle (by decide)
  · rintro (hlt | ⟨htie, hsub⟩)
    · have hne : a ≠ b := by
        rintro rfl
        exact absurd (hself.symm.trans hlt) (by decide)
      -- One of the two stands before the other one, and the comparison leaves only one way.
      rcases sublist_or_sublist (h.perm.mem_iff.mpr ha) (h.perm.mem_iff.mpr hb) hne with
        hsub | hsub
      · exact hsub
      · have hle := List.pairwise_iff_forall_sublist.mp h.ascends hsub
        have hswap : compare b a = (compare a b).swap := Std.OrientedCmp.eq_swap
        rw [hswap, hlt] at hle
        exact absurd hle (by decide)
    · exact (htied htie).mpr hsub

end StableSort

/-! ### Buckets -/

section Buckets

variable {bucket : α → β} {buckets : List β} {sort : β → List α}

/-- Buckets in ascending order: the members of an earlier one are below those of a later one. -/
def BucketsAscend (compare : α → α → Ordering) (bucket : α → β) (l : List α)
    (buckets : List β) : Prop :=
  buckets.Pairwise fun b b' =>
    ∀ a ∈ l, ∀ a' ∈ l, bucket a = b → bucket a' = b' → compare a a' = .lt

/-- Members of different buckets do not tie. -/
theorem BucketsAscend.ne_of_ne [Std.OrientedCmp compare]
    (h : BucketsAscend compare bucket l buckets) (hcover : ∀ a ∈ l, bucket a ∈ buckets) {a a' : α}
    (ha : a ∈ l) (ha' : a' ∈ l) (hne : bucket a ≠ bucket a') : compare a a' ≠ .eq := by
  rcases sublist_or_sublist (hcover a ha) (hcover a' ha') hne with hsub | hsub
  · rw [List.pairwise_iff_forall_sublist.mp h hsub a ha a' ha' rfl rfl]
    decide
  · have hswap : compare a a' = (compare a' a).swap := Std.OrientedCmp.eq_swap
    rw [hswap, List.pairwise_iff_forall_sublist.mp h hsub a' ha' a ha rfl rfl]
    decide

/-- When all parts but one are empty, that one is all there is. -/
theorem flatMap_of_forall_ne {part : β → List α} {b : β} (hnodup : buckets.Nodup)
    (hb : b ∈ buckets) (hempty : ∀ b' ∈ buckets, b' ≠ b → part b' = []) :
    buckets.flatMap part = part b := by
  obtain ⟨before, behind, rfl⟩ := List.append_of_mem hb
  have hmiddle := List.nodup_middle.mp hnodup
  have hnone : ∀ b' ∈ before ++ behind, part b' = [] := by
    intro b' hb'
    refine hempty b' ?_ ?_
    · rcases List.mem_append.mp hb' with h | h
      · exact List.mem_append_left _ h
      · exact List.mem_append_right _ (List.mem_cons_of_mem b h)
    · rintro rfl
      exact (List.nodup_cons.mp hmiddle).1 hb'
  have hbefore : before.flatMap part = [] := List.flatMap_eq_nil_iff.mpr fun b' hb' =>
    hnone b' (List.mem_append_left _ hb')
  have hbehind : behind.flatMap part = [] := List.flatMap_eq_nil_iff.mpr fun b' hb' =>
    hnone b' (List.mem_append_right _ hb')
  rw [List.flatMap_append, List.flatMap_cons, hbefore, hbehind, List.nil_append, List.append_nil]

variable [DecidableEq β]

/-- The buckets of a list, one behind the other, have the members of the list. -/
theorem perm_flatMap_filter (hnodup : buckets.Nodup) (hcover : ∀ a ∈ l, bucket a ∈ buckets) :
    (buckets.flatMap fun b => l.filter (bucket · == b)).Perm l := by
  induction buckets generalizing l with
  | nil =>
    rw [List.eq_nil_iff_forall_not_mem.mpr fun a ha => List.not_mem_nil (hcover a ha)]
    exact List.Perm.refl _
  | cons b rest ih =>
    obtain ⟨hb, hrest⟩ := List.nodup_cons.mp hnodup
    have hothers : rest.flatMap (fun b' => l.filter (bucket · == b')) =
        rest.flatMap fun b' => (l.filter (!bucket · == b)).filter (bucket · == b') := by
      refine List.flatMap_congr fun b' hb' => ?_
      rw [List.filter_filter]
      refine List.filter_congr fun a _ => ?_
      by_cases hbucket : bucket a = b'
      · have hne : bucket a ≠ b := fun heq => hb (heq ▸ hbucket ▸ hb')
        simp [hbucket, hbucket ▸ hne]
      · simp [hbucket]
    rw [List.flatMap_cons, hothers]
    have hperm := ih (l := l.filter (!bucket · == b)) hrest fun a ha => by
      obtain ⟨hmem, hne⟩ := List.mem_filter.mp ha
      rcases List.mem_cons.mp (hcover a hmem) with heq | hmem
      · simp [heq] at hne
      · exact hmem
    exact (hperm.append_left _).trans (List.filter_append_perm (bucket · == b) l)

/-- The stable sorts of the buckets, one behind the other, are the stable sort of the list. -/
theorem StableSort.flatMap [Std.OrientedCmp compare] (hnodup : buckets.Nodup)
    (hcover : ∀ a ∈ l, bucket a ∈ buckets) (hascend : BucketsAscend compare bucket l buckets)
    (hsort : ∀ b ∈ buckets, StableSort compare (l.filter (bucket · == b)) (sort b)) :
    StableSort compare l (buckets.flatMap sort) := by
  have hmem : ∀ b ∈ buckets, ∀ a ∈ sort b, a ∈ l ∧ bucket a = b := by
    intro b hb a ha
    obtain ⟨hl, heq⟩ := List.mem_filter.mp ((hsort b hb).perm.mem_iff.mp ha)
    exact ⟨hl, beq_iff_eq.mp heq⟩
  constructor
  case perm =>
    have hparts := List.Perm.flatMap_left buckets fun b hb => (hsort b hb).perm
    exact hparts.trans (perm_flatMap_filter hnodup hcover)
  case ascends =>
    refine List.pairwise_flatMap.mpr ⟨fun b hb => (hsort b hb).ascends, ?_⟩
    refine hascend.imp_of_mem fun hb hb' hlt a ha a' ha' => ?_
    obtain ⟨hl, hbucket⟩ := hmem _ hb a ha
    obtain ⟨hl', hbucket'⟩ := hmem _ hb' a' ha'
    rw [hlt a hl a' hl' hbucket hbucket']
    rfl
  case ties =>
    intro a ha
    have htied : ∀ a' ∈ l, compare a a' = .eq → bucket a' = bucket a := by
      intro a' ha' htie
      by_contra hne
      exact hascend.ne_of_ne hcover ha ha' (Ne.symm hne) htie
    rw [List.filter_flatMap, flatMap_of_forall_ne hnodup (hcover a ha), (hsort _ (hcover a ha)).ties,
      List.filter_filter]
    · refine List.filter_congr fun a' ha' => ?_
      by_cases htie : compare a a' = .eq
      · simp [htie, htied a' ha' htie]
      · simp [htie]
    · exact List.mem_filter.mpr ⟨ha, beq_self_eq_true _⟩
    · intro b hb hne
      refine List.filter_eq_nil_iff.mpr fun a' ha' htie => ?_
      obtain ⟨hl, hbucket⟩ := hmem b hb a' ha'
      exact hne (hbucket.symm.trans (htied a' hl (beq_iff_eq.mp htie)))

end Buckets
end IndexedStore
