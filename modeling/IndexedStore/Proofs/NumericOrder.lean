import IndexedStore.Proofs.BucketOrder

/-!
Sorting and the order of numbers. The records with finite numbers come before all others in an
ascending sort, and their numbers never decrease. An infinite number is sorted by the text of its
bucket, among the values that are not numbers; so numbers as a whole are in order exactly when no
finite number meets the negative infinity and no infinity is put behind what is not a number.
-/
namespace IndexedStore

namespace Number

variable {x y : Number}

/-- The order of numbers: a number comes before what is none, and not before a smaller number. -/
def InOrder : Option Number → Option Number → Prop
  | some x, some y => y.numericLt x = false
  | none, some _ => False
  | _, none => True

theorem inOrder_none (number : Option Number) : InOrder number none := by
  cases number with
  | none => exact trivial
  | some x => exact trivial

theorem rank_unsigned (x : Number) :
    x.unsigned.rank = if x.position < 0 then x.position - 1 else x.position := by
  unfold unsigned isZero position
  by_cases hzero : x.code = 0
  · simp only [hzero, decide_true, if_true]
    split_ifs <;> first | rfl | omega
  · rw [if_neg (by simpa using hzero)]
    unfold rank
    split_ifs <;> omega

theorem totalCompare_unsigned (h : x.numericLt y = true) :
    y.unsigned.totalCompare x.unsigned = .gt := by
  unfold numericLt at h
  simp only [Bool.and_eq_true, decide_eq_true_eq] at h
  unfold totalCompare
  rw [Int.compare_eq_gt, rank_unsigned, rank_unsigned]
  split_ifs <;> omega

theorem eq_infinity (hinfinite : x.isFinite = false) (hdefined : x.isUndefined = false) :
    x = infinity x.negative := by
  obtain ⟨negative, code, hcode⟩ := x
  unfold isFinite at hinfinite
  unfold isUndefined at hdefined
  rw [decide_eq_false_iff_not] at hinfinite hdefined
  dsimp only at hinfinite hdefined
  obtain rfl : code = BinaryFormat.binary64.infinity := by omega
  rfl

theorem infinity_lt (hx : x.isFinite = true) : (infinity true).numericLt x = true := by
  have hcode : x.code < BinaryFormat.binary64.infinity := of_decide_eq_true hx
  unfold numericLt isUndefined position infinity
  simp only [Bool.and_eq_true, Bool.not_eq_true', decide_eq_true_eq, decide_eq_false_iff_not]
  split_ifs <;> omega

/-- Nothing is above the positive infinity. -/
theorem not_infinity_lt (x : Number) : (infinity false).numericLt x = false := by
  by_contra hlt
  unfold numericLt isUndefined position infinity at hlt
  simp only [Bool.not_eq_false, Bool.and_eq_true, Bool.not_eq_true', decide_eq_true_eq,
    decide_eq_false_iff_not] at hlt
  split_ifs at hlt <;> omega

end Number

def Direction.along {α : Type} (d : Direction) (R : α → α → Prop) : α → α → Prop :=
  match d with
  | .ascending => R
  | .descending => fun a b => R b a

namespace Sorting

variable {v w : Value}

/-! ### Values -/

/-- What sorting does not put behind another value is not behind it in the order of the finite
numbers. -/
theorem inOrder_finite (h : (Value.text (bucketOf v)).sortCompare (.text (bucketOf w)) ≠ .gt) :
    Number.InOrder (finite? v) (finite? w) := by
  rw [sortCompare_bucketOf] at h
  cases hw : finite? w with
  | none => exact Number.inOrder_none _
  | some y =>
    cases hv : finite? v with
    | none =>
      rw [hv, hw] at h
      exact absurd rfl h
    | some x =>
      rw [hv, hw] at h
      change y.numericLt x = false
      by_contra hlt
      exact h (Number.totalCompare_unsigned (by simpa using hlt))

/-- Values that are out of order although their finite numbers are in order: the second one is
infinite. -/
theorem exists_infinite (horder : Number.InOrder (finite? v) (finite? w))
    (hnot : ¬ Number.InOrder v.asNumber? w.asNumber?)
    (hw : ∀ y ∈ w.asNumber?, y.isUndefined = false) :
    ∃ negative, w.asNumber? = some (Number.infinity negative) := by
  cases hy : w.asNumber? with
  | none =>
    rw [hy] at hnot
    exact absurd (Number.inOrder_none v.asNumber?) hnot
  | some y =>
    cases hfinite : y.isFinite with
    | false => exact ⟨y.negative, congrArg some (Number.eq_infinity hfinite (hw y hy))⟩
    | true =>
      have hsecond : finite? w = some y := by
        unfold finite?
        rw [hy, Option.filter_some_pos hfinite]
      rw [hsecond] at horder
      cases hfirst : finite? v with
      | none =>
        rw [hfirst] at horder
        exact absurd horder id
      | some x =>
        rw [hfirst] at horder
        rw [hy, (Option.filter_eq_some_iff.mp hfirst).1] at hnot
        exact absurd horder hnot

/-- Of the two infinities the negative one has the smaller text. -/
theorem sortCompare_infinity : (Value.text (Number.infinity false).keyText).sortCompare
    (.text (Number.infinity true).keyText) = .gt := by
  decide +kernel

/-- The values that sorting puts the wrong way round: the negative infinity behind a finite
number, and an infinity behind what is not a number. -/
theorem misplaced_of_not_inOrder (hv : ∀ x ∈ v.asNumber?, x.isUndefined = false)
    (hw : ∀ y ∈ w.asNumber?, y.isUndefined = false)
    (h : (Value.text (bucketOf v)).sortCompare (.text (bucketOf w)) ≠ .gt)
    (hnot : ¬ Number.InOrder v.asNumber? w.asNumber?) :
    ((finite? v).isSome ∧ w.asNumber? = some (Number.infinity true)) ∨
      (v.asNumber? = none ∧ ∃ negative, w.asNumber? = some (Number.infinity negative)) := by
  obtain ⟨negative, hy⟩ := exists_infinite (inOrder_finite h) hnot hw
  cases hx : v.asNumber? with
  | none => exact Or.inr ⟨rfl, negative, hy⟩
  | some x =>
    rw [hx, hy] at hnot
    cases negative with
    | false => exact absurd (Number.not_infinity_lt x) hnot
    | true =>
      refine Or.inl ⟨?_, hy⟩
      unfold finite?
      rw [hx]
      cases hfinite : x.isFinite with
      | true =>
        rw [Option.filter_some_pos hfinite]
        rfl
      | false =>
        have hinfinity := Number.eq_infinity hfinite (hv x hx)
        cases hnegative : x.negative with
        | true =>
          have hself : (Number.infinity true).numericLt (Number.infinity true) = false := by
            decide
          rw [hinfinity, hnegative] at hnot
          exact absurd hself hnot
        | false =>
          rw [hinfinity, hnegative] at hx
          rw [bucketOf_of_number hx, bucketOf_of_number hy] at h
          exact absurd sortCompare_infinity h

/-- A finite number is sorted before an infinite one. -/
theorem sortCompare_of_finite {negative : Bool} (hv : (finite? v).isSome)
    (hw : w.asNumber? = some (Number.infinity negative)) :
    (Value.text (bucketOf v)).sortCompare (.text (bucketOf w)) = .lt := by
  obtain ⟨x, hx⟩ := Option.isSome_iff_exists.mp hv
  have hinfinite : finite? w = none := by
    unfold finite?
    rw [hw]
    rfl
  rw [sortCompare_bucketOf, hx, hinfinite]

/-! ### Records -/

def numberIn (field : String) (r : Snapshot) : Option Number :=
  (Fields.value r.fields field).asNumber?

def finiteIn (field : String) (r : Snapshot) : Option Number :=
  finite? (Fields.value r.fields field)

/-- Whether sorting by a key puts one record of a list before another one: by the key, else by
the positions, else as they stand in the list. -/
def Before (key : SortKey) (records : List Snapshot) (r r' : Snapshot) : Prop :=
  compareBy [key] r r' = .lt ∨ (compareBy [key] r r' = .eq ∧ [r, r'].Sublist records)

variable {key : SortKey} {records : List Snapshot} {r r' : Snapshot}

/-- What holds along a sorted list holds of the pairs that sorting puts in order. -/
theorem pairwise_bucketSort_iff {R : Snapshot → Snapshot → Prop} :
    (bucketSort ⟨[key]⟩ records).Pairwise (key.direction.along R) ↔
      ∀ r ∈ records, ∀ r' ∈ records, key.direction.along (Before key records) r r' → R r r' := by
  have hsorted := stableSort_bucketSort ⟨[key]⟩ records
  have hpairs : (bucketSort ⟨[key]⟩ records).Pairwise (key.direction.along R) ↔
      ∀ r ∈ records, ∀ r' ∈ records, Before key records r r' → key.direction.along R r r' := by
    rw [List.pairwise_iff_forall_sublist]
    constructor
    · intro h r hr r' hr' hbefore
      exact h ((hsorted.pair_iff hr hr').mpr hbefore)
    · intro h r r' hsub
      have hr := hsorted.perm.mem_iff.mp (hsub.subset List.mem_cons_self)
      have hr' := hsorted.perm.mem_iff.mp
        (hsub.subset (List.mem_cons_of_mem r List.mem_cons_self))
      exact h r hr r' hr' ((hsorted.pair_iff hr hr').mp hsub)
  rw [hpairs]
  cases key.direction with
  | ascending => exact Iff.rfl
  | descending => exact ⟨fun h r hr r' hr' => h r' hr' r hr, fun h r hr r' hr' => h r' hr' r hr⟩

theorem compareBy_singleton (key : SortKey) (r r' : Snapshot) :
    compareBy [key] r r' = (key.compare r r').then (compare r.position r'.position) := rfl

theorem sortCompare_of_before (h : key.direction.along (Before key records) r r') :
    (Value.text (bucketIn key.field r)).sortCompare (.text (bucketIn key.field r')) ≠ .gt := by
  have hcompare : ∀ {r r' : Snapshot}, Before key records r r' → key.compare r r' ≠ .gt := by
    intro r r' hbefore hgt
    unfold Before at hbefore
    rw [compareBy_singleton, hgt] at hbefore
    exact absurd hbefore (by simp)
  cases hdirection : key.direction with
  | ascending =>
    rw [hdirection] at h
    have hne := hcompare h
    rwa [SortKey.compare_of_ascending hdirection] at hne
  | descending =>
    rw [hdirection] at h
    have hne := hcompare h
    rwa [SortKey.compare_of_descending hdirection] at hne

theorem before_of_sortCompare
    (h : (Value.text (bucketIn key.field r)).sortCompare (.text (bucketIn key.field r')) = .lt) :
    key.direction.along (Before key records) r r' := by
  have hbefore : ∀ {r r' : Snapshot}, key.compare r r' = .lt → Before key records r r' := by
    intro r r' hlt
    refine Or.inl ?_
    rw [compareBy_singleton, hlt]
    rfl
  cases hdirection : key.direction with
  | ascending => exact hbefore ((SortKey.compare_of_ascending hdirection r r').trans h)
  | descending => exact hbefore ((SortKey.compare_of_descending hdirection r' r).trans h)

/-- Sorting by a field keeps finite numbers in order and before all else, behind it in a
descending sort. All numbers are in order exactly when the negative infinity does not meet a
finite number and no infinity is put on the wrong side of what is not a number. -/
theorem bucketSort_inOrder (key : SortKey) (records : List Snapshot)
    (hdefined : ∀ r ∈ records, ∀ x ∈ numberIn key.field r, x.isUndefined = false) :
    (bucketSort ⟨[key]⟩ records).Pairwise (key.direction.along fun r r' =>
      Number.InOrder (finiteIn key.field r) (finiteIn key.field r')) ∧
    ((bucketSort ⟨[key]⟩ records).Pairwise (key.direction.along fun r r' =>
        Number.InOrder (numberIn key.field r) (numberIn key.field r')) ↔
      (∀ r ∈ records, ∀ r' ∈ records, (finiteIn key.field r).isSome →
        numberIn key.field r' ≠ some (Number.infinity true)) ∧
      ∀ r ∈ records, ∀ r' ∈ records, numberIn key.field r = none →
        (∃ negative, numberIn key.field r' = some (Number.infinity negative)) →
          ¬ key.direction.along (Before key records) r r') := by
  rw [pairwise_bucketSort_iff, pairwise_bucketSort_iff]
  refine ⟨fun r _ r' _ hbefore => inOrder_finite (sortCompare_of_before hbefore), ?_, ?_⟩
  · intro h
    constructor
    · intro r hr r' hr' hfinite hinfinity
      have horder := h r hr r' hr'
        (before_of_sortCompare (sortCompare_of_finite hfinite hinfinity))
      obtain ⟨x, hx⟩ := Option.isSome_iff_exists.mp hfinite
      obtain ⟨hnumber, hx⟩ := Option.filter_eq_some_iff.mp hx
      change Number.InOrder (Fields.value r.fields key.field).asNumber? _ at horder
      rw [hnumber, hinfinity] at horder
      exact absurd ((Number.infinity_lt hx).symm.trans horder) (by decide)
    · rintro r hr r' hr' hnone ⟨negative, hinfinity⟩ hbefore
      have horder := h r hr r' hr' hbefore
      rw [hnone, hinfinity] at horder
      exact horder
  · rintro ⟨hfinite, hother⟩ r hr r' hr' hbefore
    by_contra hnot
    rcases misplaced_of_not_inOrder (hdefined r hr) (hdefined r' hr')
      (sortCompare_of_before hbefore) hnot with ⟨hsome, hinfinity⟩ | ⟨hnone, hinfinity⟩
    · exact hfinite r hr r' hr' hsome hinfinity
    · exact hother r hr r' hr' hnone hinfinity hbefore

def byV : SortKey := ⟨"v", .ascending⟩

def infiniteAndText : List Snapshot :=
  [⟨"a", 0, [("v", .text "zebra")]⟩, ⟨"b", 1, [("v", .number (Number.infinity false))]⟩,
    ⟨"c", 2, [("v", .text " 1e1 ")]⟩]

theorem inOrder_infiniteAndText :
    (∀ r ∈ infiniteAndText, ∀ x ∈ numberIn byV.field r, x.isUndefined = false) ∧
    (bucketSort ⟨[byV]⟩ infiniteAndText).Pairwise (byV.direction.along fun r r' =>
      Number.InOrder (numberIn byV.field r) (numberIn byV.field r')) := by
  have hdefined : ∀ r ∈ infiniteAndText, ∀ x ∈ numberIn byV.field r, x.isUndefined = false := by
    decide +kernel
  have hbehind : ∀ r ∈ infiniteAndText, ∀ r' ∈ infiniteAndText, numberIn byV.field r = none →
      (∃ negative, numberIn byV.field r' = some (Number.infinity negative)) →
        (Value.text (bucketIn byV.field r)).sortCompare (.text (bucketIn byV.field r')) = .gt := by
    decide +kernel
  refine ⟨hdefined, (bucketSort_inOrder byV infiniteAndText hdefined).2.mpr
    ⟨by decide +kernel, fun r hr r' hr' hnone hinfinity hbefore => ?_⟩⟩
  exact sortCompare_of_before hbefore (hbehind r hr r' hr' hnone hinfinity)

def zeroAndInfinite : List Snapshot :=
  [⟨"a", 0, [("v", .number Number.zero)]⟩, ⟨"b", 1, [("v", .number (Number.infinity true))]⟩]

/-- The negative infinity is put behind zero. -/
theorem not_inOrder_zeroAndInfinite :
    (∀ r ∈ zeroAndInfinite, ∀ x ∈ numberIn byV.field r, x.isUndefined = false) ∧
    ¬ (bucketSort ⟨[byV]⟩ zeroAndInfinite).Pairwise (byV.direction.along fun r r' =>
      Number.InOrder (numberIn byV.field r) (numberIn byV.field r')) := by
  refine ⟨by decide +kernel, fun h => ?_⟩
  have hbefore : byV.direction.along (Before byV zeroAndInfinite)
      ⟨"a", 0, [("v", .number Number.zero)]⟩
      ⟨"b", 1, [("v", .number (Number.infinity true))]⟩ :=
    before_of_sortCompare (by decide +kernel)
  have horder := pairwise_bucketSort_iff.mp h _ List.mem_cons_self _
    (List.mem_cons_of_mem _ List.mem_cons_self) hbefore
  have hlt : (Number.infinity true).numericLt Number.zero = true := by decide
  exact absurd (hlt.symm.trans horder) (by decide)

end Sorting
end IndexedStore
