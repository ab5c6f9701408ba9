import IndexedStore.Sorting.Buckets
import IndexedStore.Proofs.LowerCase
import IndexedStore.Proofs.StableSort

/-!
The order that sorting by buckets puts records in. Each key compares the buckets of two values as
texts; different buckets never tie, so sorting bucket by bucket gives the stable sort by the
lexicographic comparison of the keys, with the positions behind them.
-/
namespace IndexedStore

namespace Number

variable {x y : Number}

theorem rank_inj (h : x.rank = y.rank) : x = y := by
  obtain ⟨negative, code, hcode⟩ := x
  obtain ⟨negative', code', hcode'⟩ := y
  unfold rank at h
  cases negative <;> cases negative' <;> simp only [Bool.false_eq_true, if_false, if_true] at h
  · obtain rfl : code = code' := by omega
    rfl
  · omega
  · omega
  · obtain rfl : code = code' := by omega
    rfl

theorem totalCompare_eq_iff : x.totalCompare y = .eq ↔ x = y := by
  unfold totalCompare
  rw [Std.LawfulEqCmp.compare_eq_iff_eq]
  exact ⟨rank_inj, congrArg rank⟩

end Number

namespace Value

/-! ### The sorting order of values -/

theorem sortCompare_swap (v w : Value) : v.sortCompare w = (w.sortCompare v).swap := by
  unfold sortCompare
  cases v.asNumber? with
  | some x =>
    cases w.asNumber? with
    | some y => exact Std.OrientedOrd.eq_swap
    | none => rfl
  | none =>
    cases w.asNumber? with
    | some y => rfl
    | none => exact Std.OrientedOrd.eq_swap

instance : Std.OrientedCmp sortCompare where
  eq_swap := sortCompare_swap _ _

instance : Std.TransCmp sortCompare where
  isLE_trans {v w u} hvw hwu := by
    unfold sortCompare at hvw hwu ⊢
    cases hv : v.asNumber? <;> cases hw : w.asNumber? <;> cases hu : u.asNumber? <;>
      simp only [hv, hw, hu] at hvw hwu ⊢
    all_goals first
      | exact Std.TransOrd.isLE_trans hvw hwu
      | exact absurd hvw (by decide)
      | exact absurd hwu (by decide)
      | rfl

end Value

namespace Sorting

variable {v w : Value}

/-! ### Buckets as texts -/

/-- What is not read as a number has a key text that is not read as one either. -/
theorem asNumber?_keyText_of_none (h : v.asNumber? = none) :
    Value.asNumber? (.text v.keyText) = none := by
  -- The texts of lists and maps begin with a bracket, which no numeric text has.
  have hbracket : ∀ {s : String} {c : Char}, c ∈ ['[', '\x7b'] → c ∈ s.toList →
      Value.asNumber? (.text s) = none := by
    intro s c hc hmem
    have hnot : ['[', '\x7b'].all (!Text.inRanges Text.numericRanges ·.toNat) = true := by
      decide +kernel
    cases hnumber : Value.asNumber? (.text s) with
    | none => rfl
    | some x =>
      have hnumeric := Text.numeric_of_asNumber? hnumber c hmem
      have hother := List.all_eq_true.mp hnot c hc
      rw [hnumeric] at hother
      exact absurd hother (by decide)
  cases v with
  | null => decide +kernel
  | bool b => cases b <;> decide +kernel
  | number x => exact absurd h (by simp [Value.asNumber?])
  | text s => exact h
  | list items =>
    apply hbracket List.mem_cons_self
    change '[' ∈ (String.ofList ('[' :: _)).toList
    rw [String.toList_ofList]
    exact List.mem_cons_self
  | map entries =>
    apply hbracket (List.mem_cons_of_mem _ List.mem_cons_self)
    change '\x7b' ∈ (String.ofList ('\x7b' :: _)).toList
    rw [String.toList_ofList]
    exact List.mem_cons_self

def finite? (v : Value) : Option Number := v.asNumber?.filter Number.isFinite

/-- A bucket is read as the number that the value is read as, when this is finite. -/
theorem asNumber?_bucketOf (v : Value) :
    Value.asNumber? (.text (bucketOf v)) = (finite? v).map Number.unsigned := by
  unfold bucketOf Value.bucketText finite?
  cases hnumber : v.asNumber? with
  | some x =>
    dsimp only
    cases hfinite : x.isFinite with
    | true =>
      rw [Number.asNumber?_keyText hfinite, Option.filter_some_pos hfinite]
      rfl
    | false =>
      rw [Number.asNumber?_keyText_of_not_finite hfinite,
        Option.filter_some_neg (by simp [hfinite])]
      rfl
  | none =>
    dsimp only
    cases hlower : Value.asNumber? (.text (Text.lowercase v.keyText)) with
    | none => rfl
    | some x =>
      exact absurd ((asNumber?_keyText_of_none hnumber).symm.trans
        (Text.asNumber?_of_lowercase hlower)) (by simp)

/-- The bucket of what is read as a number is the key text of the number. -/
theorem bucketOf_of_number {x : Number} (h : v.asNumber? = some x) : bucketOf v = x.keyText := by
  unfold bucketOf Value.bucketText
  rw [h]

/-- Buckets compare by their finite numbers, which come first, and else as texts. -/
theorem sortCompare_bucketOf (v w : Value) :
    (Value.text (bucketOf v)).sortCompare (.text (bucketOf w)) = match finite? v, finite? w with
    | some x, some y => x.unsigned.totalCompare y.unsigned
    | some _, none => .lt
    | none, some _ => .gt
    | none, none => compare (bucketOf v) (bucketOf w) := by
  unfold Value.sortCompare
  rw [asNumber?_bucketOf, asNumber?_bucketOf]
  cases finite? v with
  | some x =>
    cases finite? w with
    | some y => rfl
    | none => rfl
  | none =>
    cases finite? w with
    | some y => rfl
    | none => rfl

/-- Buckets that tie are one bucket. -/
theorem bucketOf_eq_of_tie (h : (Value.text (bucketOf v)).sortCompare (.text (bucketOf w)) = .eq) :
    bucketOf v = bucketOf w := by
  have hread : ∀ {v : Value} {x : Number}, finite? v = some x →
      bucketOf v = x.unsigned.keyText := by
    intro v x hx
    rw [bucketOf_of_number (Option.filter_eq_some_iff.mp hx).1, Number.keyText_unsigned]
  rw [sortCompare_bucketOf] at h
  cases hv : finite? v with
  | some x =>
    cases hw : finite? w with
    | some y =>
      rw [hv, hw] at h
      rw [hread hv, hread hw, Number.totalCompare_eq_iff.mp h]
    | none =>
      rw [hv, hw] at h
      exact absurd h (by simp)
  | none =>
    cases hw : finite? w with
    | some y =>
      rw [hv, hw] at h
      exact absurd h (by simp)
    | none =>
      rw [hv, hw] at h
      exact Std.LawfulEqOrd.eq_of_compare h

theorem tie_iff :
    (Value.text (bucketOf v)).sortCompare (.text (bucketOf w)) = .eq ↔
      bucketOf v = bucketOf w := by
  refine ⟨bucketOf_eq_of_tie, fun h => ?_⟩
  rw [h]
  exact Std.ReflCmp.compare_self

/-! ### Keys -/

def bucketIn (field : String) (r : Snapshot) : String := bucketOf (Fields.value r.fields field)

end Sorting

namespace SortKey

/-- The comparison of two records by a key: their buckets compare as values that are texts, the
other way round for a descending key. -/
def compare (key : SortKey) (r r' : Snapshot) : Ordering :=
  let bucket := fun r => Value.text (Sorting.bucketIn key.field r)
  match key.direction with
  | .ascending => (bucket r).sortCompare (bucket r')
  | .descending => (bucket r').sortCompare (bucket r)

variable {key : SortKey}

theorem compare_of_ascending (h : key.direction = .ascending) (r r' : Snapshot) :
    key.compare r r' = (Value.text (Sorting.bucketIn key.field r)).sortCompare
      (.text (Sorting.bucketIn key.field r')) := by
  unfold compare
  rw [h]

theorem compare_of_descending (h : key.direction = .descending) (r r' : Snapshot) :
    key.compare r r' = (Value.text (Sorting.bucketIn key.field r')).sortCompare
      (.text (Sorting.bucketIn key.field r)) := by
  unfold compare
  rw [h]

theorem compare_eq_iff (key : SortKey) (r r' : Snapshot) :
    key.compare r r' = .eq ↔ Sorting.bucketIn key.field r = Sorting.bucketIn key.field r' := by
  unfold compare
  cases key.direction with
  | ascending => exact Sorting.tie_iff
  | descending => exact Sorting.tie_iff.trans eq_comm

theorem compare_swap (key : SortKey) (r r' : Snapshot) :
    key.compare r r' = (key.compare r' r).swap := by
  unfold compare
  cases key.direction with
  | ascending => exact Value.sortCompare_swap _ _
  | descending => exact Value.sortCompare_swap _ _

instance (key : SortKey) : Std.OrientedCmp key.compare where
  eq_swap := key.compare_swap _ _

instance (key : SortKey) : Std.TransCmp key.compare where
  isLE_trans {r r' r''} h h' := by
    cases hdirection : key.direction with
    | ascending =>
      rw [compare_of_ascending hdirection] at h h' ⊢
      exact Std.TransCmp.isLE_trans h h'
    | descending =>
      rw [compare_of_descending hdirection] at h h' ⊢
      exact Std.TransCmp.isLE_trans h' h

end SortKey

namespace Sorting

def compareBy : List SortKey → Snapshot → Snapshot → Ordering
  | [] => fun r r' => compare r.position r'.position
  | key :: rest => compareLex key.compare (compareBy rest)

theorem transCmp_compareBy (keys : List SortKey) : Std.TransCmp (compareBy keys) := by
  induction keys with
  | nil =>
    exact
      { eq_swap := Std.OrientedOrd.eq_swap
        isLE_trans := Std.TransOrd.isLE_trans }
  | cons key rest ih => exact Std.instTransCmpCompareLex

instance (keys : List SortKey) : Std.TransCmp (compareBy keys) := transCmp_compareBy keys

/-! ### Buckets in order -/

theorem mem_orderedBuckets (direction : Direction) (buckets : List String) (bucket : String) :
    bucket ∈ orderedBuckets direction buckets ↔ bucket ∈ buckets := by
  cases direction with
  | ascending => exact List.mem_mergeSort
  | descending =>
    unfold orderedBuckets
    rw [List.mem_reverse, List.mem_mergeSort]

theorem nodup_firstSeen (texts : List String) : (firstSeen texts).Nodup := by
  unfold firstSeen
  induction hlength : texts.length using Nat.strongRecOn generalizing texts with
  | ind n ih =>
    cases texts with
    | nil => exact List.nodup_nil
    | cons text rest =>
      rw [List.eraseDups_cons, List.nodup_cons]
      constructor
      · intro hmem
        have hother := (List.mem_filter.mp (List.mem_eraseDups.mp hmem)).2
        simp at hother
      · have hshort := List.length_filter_le (fun b => !b == text) rest
        rw [List.length_cons] at hlength
        exact ih _ (by omega) _ rfl

theorem nodup_orderedBuckets (direction : Direction) (texts : List String) :
    (orderedBuckets direction (firstSeen texts)).Nodup := by
  have hascending := (List.mergeSort_perm (firstSeen texts) fun a b =>
    (Value.text a).sortCompare (.text b) != .gt).nodup_iff.mpr (nodup_firstSeen texts)
  cases direction with
  | ascending => exact hascending
  | descending => exact List.nodup_reverse.mpr hascending

/-- Buckets of records come in ascending order of the key. -/
theorem bucketsAscend_orderedBuckets (key : SortKey) (records : List Snapshot)
    (texts : List String) : BucketsAscend key.compare (bucketIn key.field) records
      (orderedBuckets key.direction (firstSeen texts)) := by
  have hisLE : ∀ order : Ordering, (order != .gt) = order.isLE := by decide
  have hascending : ((firstSeen texts).mergeSort fun a b =>
      (Value.text a).sortCompare (.text b) != .gt).Pairwise fun a b =>
        ((Value.text a).sortCompare (.text b)).isLE = true := by
    simp only [hisLE]
    refine List.pairwise_mergeSort (fun _ _ _ => Std.TransCmp.isLE_trans) (fun a b => ?_) _
    rw [Value.sortCompare_swap (.text b)]
    cases (Value.text a).sortCompare (.text b) <;> rfl
  -- Records of two different buckets do not tie, so the earlier bucket is below the later one.
  have hstrict : ∀ {r r' : Snapshot}, bucketIn key.field r ≠ bucketIn key.field r' →
      (key.compare r r').isLE = true → key.compare r r' = .lt := by
    intro r r' hne hle
    have hnot := mt (key.compare_eq_iff r r').mp hne
    cases hcompare : key.compare r r' with
    | lt => rfl
    | eq => exact absurd hcompare hnot
    | gt =>
      rw [hcompare] at hle
      exact absurd hle (by decide)
  have hnodup := nodup_orderedBuckets key.direction texts
  unfold BucketsAscend
  cases hdirection : key.direction with
  | ascending =>
    rw [hdirection] at hnodup
    refine (hascending.and hnodup).imp fun hle r _ r' _ hr hr' => ?_
    obtain ⟨hle, hne⟩ := hle
    apply hstrict
    · rwa [hr, hr']
    · rw [SortKey.compare_of_ascending hdirection, hr, hr']
      exact hle
  | descending =>
    rw [hdirection] at hnodup
    refine ((List.pairwise_reverse.mpr hascending).and hnodup).imp fun hle r _ r' _ hr hr' => ?_
    obtain ⟨hle, hne⟩ := hle
    apply hstrict
    · rwa [hr, hr']
    · rw [SortKey.compare_of_descending hdirection, hr, hr']
      exact hle

/-! ### Sorting -/

theorem filter_parted (field bucket : String) (records : List Snapshot) :
    (((records.map fun r => (bucketOf (Fields.value r.fields field), r)).filter
      (·.1 == bucket)).map (·.2)) = records.filter (bucketIn field · == bucket) := by
  rw [List.filter_map, List.map_map]
  exact List.map_id _

theorem compareBy_of_bucketIn {key : SortKey} {rest : List SortKey} {r r' : Snapshot}
    (h : bucketIn key.field r = bucketIn key.field r') :
    compareBy (key :: rest) r r' = compareBy rest r r' := by
  change (key.compare r r').then (compareBy rest r r') = _
  rw [(key.compare_eq_iff r r').mpr h]
  rfl

theorem bucketsAscend_compareBy (key : SortKey) (rest : List SortKey) (records : List Snapshot)
    (texts : List String) : BucketsAscend (compareBy (key :: rest)) (bucketIn key.field) records
      (orderedBuckets key.direction (firstSeen texts)) := by
  refine (bucketsAscend_orderedBuckets key records texts).imp fun hlt r hr r' hr' hb hb' => ?_
  change (key.compare r r').then (compareBy rest r r') = _
  rw [hlt r hr r' hr' hb hb']
  rfl

/-- The records of each level come out in the stable sort by the keys that are left. -/
theorem stableSort_sortLevel (keys : List SortKey) (records : List Snapshot) :
    StableSort (compareBy keys) records (sortLevel keys records) := by
  induction keys generalizing records with
  | nil =>
    have hle : (fun r r' : Snapshot => decide (r.position ≤ r'.position)) =
        fun r r' => (compareBy [] r r').isLE := by
      funext r r'
      rw [Bool.eq_iff_iff, decide_eq_true_iff]
      exact Nat.isLE_compare.symm
    unfold sortLevel
    rw [hle]
    exact StableSort.mergeSort records
  | cons key rest ih =>
    unfold sortLevel
    by_cases hfew : records.length < 2
    · rw [if_pos hfew]
      exact StableSort.of_length_lt_two hfew
    · rw [if_neg hfew]
      simp only [filter_parted]
      apply StableSort.flatMap (nodup_orderedBuckets _ _) (fun r hr => ?_)
        (bucketsAscend_compareBy key rest records _)
        (fun bucket _ => (ih _).congr fun r hr r' hr' => ?_)
      · rw [mem_orderedBuckets]
        refine List.mem_eraseDups.mpr ?_
        rw [List.map_map]
        exact List.mem_map_of_mem hr
      · have hb := beq_iff_eq.mp (List.mem_filter.mp hr).2
        have hb' := beq_iff_eq.mp (List.mem_filter.mp hr').2
        exact (compareBy_of_bucketIn (hb.trans hb'.symm)).symm

theorem stableSort_bucketSort (order : SortOrder) (records : List Snapshot) :
    StableSort (compareBy order.keys) records (bucketSort order records) := by
  unfold bucketSort
  cases records with
  | nil => exact StableSort.of_length_lt_two (by decide)
  | cons r rest => exact stableSort_sortLevel order.keys (r :: rest)

/-- Sorting gives the stable sort by the keys, and nothing else is the stable sort. -/
theorem bucketSort_iff (order : SortOrder) (records sorted : List Snapshot) :
    StableSort (compareBy order.keys) records sorted ↔ sorted = bucketSort order records := by
  constructor
  · exact fun h => (stableSort_bucketSort order records).unique h
  · rintro rfl
    exact stableSort_bucketSort order records

end Sorting
end IndexedStore
