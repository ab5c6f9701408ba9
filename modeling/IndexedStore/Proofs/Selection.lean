import IndexedStore.Proofs.Delimited
import IndexedStore.Proofs.Steps

/-!
Queries answered from an index against queries answered by a scan. A bucket text can be taken
apart again, so fields have the bucket of a where clause exactly if they satisfy it, and a bucket
holds exactly the records that a scan finds, as long as the names in the where clause have no
separator in them. A name with a separator can be taken for the names of an index, and the bucket
that is then looked up is always empty.
-/
namespace IndexedStore

namespace Bucket

open Delimited

/-! ### Taking bucket texts apart -/

theorem escaped_cons (c : Char) (p : List Char) :
    escaped (c :: p) = (if c = separator ∨ c = '\\' then ['\\', c] else [c]) ++ escaped p := rfl

/-- An escaped part does not begin with a separator. -/
theorem head_escaped {p r rest : List Char} {c d : Char}
    (h : escaped (d :: p) ++ r = c :: rest) : c ≠ separator := by
  rw [escaped_cons] at h
  by_cases hd : d = separator ∨ d = '\\'
  · rw [if_pos hd] at h
    obtain ⟨rfl, -⟩ := List.cons.inj h
    decide
  · rw [if_neg hd] at h
    obtain ⟨rfl, -⟩ := List.cons.inj h
    exact fun heq => hd (Or.inl heq)

/-- An escaped part ends at the next separator. -/
theorem escaped_piece_eq {p p' r r' : List Char} (hr : Ends separator r)
    (hr' : Ends separator r') (h : escaped p ++ r = escaped p' ++ r') : p = p' ∧ r = r' := by
  induction p generalizing p' with
  | nil =>
    cases p' with
    | nil => exact ⟨rfl, h⟩
    | cons d p' =>
      rcases r with _ | ⟨c, rest⟩
      · rw [escaped_cons] at h
        split_ifs at h <;> exact absurd h (by simp [escaped])
      · exact absurd (hr c rest rfl) (head_escaped h.symm)
  | cons c p ih =>
    cases p' with
    | nil =>
      rcases r' with _ | ⟨d, rest⟩
      · rw [escaped_cons] at h
        split_ifs at h <;> exact absurd h (by simp [escaped])
      · exact absurd (hr' d rest rfl) (head_escaped h)
    | cons d p' =>
      rw [escaped_cons, escaped_cons] at h
      have hsame : c = d ∧ escaped p ++ r = escaped p' ++ r' := by
        by_cases hc : c = separator ∨ c = '\\'
        · by_cases hd : d = separator ∨ d = '\\'
          · rw [if_pos hc, if_pos hd] at h
            simpa using h
          · rw [if_pos hc, if_neg hd] at h
            obtain ⟨hcd, -⟩ := List.cons.inj h
            exact absurd (Or.inr hcd.symm) hd
        · by_cases hd : d = separator ∨ d = '\\'
          · rw [if_neg hc, if_pos hd] at h
            obtain ⟨hcd, -⟩ := List.cons.inj h
            exact absurd (Or.inr hcd) hc
          · rw [if_neg hc, if_neg hd] at h
            simpa using h
      obtain ⟨hp, hrr⟩ := ih hsame.2
      exact ⟨by rw [hsame.1, hp], hrr⟩

/-- Different parts have different joined texts. -/
theorem joined_escaped_inj {parts parts' : List (List Char)} (hne : parts ≠ [])
    (hne' : parts' ≠ []) (h : joined (parts.map escaped) = joined (parts'.map escaped)) :
    parts = parts' := by
  have hparts := joined_inj (R := Eq) (fun _ _ _ _ r r' hr hr' => escaped_piece_eq hr hr')
    hne hne' h
  rwa [List.forall₂_eq_eq_eq] at hparts

/-- Names without separators can be told from their signature. -/
theorem signature_inj {names names' : List String} (hne : names ≠ []) (hne' : names' ≠ [])
    (hplain : ∀ name ∈ names, separator ∉ name.toList)
    (hplain' : ∀ name ∈ names', separator ∉ name.toList)
    (h : signature names = signature names') : names = names' := by
  have htexts := String.ofList_injective h
  have hnames := joined_inj (R := Eq) (fun name hname name' hname' r r' hr hr' hread => by
    obtain ⟨hchars, hrest⟩ :=
      plain_piece_eq (hplain name hname) (hplain' name' hname') hr hr' hread
    exact ⟨String.toList_inj.mp hchars, hrest⟩) hne hne' htexts
  rwa [List.forall₂_eq_eq_eq] at hnames

/-- Names of which one has a separator are fewer than names without with the same signature. -/
theorem length_lt_of_signature {names names' : List String} (hne : names ≠ [])
    (hne' : names' ≠ []) {name : String} (hname : name ∈ names)
    (hseparated : separator ∈ name.toList)
    (hplain' : ∀ name ∈ names', separator ∉ name.toList)
    (h : signature names = signature names') : names.length < names'.length := by
  have htexts : joined (names.map String.toList) = joined (names'.map String.toList) :=
    String.ofList_injective h
  have hcount := @count_joined separator (names.map String.toList) (by simpa using hne)
  have hcount' := @count_joined separator (names'.map String.toList) (by simpa using hne')
  have hnone : ((names'.map String.toList).map (List.count separator)).sum = 0 := by
    rw [List.sum_eq_zero_iff_forall_eq_nat]
    intro n hn
    obtain ⟨_, ht, rfl⟩ := List.mem_map.mp hn
    obtain ⟨name', hname', rfl⟩ := List.mem_map.mp ht
    exact List.count_eq_zero.mpr (hplain' name' hname')
  have hsome : 0 < ((names.map String.toList).map (List.count separator)).sum := by
    rw [List.sum_pos_iff_exists_pos_nat]
    exact ⟨name.toList.count separator, List.mem_map.mpr ⟨_, List.mem_map.mpr ⟨name, hname, rfl⟩,
      rfl⟩, List.count_pos_iff.mpr hseparated⟩
  unfold joined at htexts
  rw [htexts] at hcount
  rw [List.length_map] at hcount hcount'
  omega

def parts (names : List String) (fields : Fields) : List (List Char) :=
  names.map fun name => (Fields.value fields name).bucketText.toList

theorem ofFields_eq (names : List String) (fields : Fields) :
    ofFields names fields = String.ofList (joined ((parts names fields).map escaped)) := by
  unfold ofFields parts Fields.value
  rw [List.map_map]
  congr 2
  refine List.map_congr_left fun name _ => ?_
  dsimp only [Function.comp]
  cases SortedMap.get? fields name with
  | some v => rfl
  | none => rfl

end Bucket

namespace Where

variable {q : Where}

def admits (q : Where) (fields : Fields) : Bool :=
  q.clauses.all fun e =>
    match e.2 with
    | .equals expected => expected.looseEq (Fields.value fields e.1)
    | .satisfies p => p.test (Fields.value fields e.1)

theorem holds_condition (fields : Fields) (field : String) (clause : Clause) :
    (condition field clause).holds fields =
      match clause with
      | .equals expected => expected.looseEq (Fields.value fields field)
      | .satisfies p => p.test (Fields.value fields field) := by
  cases clause with
  | equals expected => rfl
  | satisfies p => rfl

theorem allHold_conditions (fields : Fields) (clauses : SortedMap Clause) :
    Condition.allHold fields (clauses.map fun e => condition e.1 e.2) =
      clauses.all fun e => (condition e.1 e.2).holds fields := by
  induction clauses with
  | nil => rfl
  | cons e rest ih =>
    rw [List.map_cons, List.all_cons, ← ih]
    rfl

/-- A where clause that can be planned has a condition, and it tests each clause. -/
theorem exists_compile (hq : q.fault? = none) :
    ∃ condition, q.compile = .ok condition ∧
      ∀ fields, condition.holds fields = q.admits fields := by
  have hadmits : ∀ fields, q.admits fields =
      q.clauses.all fun e => (condition e.1 e.2).holds fields := by
    intro fields
    unfold admits
    congr 1
    funext e
    rw [holds_condition]
  unfold compile
  rw [hq]
  dsimp only
  split
  · rename_i c hc
    refine ⟨c, rfl, fun fields => ?_⟩
    obtain ⟨e, he⟩ := List.length_eq_one_iff.mp (by simpa using congrArg List.length hc)
    rw [hadmits, he]
    rw [he] at hc
    obtain ⟨rfl, -⟩ := List.cons.inj hc
    simp
  · refine ⟨_, rfl, fun fields => ?_⟩
    rw [hadmits, ← allHold_conditions]
    rfl

/-- Clauses without predicates require a value of each field. -/
theorem exists_required (hpredicates : q.hasPredicates = false) :
    ∃ required : List (String × Value),
      q.clauses = required.map fun e => (e.1, Clause.equals e.2) := by
  obtain ⟨clauses⟩ := q
  induction clauses with
  | nil => exact ⟨[], rfl⟩
  | cons e rest ih =>
    obtain ⟨field, clause⟩ := e
    unfold hasPredicates at hpredicates
    rw [List.any_cons, Bool.or_eq_false_iff] at hpredicates
    obtain ⟨required, hrest⟩ := ih hpredicates.2
    dsimp only at hrest ⊢
    cases clause with
    | equals expected => exact ⟨(field, expected) :: required, by rw [hrest]; rfl⟩
    | satisfies p => exact absurd hpredicates.1 (by simp)

variable {required : List (String × Value)}

theorem fields_of_required
    (hq : q.clauses = required.map fun e => (e.1, Clause.equals e.2)) :
    q.fields = required.map Prod.fst := by
  unfold fields SortedMap.names
  rw [hq, List.map_map]
  rfl

theorem bucket_of_required
    (hq : q.clauses = required.map fun e => (e.1, Clause.equals e.2)) :
    q.bucket = String.ofList (Bucket.joined
      ((required.map fun e => e.2.bucketText.toList).map Bucket.escaped)) := by
  unfold bucket
  rw [hq, List.map_map, List.map_map]
  rfl

theorem admits_of_required
    (hq : q.clauses = required.map fun e => (e.1, Clause.equals e.2)) (fields : Fields) :
    q.admits fields = true ↔
      (required.map fun e => e.2.bucketText.toList) =
        Bucket.parts (required.map Prod.fst) fields := by
  unfold admits Bucket.parts
  rw [hq, List.map_map, List.all_map, List.all_eq_true, List.map_inj_left]
  constructor
  · intro h e he
    exact congrArg String.toList (beq_iff_eq.mp (h e he))
  · intro h e he
    exact beq_iff_eq.mpr (String.toList_inj.mp (h e he))

/-- The bucket of required values is that of fields exactly if the parts of the two are the same,
whatever separators and backslashes are in them. -/
theorem bucket_eq_ofFields_iff
    (hq : q.clauses = required.map fun e => (e.1, Clause.equals e.2)) (hrequired : required ≠ [])
    {names : List String} (hnames : names ≠ []) (fields : Fields) :
    q.bucket = Bucket.ofFields names fields ↔
      (required.map fun e => e.2.bucketText.toList) = Bucket.parts names fields := by
  rw [bucket_of_required hq, Bucket.ofFields_eq]
  constructor
  · intro heq
    have hparts : Bucket.parts names fields ≠ [] := by
      unfold Bucket.parts
      simpa using hnames
    exact Bucket.joined_escaped_inj (by simpa using hrequired) hparts (String.ofList_injective heq)
  · intro heq
    rw [heq]

theorem fault?_eq_none (hne : q.fields ≠ []) (hnames : "" ∉ q.fields) : q.fault? = none := by
  have hempty : q.clauses.isEmpty = false := by
    rw [List.isEmpty_eq_false_iff]
    exact fun hnil => hne (List.map_eq_nil_iff.mpr hnil)
  have hname : q.clauses.any (·.1.isEmpty) = false := by
    rw [List.any_eq_false]
    intro e he hnone
    exact hnames (String.isEmpty_iff.mp hnone ▸ List.mem_map_of_mem he)
  unfold fault?
  rw [hempty, hname]
  rfl

/-- A where clause that requires values of some fields can be planned. Fields have its bucket exactly
if they satisfy its condition, which asks that each required value equals that of the field. -/
theorem bucket_eq_iff_holds (q : Where) {names : List String} (hne : names ≠ [])
    (hnames : "" ∉ names) (hfields : q.fields = names) (hpredicates : q.hasPredicates = false) :
    ∃ condition, q.compile = .ok condition ∧ ∀ fields : Fields,
      (q.bucket = Bucket.ofFields names fields ↔ condition.holds fields = true) ∧
      (condition.holds fields = true ↔ ∀ e ∈ q.clauses, ∃ expected,
        e.2 = .equals expected ∧ expected.looseEq (Fields.value fields e.1) = true) := by
  subst hfields
  obtain ⟨condition, hcompile, hholds⟩ := exists_compile (fault?_eq_none hne hnames)
  obtain ⟨required, hrequired⟩ := exists_required hpredicates
  have hnonempty : required ≠ [] := by
    rw [fields_of_required hrequired] at hne
    simpa using hne
  refine ⟨condition, hcompile, fun fields => ⟨?_, ?_⟩⟩
  · rw [hholds, admits_of_required hrequired, bucket_eq_ofFields_iff hrequired hnonempty hne,
      fields_of_required hrequired]
  · rw [hholds, admits, hrequired, List.all_map, List.all_eq_true, List.forall_mem_map]
    refine forall₂_congr fun e _ => ?_
    simp

def punctuated : Where :=
  ((empty.equals "a" (.text "x\\")).equals "b|c" (.text "|")).equals "d" .null

/-- Fields with the same values have the bucket. Others do not, though their parts have the same
text if separators are escaped and backslashes are not. -/
theorem bucket_eq_iff_holds_punctuated :
    let names := ["a", "b|c", "d"]
    let same : Fields := [("a", .text "x\\"), ("b|c", .text "|")]
    let other : Fields := [("a", .text "x|\\"), ("b|c", .text "")]
    names ≠ [] ∧ "" ∉ names ∧ punctuated.fields = names ∧ punctuated.hasPredicates = false ∧
      punctuated.bucket = Bucket.ofFields names same ∧
      punctuated.bucket ≠ Bucket.ofFields names other := by
  intro names same other
  have hne : names ≠ [] := List.cons_ne_nil _ _
  have hnames : "" ∉ names := by decide
  have hfields : punctuated.fields = names := by decide
  have hpredicates : punctuated.hasPredicates = false := rfl
  obtain ⟨condition, hcompile, hbucket⟩ :=
    bucket_eq_iff_holds punctuated hne hnames hfields hpredicates
  obtain rfl : Condition.all [.equals "a" (.text "x\\"), .equals "b|c" (.text "|"),
    .equals "d" .null] = condition := Except.ok.inj hcompile
  refine ⟨hne, hnames, hfields, hpredicates, (hbucket same).1.mpr (by decide +kernel),
    fun heq => ?_⟩
  exact absurd ((hbucket other).1.mp heq) (by decide +kernel)

def separated (q : Where) : Prop := ∃ name ∈ q.fields, Bucket.separator ∈ name.toList

theorem fields_ne_nil (hq : q.fault? = none) : q.fields ≠ [] := by
  unfold fault? at hq
  split_ifs at hq with hempty hfield
  intro hnil
  exact hempty (List.isEmpty_iff.mpr (List.map_eq_nil_iff.mp hnil))

end Where

namespace Contents

variable {c : Contents} {q : Where}

def matching (c : Contents) (q : Where) : List Snapshot :=
  c.snapshots.filter fun r => q.admits r.fields

theorem Consistent.matching_ascends (h : c.Consistent) (q : Where) :
    (c.matching q).Pairwise fun r r' => r.position < r'.position :=
  h.snapshots_ascend.filter _

/-- The records of a bucket of an index, as callers see them. -/
theorem Consistent.snapshotsAt_lookup (h : c.Consistent) {e : String × SecondaryIndex}
    (he : e ∈ c.catalog.secondary) (b : String) :
    c.snapshotsAt (c.catalog.lookup e.1 b) =
      c.snapshots.filter fun r => e.2.bucketOf r.fields = b := by
  have hlookup : c.catalog.lookup e.1 b = e.2.lookup b := by
    unfold Catalog.lookup
    rw [(SortedMap.get?_eq_some_iff h.reflects.files.declared.sorted _ _).mpr he]
    rfl
  have hrecords : ∀ records : List Record, (∀ r ∈ records, r ∈ c.live) →
      (records.map (·.position)).filterMap c.recordAt? = records := by
    intro records hlive
    rw [List.filterMap_map]
    calc records.filterMap (c.recordAt? ∘ (·.position)) = records.filterMap some :=
          List.filterMap_congr fun r hr => slotAt_position h (hlive r hr)
      _ = records := List.filterMap_some
  unfold snapshotsAt snapshots
  rw [hlookup, h.lookup_eq he b, hrecords _ fun r hr => (List.mem_filter.mp hr).1,
    List.filter_map]
  rfl

/-- A lookup in the index over the names of the clauses finds what a scan finds, and a lookup
under names with a separator finds nothing. -/
theorem Consistent.lookup_eq_matching (h : c.Consistent) (hq : q.fault? = none)
    (hpredicates : q.hasPredicates = false) (hindex : c.catalog.hasIndex q.signature = true) :
    (¬ q.separated → c.snapshotsAt (c.catalog.lookup q.signature q.bucket) = c.matching q) ∧
      (q.separated → c.snapshotsAt (c.catalog.lookup q.signature q.bucket) = []) := by
  obtain ⟨required, hrequired⟩ := Where.exists_required hpredicates
  obtain ⟨ix, hix⟩ : ∃ ix, (q.signature, ix) ∈ c.catalog.secondary := by
    obtain ⟨e, he, hname⟩ := List.any_eq_true.mp hindex
    exact ⟨e.2, by rwa [← beq_iff_eq.mp hname]⟩
  obtain ⟨hsignature, hcanonical⟩ := h.reflects.files.declared.declared _ hix
  have hfields := Where.fields_of_required hrequired
  have hne := Where.fields_ne_nil hq
  have hne' : required.map Prod.fst ≠ [] := hfields ▸ hne
  have hplain : ∀ name ∈ ix.fields, Bucket.separator ∉ name.toList := fun name hname =>
    (hcanonical.plain name hname).2
  have hbucket : ∀ fields : Fields, ix.bucketOf fields = q.bucket ↔
      (required.map fun e => e.2.bucketText.toList) = Bucket.parts ix.fields fields := fun fields =>
    eq_comm.trans (Where.bucket_eq_ofFields_iff hrequired (by simpa using hne') hcanonical.ne_nil
      fields)
  rw [h.snapshotsAt_lookup hix]
  constructor
  · intro hseparated
    have hnames : ix.fields = required.map Prod.fst := by
      rw [← hfields]
      refine Bucket.signature_inj hcanonical.ne_nil hne hplain (fun name hname hmem => ?_)
        hsignature.symm
      exact hseparated ⟨name, hname, hmem⟩
    unfold matching
    refine List.filter_congr fun r _ => ?_
    rw [Bool.eq_iff_iff, decide_eq_true_iff, hbucket, Where.admits_of_required hrequired, hnames]
  · rintro ⟨name, hname, hmem⟩
    have hlength : q.fields.length < ix.fields.length :=
      Bucket.length_lt_of_signature hne hcanonical.ne_nil hname hmem hplain hsignature
    rw [List.filter_eq_nil_iff]
    intro r _ heq
    have hcounts := congrArg List.length ((hbucket r.fields).mp (of_decide_eq_true heq))
    unfold Bucket.parts at hcounts
    rw [List.length_map, List.length_map] at hcounts
    rw [hfields, List.length_map] at hlength
    omega

/-- What is selected is what a scan finds, unless the clauses are taken for those of an index
because of a separator in a name; then nothing is selected. -/
theorem Consistent.admitted_eq (h : c.Consistent) (hq : q.fault? = none)
    (hpredicates : q.hasPredicates = false) :
    (c.catalog.hasIndex q.signature = true → q.separated → c.admitted q = .ok []) ∧
      ((c.catalog.hasIndex q.signature = true → ¬ q.separated) →
        c.admitted q = .ok (c.matching q)) := by
  obtain ⟨condition, hcompile, hholds⟩ := Where.exists_compile hq
  have hscanned : Plan.scanned condition c.snapshots = c.matching q :=
    List.filter_congr fun r _ => hholds r.fields
  unfold admitted Plan.choose
  rw [hcompile, hpredicates]
  cases hindex : c.catalog.hasIndex q.signature with
  | true =>
    obtain ⟨hplain, hseparated⟩ := h.lookup_eq_matching hq hpredicates hindex
    exact ⟨fun _ hname => congrArg Except.ok (hseparated hname),
      fun hname => congrArg Except.ok (hplain (hname rfl))⟩
  | false =>
    exact ⟨fun hdeclared => absurd hdeclared Bool.false_ne_true,
      fun _ => congrArg Except.ok hscanned⟩

end Contents

namespace Store

variable {s : Store}

/-- After any operations, a where clause without predicates selects the records that satisfy each
clause, in ascending order of positions, just as a scan of the records does; but not if a name
with a separator makes its signature that of a declared index while some record satisfies it, for
then nothing is selected. -/
theorem select_after_operations (hs : s.Fresh) (steps : List (World × Operation)) (w : World)
    (q : Where) (hq : q.fault? = none) (hpredicates : q.hasPredicates = false) :
    let c := (s.after steps).contents
    let selected := ((s.after steps).select w q).result
    (∃ condition, q.compile = .ok condition ∧
      Plan.scanned condition c.snapshots = c.matching q) ∧
    (c.matching q).Pairwise (fun r r' => r.position < r'.position) ∧
    (selected = .ok (c.matching q) ↔
      (c.catalog.hasIndex q.signature = true → q.separated → c.matching q = [])) ∧
    (c.catalog.hasIndex q.signature = true → q.separated → selected = .ok []) := by
  intro c selected
  have hsound := hs.sound.1.after steps
  have hselected : selected = c.admitted q := (select_spec hsound.usable q).1
  obtain ⟨hnothing, hmatching⟩ := hsound.consistent.admitted_eq hq hpredicates
  obtain ⟨condition, hcompile, hholds⟩ := Where.exists_compile hq
  refine ⟨⟨condition, hcompile, List.filter_congr fun r _ => hholds r.fields⟩,
    hsound.consistent.matching_ascends q, ?_, ?_⟩
  · constructor
    · intro heq hindex hseparated
      rw [hselected, hnothing hindex hseparated] at heq
      exact (Except.ok.inj heq).symm
    · intro hempty
      rw [hselected]
      by_cases hmisread : c.catalog.hasIndex q.signature = true ∧ q.separated
      · rw [hnothing hmisread.1 hmisread.2, hempty hmisread.1 hmisread.2]
      · exact hmatching fun hindex hseparated => hmisread ⟨hindex, hseparated⟩
  · intro hindex hseparated
    rw [hselected, hnothing hindex hseparated]

/-- An index over two fields, and a record with a field whose name is the index's signature. -/
def pairIndexed : List (World × Operation) :=
  [(.bare, .declareIndex ["a", "b"]),
    (.bare, .set (some "r") [("a|b", .bool true)] ⟨false, false⟩)]

theorem select_pairIndexed :
    let c := (plain.after pairIndexed).contents
    let one := Where.empty.equals "a" .null
    let both := one.equals "b" .null
    plain.Fresh ∧ one.fault? = none ∧ one.hasPredicates = false ∧ both.fault? = none ∧
      both.hasPredicates = false ∧ c.catalog.hasIndex one.signature = false ∧
      c.catalog.hasIndex both.signature = true ∧ ¬ both.separated ∧
      ((plain.after pairIndexed).select .bare one).result =
        .ok [⟨"r", 0, [("a|b", .bool true)]⟩] ∧
      ((plain.after pairIndexed).select .bare both).result =
        .ok [⟨"r", 0, [("a|b", .bool true)]⟩] := by
  intro c one both
  have hscanned : c.catalog.hasIndex one.signature = false := rfl
  have hindexed : c.catalog.hasIndex both.signature = true := by decide +kernel
  have hplain : ¬ both.separated := by
    unfold Where.separated
    decide +kernel
  obtain ⟨-, -, hone, -⟩ := select_after_operations plain_fresh pairIndexed .bare one rfl rfl
  obtain ⟨-, -, hboth, -⟩ := select_after_operations plain_fresh pairIndexed .bare both rfl rfl
  refine ⟨plain_fresh, rfl, rfl, rfl, rfl, hscanned, hindexed, hplain, ?_, ?_⟩
  · apply hone.mpr
    intro hindex
    exact absurd (hindex.symm.trans hscanned) (by simp)
  · apply hboth.mpr
    intro _ hseparated
    exact absurd hseparated hplain

/-- The record satisfies the clause on its field, and is not selected. -/
theorem select_misses_pairIndexed :
    let c := (plain.after pairIndexed).contents
    let q := Where.empty.equals "a|b" (.bool true)
    plain.Fresh ∧ q.fault? = none ∧ q.hasPredicates = false ∧
      c.matching q = [⟨"r", 0, [("a|b", .bool true)]⟩] ∧
      ((plain.after pairIndexed).select .bare q).result = .ok [] ∧
      ((plain.after pairIndexed).select .bare q).result ≠ .ok (c.matching q) := by
  intro c q
  have hmatching : c.matching q = [⟨"r", 0, [("a|b", .bool true)]⟩] := rfl
  have hselected : ((plain.after pairIndexed).select .bare q).result = .ok [] := rfl
  refine ⟨plain_fresh, rfl, rfl, hmatching, hselected, ?_⟩
  rw [hselected, hmatching]
  exact fun heq => absurd (Except.ok.inj heq) (by simp)

end Store
end IndexedStore
