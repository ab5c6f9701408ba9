import Mathlib.Algebra.GroupWithZero.Nat
import Mathlib.Data.List.Perm.Subperm
import IndexedStore.Index.Consistency
import IndexedStore.Proofs.Contents

/-!
What a check of indexes against slots finds out. It looks for the entries of each record and then
only counts, over all indexes together. That is enough: each index holds at least the entries that
were found, so when the counts add up no index holds any others.
-/
namespace IndexedStore

/-! ### Counting -/

/-- A list that has the elements of another one and is no longer consists of them. -/
theorem perm_iff_of_nodup {α : Type} {l l' : List α} (h : l.Nodup) :
    l'.Perm l ↔ (∀ a ∈ l, a ∈ l') ∧ l'.length = l.length := by
  constructor
  · intro hperm
    exact ⟨fun a ha => hperm.mem_iff.mpr ha, hperm.length_eq⟩
  · rintro ⟨hsubset, hlength⟩
    have hsubperm : l.Subperm l' := h.subperm hsubset
    exact (hsubperm.perm_of_length_le hlength.le).symm

theorem le_sum_of_forall_le {counts : List Nat} {n : Nat} (h : ∀ m ∈ counts, n ≤ m) :
    n * counts.length ≤ counts.sum := by
  induction counts with
  | nil => exact le_rfl
  | cons m rest ih =>
    obtain ⟨hm, hrest⟩ := List.forall_mem_cons.mp h
    have hle := ih hrest
    rw [List.length_cons, List.sum_cons, Nat.mul_succ]
    omega

/-- Counts that are large enough add up to the least possible sum only if none is too large. -/
theorem sum_eq_iff_forall_eq {counts : List Nat} {n : Nat} (h : ∀ m ∈ counts, n ≤ m) :
    counts.sum = n * counts.length ↔ ∀ m ∈ counts, m = n := by
  induction counts with
  | nil => exact ⟨fun _ => nofun, fun _ => rfl⟩
  | cons m rest ih =>
    obtain ⟨hm, hrest⟩ := List.forall_mem_cons.mp h
    have hle := le_sum_of_forall_le hrest
    rw [List.forall_mem_cons, ← ih hrest, List.length_cons, List.sum_cons, Nat.mul_succ]
    omega

namespace Catalog

/-! ### Catalogs after any calls -/

/-- A call that may change a catalog. The records it is given need not be those of a store. -/
inductive Call where
  | declare (names : List String)
  | file (r : Record)
  | unfile (r : Record)
  | reposition (r : Record) (position : Nat)
  | insertPrimary (key : String) (position : Nat)
  | removePrimary (key : String)
  | clear
  | rebuild (records : List Record)

def called (c : Catalog) : Call → Catalog
  | .declare names =>
    match c.declare names with
    | .ok declared => declared.catalog
    | .error _ => c
  | .file r => (c.file r).1
  | .unfile r => (c.unfile r).1
  | .reposition r position => (c.reposition r position).1
  | .insertPrimary key position => c.insertPrimary key position
  | .removePrimary key => c.removePrimary key
  | .clear => c.clear
  | .rebuild records =>
    match (c.rebuild records).1 with
    | .ok fresh => fresh
    | .error _ => c

def after (c : Catalog) (calls : List Call) : Catalog := calls.foldl called c

/-- Keys ascend and every index is well formed, whatever is filed in it. -/
structure Intact (c : Catalog) : Prop where
  primary : SortedMap.Sorted c.primary
  indexes : ∀ e ∈ c.secondary, e.2.WellFormed

variable {c : Catalog}

theorem intact_empty : empty.Intact := ⟨SortedMap.sorted_nil, nofun⟩

theorem Intact.mapIndexes (h : c.Intact) {f : SecondaryIndex → SecondaryIndex}
    (hf : ∀ ix, ix.WellFormed → (f ix).WellFormed) : (c.mapIndexes f).Intact := by
  refine ⟨h.primary, fun e he => ?_⟩
  obtain ⟨d, hd, rfl⟩ := List.mem_map.mp he
  exact hf d.2 (h.indexes d hd)

theorem Intact.modify (h : c.Intact) (signature : String) {f : SecondaryIndex → SecondaryIndex}
    (hf : ∀ ix, ix.WellFormed → (f ix).WellFormed) : (c.modify signature f).Intact := by
  unfold Catalog.modify
  split
  · rename_i ix hix
    refine ⟨h.primary, fun e he => ?_⟩
    rcases SortedMap.mem_insert he with rfl | he
    · exact hf ix (h.indexes _ (SortedMap.mem_of_get? hix))
    · exact h.indexes e he
  · exact h

/-- Changing one index after another, by whatever memberships a record has. -/
theorem Intact.foldl_modify (h : c.Intact) {g : SecondaryIndex → String → SecondaryIndex}
    (hg : ∀ ix bucket, ix.WellFormed → (g ix bucket).WellFormed)
    (memberships : List (String × String)) :
    (memberships.foldl (fun c e => c.modify e.1 fun ix => g ix e.2) c).Intact := by
  induction memberships generalizing c with
  | nil => exact h
  | cons e rest ih => exact ih (h.modify e.1 fun ix => hg ix e.2)

theorem Intact.insertPrimary (h : c.Intact) (key : String) (position : Nat) :
    (c.insertPrimary key position).Intact := ⟨SortedMap.sorted_insert _ _ h.primary, h.indexes⟩

theorem Intact.file (h : c.Intact) (r : Record) : (c.file r).1.Intact :=
  h.mapIndexes (f := fun ix => (ix.insert (ix.bucketOf r.fields) r.position).2) fun _ hix =>
    SecondaryIndex.wellFormed_insert hix _ _

theorem Intact.clear (h : c.Intact) : c.clear.Intact :=
  ⟨SortedMap.sorted_nil,
    (h.mapIndexes (f := SecondaryIndex.clear) fun ix _ =>
      SecondaryIndex.wellFormed_empty ix.fields).indexes⟩

theorem Intact.fileAll (h : c.Intact) {records : List Record} {offset : Nat} {fresh : Catalog}
    (hfresh : (c.fileAll offset records).1 = .ok fresh) : fresh.Intact := by
  induction records generalizing c offset with
  | nil =>
    obtain rfl := Except.ok.inj hfresh
    exact h
  | cons r rest ih =>
    unfold Catalog.fileAll at hfresh
    split_ifs at hfresh
    exact ih ((h.insertPrimary r.key offset).file r) hfresh

theorem Intact.declare (h : c.Intact) {names : List String} {declared : Declared}
    (hdeclared : c.declare names = .ok declared) : declared.catalog.Intact := by
  unfold Catalog.declare at hdeclared
  split at hdeclared
  · exact nomatch hdeclared
  · rename_i fields _
    dsimp only at hdeclared
    split_ifs at hdeclared
    · obtain rfl := Except.ok.inj hdeclared
      exact h
    · obtain rfl := Except.ok.inj hdeclared
      refine ⟨h.primary, fun e he => ?_⟩
      rcases SortedMap.mem_insert he with rfl | he
      · exact SecondaryIndex.wellFormed_empty fields
      · exact h.indexes e he

theorem Intact.called (h : c.Intact) (call : Call) : (c.called call).Intact := by
  cases call with
  | declare names =>
    unfold Catalog.called
    dsimp only
    split
    · rename_i hdeclared
      exact h.declare hdeclared
    · exact h
  | file r => exact h.file r
  | unfile r =>
    exact h.foldl_modify
      (fun ix bucket hix => SecondaryIndex.wellFormed_remove hix bucket r.position) r.memberships
  | reposition r position =>
    unfold Catalog.called Catalog.reposition
    dsimp only
    split_ifs
    · exact h
    · exact (h.foldl_modify
        (fun ix bucket hix => SecondaryIndex.wellFormed_reposition hix bucket r.position position)
        r.memberships).insertPrimary r.key position
  | insertPrimary key position => exact h.insertPrimary key position
  | removePrimary key => exact ⟨SortedMap.sorted_erase _ h.primary, h.indexes⟩
  | clear => exact h.clear
  | rebuild records =>
    unfold Catalog.called
    dsimp only
    split
    · rename_i hfresh
      exact h.clear.fileAll hfresh
    · exact h

theorem Intact.after (h : c.Intact) (calls : List Call) : (c.after calls).Intact := by
  unfold Catalog.after
  induction calls generalizing c with
  | nil => exact h
  | cons call rest ih => exact ih (h.called call)

/-! ### Entries and counts -/

section Entries

variable {live : List Record} {ix : SecondaryIndex}

theorem nodup_map_positions {α : Type} (hlive : live.Pairwise fun r r' => r.position < r'.position)
    (f : Record → α) : (live.map fun r => (f r, r.position)).Nodup := by
  unfold List.Nodup
  rw [List.pairwise_map]
  refine hlive.imp fun {r r'} hlt heq => ?_
  exact Nat.ne_of_lt hlt (Prod.mk.inj heq).2

theorem mem_entries_iff (h : ix.WellFormed) (b : String) (p : Nat) :
    (b, p) ∈ ix.entries ↔ ix.contains b p = true := by
  rw [SecondaryIndex.mem_entries h.sorted, SecondaryIndex.contains_iff]

theorem Intact.primary_perm_iff (h : c.Intact)
    (hlive : live.Pairwise fun r r' => r.position < r'.position) :
    c.primary.Perm (live.map fun r => (r.key, r.position)) ↔
      (∀ r ∈ live, c.position? r.key = some r.position) ∧ c.primary.length = live.length := by
  rw [perm_iff_of_nodup (nodup_map_positions hlive _), List.forall_mem_map, List.length_map]
  refine and_congr_left fun _ => forall₂_congr fun r _ => ?_
  exact (SortedMap.get?_eq_some_iff h.primary r.key r.position).symm

theorem entries_perm_iff (h : ix.WellFormed)
    (hlive : live.Pairwise fun r r' => r.position < r'.position) :
    ix.entries.Perm (live.map fun r => (ix.bucketOf r.fields, r.position)) ↔
      (∀ r ∈ live, ix.contains (ix.bucketOf r.fields) r.position = true) ∧
        ix.count = live.length := by
  rw [perm_iff_of_nodup (nodup_map_positions hlive _), List.forall_mem_map, List.length_map,
    h.counted]
  exact and_congr_left fun _ => forall₂_congr fun r _ => mem_entries_iff h _ _

theorem length_le_count (h : ix.WellFormed)
    (hlive : live.Pairwise fun r r' => r.position < r'.position)
    (hfound : ∀ r ∈ live, ix.contains (ix.bucketOf r.fields) r.position = true) :
    live.length ≤ ix.count := by
  have hnodup := nodup_map_positions hlive fun r => ix.bucketOf r.fields
  have hsubset : (live.map fun r => (ix.bucketOf r.fields, r.position)) ⊆ ix.entries :=
    List.forall_mem_map.mpr fun r hr => (mem_entries_iff h _ _).mpr (hfound r hr)
  have hle := (hnodup.subperm hsubset).length_le
  rwa [List.length_map, ← h.counted] at hle

/-- When all indexes together hold as many entries as records need, and the entries of each record
are among them, each index holds just those. -/
theorem Intact.secondary_perm_iff (h : c.Intact)
    (hlive : live.Pairwise fun r r' => r.position < r'.position) :
    (∀ e ∈ c.secondary,
      e.2.entries.Perm (live.map fun r => (e.2.bucketOf r.fields, r.position))) ↔
      (∀ e ∈ c.secondary, ∀ r ∈ live,
        e.2.contains (e.2.bucketOf r.fields) r.position = true) ∧
      (c.secondary.map fun e => e.2.count).sum = live.length * c.secondary.length := by
  have hindexes : (∀ e ∈ c.secondary,
      e.2.entries.Perm (live.map fun r => (e.2.bucketOf r.fields, r.position))) ↔
      (∀ e ∈ c.secondary, ∀ r ∈ live,
        e.2.contains (e.2.bucketOf r.fields) r.position = true) ∧
      ∀ e ∈ c.secondary, e.2.count = live.length := by
    rw [← forall₂_and]
    exact forall₂_congr fun e he => entries_perm_iff (h.indexes e he) hlive
  rw [hindexes]
  refine and_congr_right fun hfound => ?_
  have hle : ∀ n ∈ c.secondary.map fun e => e.2.count, live.length ≤ n :=
    List.forall_mem_map.mpr fun e he => length_le_count (h.indexes e he) hlive (hfound e he)
  rw [← List.forall_mem_map (P := (· = live.length)), ← sum_eq_iff_forall_eq hle, List.length_map]

end Entries

/-! ### Problems -/

/-- The indexes hold the entries of the records in the slots and no others, and each record has the
position of its slot. -/
structure Describes (c : Catalog) (slots : List (Option Record)) : Prop where
  position : ∀ (i : Nat) (r : Record), slots[i]? = some (some r) → r.position = i
  primary : c.primary.Perm ((slots.filterMap id).map fun r : Record => (r.key, r.position))
  secondary : ∀ e ∈ c.secondary,
    e.2.entries.Perm
      ((slots.filterMap id).map fun r : Record => (e.2.bucketOf r.fields, r.position))

structure Found (c : Catalog) (offset : Nat) (r : Record) : Prop where
  position : r.position = offset
  primary : c.position? r.key = some r.position
  secondary : ∀ e ∈ c.secondary, e.2.contains (e.2.bucketOf r.fields) r.position = true

theorem problem_eq_nil_iff (p : Prop) [Decidable p] (problem : Problem) :
    (if p then [problem] else []) = [] ↔ ¬ p := by
  split_ifs with hp <;> simp [hp]

theorem slotProblems_eq_nil_iff (c : Catalog) (offset : Nat) (r : Record) :
    c.slotProblems offset r = [] ↔ c.Found offset r := by
  unfold slotProblems
  rw [List.append_eq_nil_iff, List.append_eq_nil_iff, problem_eq_nil_iff, problem_eq_nil_iff,
    not_not, not_not, List.filterMap_eq_nil_iff]
  constructor
  · rintro ⟨⟨hposition, hprimary⟩, hsecondary⟩
    refine ⟨hposition, hprimary, fun e he => ?_⟩
    by_contra hmissing
    have hnone := hsecondary e he
    dsimp only at hnone
    rw [if_neg hmissing] at hnone
    exact Option.some_ne_none _ hnone
  · intro hfound
    refine ⟨⟨hfound.position, hfound.primary⟩, fun e he => ?_⟩
    dsimp only
    rw [if_pos (hfound.secondary e he)]

theorem slotsProblems_eq_nil_iff (c : Catalog) (slots : List (Option Record)) (offset : Nat) :
    c.slotsProblems offset slots = [] ↔
      ∀ i r, Contents.slotAt slots i = some r → c.Found (offset + i) r := by
  induction slots generalizing offset with
  | nil => exact ⟨fun _ _ _ => nofun, fun _ => rfl⟩
  | cons o rest ih =>
    have hrest : c.slotsProblems (offset + 1) rest = [] ↔
        ∀ i r, Contents.slotAt (o :: rest) (i + 1) = some r → c.Found (offset + (i + 1)) r := by
      rw [ih]
      refine forall₂_congr fun i r => ?_
      rw [Contents.slotAt_cons_succ, Nat.add_right_comm, Nat.add_assoc]
    have hfirst : (∀ r, Contents.slotAt (o :: rest) 0 = some r → c.Found (offset + 0) r) ↔
        ∀ r, o = some r → c.Found offset r := Iff.rfl
    rw [← Nat.and_forall_add_one, ← hrest, hfirst]
    cases o with
    | none => exact ⟨fun h => ⟨fun _ => nofun, h⟩, And.right⟩
    | some r =>
      rw [slotsProblems, List.append_eq_nil_iff, slotProblems_eq_nil_iff]
      simp only [Option.some.injEq, forall_eq']

/-- A check that finds no problem leaves nothing out, though it looks for no entry that should not
be there. -/
theorem Intact.problems_eq_nil_iff (h : c.Intact) (slots : List (Option Record)) :
    c.problems slots = [] ↔ c.Describes slots := by
  have hlength : (slots.filter Option.isSome).length = (slots.filterMap id).length := by
    rw [List.length_filterMap_eq_countP, List.countP_eq_length_filter]
    rfl
  have hheld : c.secondary.foldl (fun n e => n + e.2.count) 0 =
      (c.secondary.map fun e => e.2.count).sum := by
    rw [List.sum_eq_foldl, List.foldl_map]
  have hslots := Contents.mem_records_iff slots
  have hat (i : Nat) (r : Record) :
      Contents.slotAt slots i = some r ↔ slots[i]? = some (some r) := Option.join_eq_some_iff
  have hascend (hposition : ∀ i r, Contents.slotAt slots i = some r → r.position = i) :
      (slots.filterMap id).Pairwise fun r r' => r.position < r'.position :=
    Contents.positions_ascend slots 0 fun i r hr => by rw [hposition i r hr, Nat.zero_add]
  unfold problems
  dsimp only
  rw [List.append_eq_nil_iff, List.append_eq_nil_iff, problem_eq_nil_iff, problem_eq_nil_iff,
    not_not, not_not, slotsProblems_eq_nil_iff, hlength]
  change (_ ∧ _) ∧ c.secondary.foldl (fun n e => n + e.2.count) 0 = _ ↔ _
  rw [hheld]
  constructor
  · rintro ⟨⟨hfound, hprimary⟩, hsecondary⟩
    simp only [Nat.zero_add] at hfound
    have hlive := hascend fun i r hr => (hfound i r hr).position
    refine ⟨?_, (h.primary_perm_iff hlive).mpr ⟨fun r hr => ?_, hprimary⟩,
      (h.secondary_perm_iff hlive).mpr ⟨fun e he r hr => ?_, hsecondary⟩⟩
    · exact fun i r hr => (hfound i r ((hat i r).mpr hr)).position
    · obtain ⟨i, hi⟩ := (hslots r).mp hr
      exact (hfound i r hi).primary
    · obtain ⟨i, hi⟩ := (hslots r).mp hr
      exact (hfound i r hi).secondary e he
  · intro hdescribes
    have hposition : ∀ i r, Contents.slotAt slots i = some r → r.position = i :=
      fun i r hr => hdescribes.position i r ((hat i r).mp hr)
    obtain ⟨hkeys, hprimary⟩ := (h.primary_perm_iff (hascend hposition)).mp hdescribes.primary
    obtain ⟨hentries, hsecondary⟩ :=
      (h.secondary_perm_iff (hascend hposition)).mp hdescribes.secondary
    refine ⟨⟨fun i r hr => ?_, hprimary⟩, hsecondary⟩
    have hr' := (hslots r).mpr ⟨i, hr⟩
    rw [Nat.zero_add]
    exact ⟨hposition i r hr, hkeys r hr', fun e he => hentries e he r hr'⟩

theorem Describes.nodup_keys {slots : List (Option Record)} (h : c.Intact)
    (hdescribes : c.Describes slots) :
    ((slots.filterMap id).map fun r : Record => r.key).Nodup := by
  have hnames : (c.primary.map Prod.fst).Nodup :=
    (SortedMap.sorted_names h.primary).imp ne_of_lt
  have hkeys := hdescribes.primary.map Prod.fst
  rw [List.map_map] at hkeys
  exact hkeys.nodup_iff.mp hnames

/-- After any calls with any records, a check against any slots finds no problem exactly if the
primary index is the map from the keys of the records in the slots to their positions, each
index holds their entries and no others, and the records have the positions of their slots. Their
keys then differ. -/
theorem problems_after_calls (calls : List Call) (slots : List (Option Record)) :
    ((empty.after calls).problems slots = [] ↔ (empty.after calls).Describes slots) ∧
    ((empty.after calls).Describes slots →
      ((slots.filterMap id).map fun r : Record => r.key).Nodup) := by
  have h : (empty.after calls).Intact := intact_empty.after calls
  exact ⟨h.problems_eq_nil_iff slots, Describes.nodup_keys h⟩

def filed : List Call :=
  [.declare ["a"], .declare ["b"], .insertPrimary "k" 0,
    .file ⟨0, "k", [("a", .text "x"), ("b", .text "x")], []⟩]

/-- The record is filed again with other fields and then taken out of both buckets of one index, so
the entry that is left over in the other index makes up for the missing one. -/
def leftOver : List Call :=
  filed ++ [.file ⟨0, "k", [("a", .text "y"), ("b", .text "y")], []⟩,
    .unfile ⟨0, "k", [], [("a", "x"), ("a", "y")]⟩]

theorem problems_after_leftOver :
    let slots := [some ⟨0, "k", [("a", .text "x"), ("b", .text "x")], []⟩]
    (empty.after filed).problems slots = [] ∧ (empty.after filed).Describes slots ∧
      ((slots.filterMap id).map fun r : Record => r.key).Nodup ∧
      (empty.after leftOver).problems slots = [.missing "a" "x" 0] ∧
      ¬ (empty.after leftOver).Describes slots := by
  intro slots
  have hnone : (empty.after filed).problems slots = [] := by decide +kernel
  have hproblems : (empty.after leftOver).problems slots = [.missing "a" "x" 0] := by
    decide +kernel
  have hdescribes := (problems_after_calls filed slots).1.mp hnone
  refine ⟨hnone, hdescribes, (problems_after_calls filed slots).2 hdescribes, hproblems,
    fun hothers => ?_⟩
  exact nomatch hproblems.symm.trans ((problems_after_calls leftOver slots).1.mpr hothers)

end Catalog
end IndexedStore
