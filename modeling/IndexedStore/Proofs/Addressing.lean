import Mathlib.Data.List.Perm.Subperm
import IndexedStore.Proofs.Determined
import IndexedStore.Proofs.Runs

/-!
What the ways of naming records come to, told from the records alone. Keys, positions, words and
lists of them name the same records whatever slots are empty. A range passes over records and not
over positions, so it agrees with positions only where none before it is free.
-/
namespace IndexedStore

/-- A target names one of some records. A word names the record with that key, and where none has
it, the record at the position that the word spells. -/
inductive Target.Names (all : List Snapshot) : Target → Snapshot → Prop
  | key {key : String} {r : Snapshot} (h : r ∈ all) (hkey : r.key = key) : Names all (.key key) r
  | position {p : Nat} {r : Snapshot} (h : r ∈ all) (hp : r.position = p) :
    Names all (.position p) r
  | word {word : String} {r : Snapshot} (h : r ∈ all) (hkey : r.key = word) :
    Names all (.token word) r
  | number {word : String} {p : Nat} {r : Snapshot} (hnone : ∀ r' ∈ all, r'.key ≠ word)
    (hword : Text.natural? word.toList = some p) (h : r ∈ all) (hp : r.position = p) :
    Names all (.token word) r

/-- What reading targets comes to: the records that they name, in the order of the targets, or the
failure of the first one that names none. -/
inductive Target.Finds (all : List Snapshot) :
    List Target → Except StoreError (List Snapshot) → Prop
  | done : Finds all [] (.ok [])
  | missed {target : Target} {rest : List Target} (h : ∀ r, ¬target.Names all r) :
    Finds all (target :: rest) (.error (.recordNotFound target.describe))
  | found {target : Target} {rest : List Target} {r : Snapshot}
    {result : Except StoreError (List Snapshot)} (h : target.Names all r)
    (hrest : Finds all rest result) : Finds all (target :: rest) (result.map (r :: ·))

namespace Target

variable {all : List Snapshot} {target : Target} {targets : List Target} {r r' : Snapshot}

/-- Among records with different keys and different positions, a target names one at most. -/
theorem Names.unique (hkeys : (all.map Snapshot.key).Nodup)
    (hpositions : (all.map Snapshot.position).Nodup) (h : target.Names all r)
    (h' : target.Names all r') : r = r' := by
  cases h with
  | key hr hkey =>
    obtain ⟨hr', hkey'⟩ | _ := h'
    exact List.inj_on_of_nodup_map hkeys hr hr' (hkey.trans hkey'.symm)
  | position hr hp =>
    obtain _ | ⟨hr', hp'⟩ := h'
    exact List.inj_on_of_nodup_map hpositions hr hr' (hp.trans hp'.symm)
  | word hr hkey =>
    cases h' with
    | word hr' hkey' => exact List.inj_on_of_nodup_map hkeys hr hr' (hkey.trans hkey'.symm)
    | number hnone => exact absurd hkey (hnone _ hr)
  | number hnone hword hr hp =>
    cases h' with
    | word hr' hkey' => exact absurd hkey' (hnone _ hr')
    | number _ hword' hr' hp' =>
      obtain rfl := Option.some.inj (hword.symm.trans hword')
      exact List.inj_on_of_nodup_map hpositions hr hr' (hp.trans hp'.symm)

/-- What a search by some part of a record finds. -/
theorem mem_of_find?_eq {α : Type} [DecidableEq α] {part : Snapshot → α} {a : α}
    (h : all.find? (part · == a) = some r) : r ∈ all ∧ part r = a :=
  ⟨List.mem_of_find?_eq_some h, by simpa using List.find?_some h⟩

theorem names_of_named (h : target.named all = some r) : target.Names all r := by
  cases target with
  | key key =>
    obtain ⟨hr, hkey⟩ := mem_of_find?_eq h
    exact .key hr hkey
  | position p =>
    obtain ⟨hr, hp⟩ := mem_of_find?_eq h
    exact .position hr hp
  | token word =>
    unfold named at h
    rcases Option.or_eq_some_iff.mp h with h | ⟨hnone, h⟩
    · obtain ⟨hr, hkey⟩ := mem_of_find?_eq h
      exact .word hr hkey
    · obtain ⟨p, hword, h⟩ := Option.bind_eq_some_iff.mp h
      obtain ⟨hr, hp⟩ := mem_of_find?_eq h
      have hnone : ∀ r' ∈ all, r'.key ≠ word := fun r' hr' hkey' =>
        List.find?_eq_none.mp hnone r' hr' (beq_iff_eq.mpr hkey')
      exact .number hnone hword hr hp

theorem not_names_of_named (h : target.named all = none) (r : Snapshot) : ¬target.Names all r := by
  intro hnames
  cases hnames with
  | key hr hkey => exact List.find?_eq_none.mp h r hr (beq_iff_eq.mpr hkey)
  | position hr hp => exact List.find?_eq_none.mp h r hr (beq_iff_eq.mpr hp)
  | word hr hkey =>
    have hnone := (Option.or_eq_none_iff.mp h).1
    exact List.find?_eq_none.mp hnone r hr (beq_iff_eq.mpr hkey)
  | number _ hword hr hp =>
    have hnone := (Option.or_eq_none_iff.mp h).2
    rw [hword, Option.bind_some] at hnone
    exact List.find?_eq_none.mp hnone r hr (beq_iff_eq.mpr hp)

/-- A read succeeds exactly when every target names a record. -/
theorem Finds.ok_iff {result : Except StoreError (List Snapshot)}
    (h : Finds all targets result) :
    (∃ found, result = .ok found) ↔ ∀ target ∈ targets, ∃ r, target.Names all r := by
  induction h with
  | done => exact ⟨fun _ _ hmem => absurd hmem List.not_mem_nil, fun _ => ⟨[], rfl⟩⟩
  | missed hnone =>
    refine ⟨fun ⟨_, herror⟩ => (nomatch herror), fun hall => ?_⟩
    obtain ⟨r, hr⟩ := hall _ List.mem_cons_self
    exact absurd hr (hnone r)
  | @found target rest r result hr hrest ih =>
    rw [List.forall_mem_cons, ← ih]
    cases result with
    | error e =>
      exact ⟨fun ⟨_, herror⟩ => (nomatch herror), fun ⟨_, _, herror⟩ => (nomatch herror)⟩
    | ok found => exact ⟨fun _ => ⟨⟨r, hr⟩, found, rfl⟩, fun _ => ⟨r :: found, rfl⟩⟩

end Target

/-! ### Ranges -/

section Ranges

variable {all : List Snapshot}

/-- In the order of positions, the records from a position on are what is left when those below it
are passed over. -/
theorem filter_le_position (h : all.Pairwise fun a b => a.position < b.position) (start : Nat) :
    all.filter (start ≤ ·.position) = all.drop (all.countP (·.position < start)) := by
  induction all with
  | nil => rfl
  | cons r rest ih =>
    obtain ⟨hlater, hrest⟩ := List.pairwise_cons.mp h
    by_cases hr : r.position < start
    · rw [List.filter_cons_of_neg (by simpa using hr), List.countP_cons_of_pos (by simpa using hr),
        List.drop_succ_cons, ih hrest]
    · have hall : ∀ r' ∈ r :: rest, start ≤ r'.position := by
        intro r' hr'
        rcases List.mem_cons.mp hr' with rfl | hr'
        · exact Nat.le_of_not_lt hr
        · exact (Nat.le_of_not_lt hr).trans (hlater r' hr').le
      rw [List.filter_eq_self.mpr fun r' hr' => decide_eq_true (hall r' hr'),
        List.countP_eq_zero.mpr fun r' hr' => by simpa using hall r' hr', List.drop_zero]

/-- There are as many records below a position as there are positions exactly when none of those
is free. -/
theorem countP_position_eq_iff (h : all.Pairwise fun a b => a.position < b.position)
    (start : Nat) :
    all.countP (·.position < start) ≤ start ∧
      (all.countP (·.position < start) = start ↔ ∀ p < start, ∃ r ∈ all, r.position = p) := by
  have hlength : ((all.filter (·.position < start)).map Snapshot.position).length =
      all.countP (·.position < start) := by
    rw [List.length_map, List.countP_eq_length_filter]
  have hnodup : ((all.filter (·.position < start)).map Snapshot.position).Nodup :=
    List.pairwise_map.mpr ((h.filter _).imp ne_of_lt)
  have hbelow : (all.filter (·.position < start)).map Snapshot.position ⊆ List.range start := by
    intro p hp
    obtain ⟨r, hr, rfl⟩ := List.mem_map.mp hp
    exact List.mem_range.mpr (of_decide_eq_true (List.mem_filter.mp hr).2)
  have hsubperm := hnodup.subperm hbelow
  have hle := hsubperm.length_le
  rw [List.length_range] at hle
  rw [← hlength]
  refine ⟨hle, fun heq p hp => ?_, fun hall => ?_⟩
  · have hperm := hsubperm.perm_of_length_le (by rw [heq, List.length_range])
    obtain ⟨r, hr, hposition⟩ := List.mem_map.mp (hperm.mem_iff.mpr (List.mem_range.mpr hp))
    exact ⟨r, (List.mem_filter.mp hr).1, hposition⟩
  · have habove : List.range start ⊆ (all.filter (·.position < start)).map Snapshot.position := by
      intro p hp
      obtain ⟨r, hr, rfl⟩ := hall p (List.mem_range.mp hp)
      exact List.mem_map_of_mem
        (List.mem_filter.mpr ⟨hr, decide_eq_true (List.mem_range.mp hp)⟩)
    have hge := (List.nodup_range.subperm habove).length_le
    rw [List.length_range] at hge
    exact hle.antisymm hge

/-- Pages of a list from two places on are the same when they are empty or the places are. -/
theorem take_drop_eq_iff {α : Type} {l : List α} (h : l.Nodup) {m n : Nat} (hmn : m ≤ n)
    (count : Nat) :
    (l.drop n).take count = (l.drop m).take count ↔ count = 0 ∨ l.length ≤ m ∨ m = n := by
  constructor
  · intro heq
    by_contra hnot
    simp only [not_or, not_le] at hnot
    obtain ⟨hcount, hm, hne⟩ := hnot
    have hheads := congrArg List.head? heq
    rw [List.head?_take, List.head?_take, if_neg hcount, if_neg hcount, List.head?_drop,
      List.head?_drop, List.getElem?_eq_getElem hm] at hheads
    obtain ⟨hn, hget⟩ := List.getElem?_eq_some_iff.mp hheads
    exact hne (h.getElem_inj_iff.mp hget).symm
  · rintro (rfl | hlength | rfl)
    · rw [List.take_zero, List.take_zero]
    · rw [List.drop_eq_nil_of_le hlength, List.drop_eq_nil_of_le (hlength.trans hmn)]
    · rfl

/-- Passing over the first records is passing over the positions below exactly when none of those
is free, unless the page is empty anyhow. -/
theorem range_eq_iff (h : all.Pairwise fun a b => a.position < b.position) (start count : Nat) :
    (all.drop start).take count = (all.filter (start ≤ ·.position)).take count ↔
      count = 0 ∨ (∀ r ∈ all, r.position < start) ∨ ∀ p < start, ∃ r ∈ all, r.position = p := by
  obtain ⟨hle, hfree⟩ := countP_position_eq_iff h start
  have hnodup : all.Nodup := h.imp fun hlt heq => absurd (heq ▸ hlt) (lt_irrefl _)
  rw [filter_le_position h, take_drop_eq_iff hnodup hle, hfree]
  have hnone : all.length ≤ all.countP (·.position < start) ↔ ∀ r ∈ all, r.position < start := by
    rw [List.countP_le_length.ge_iff_eq, List.countP_eq_length]
    simp only [decide_eq_true_eq]
  rw [hnone]

end Ranges

namespace Store

variable {s : Store} {w : World}

/-- Reading targets one after the other finds what they name. -/
theorem Sound.finds_mapM (h : s.Sound) (targets : List Target) :
    Target.Finds s.contents.snapshots targets (targets.mapM s.findTarget) := by
  induction targets with
  | nil => exact .done
  | cons target rest ih =>
    rw [List.mapM_cons]
    have hnamed := h.consistent.find?_snapshot target
    rw [findTarget]
    cases hfound : s.contents.find? target with
    | none =>
      rw [hfound] at hnamed
      exact .missed (Target.not_names_of_named hnamed.symm)
    | some r =>
      rw [hfound] at hnamed
      have hfinds := Target.Finds.found (Target.names_of_named hnamed.symm) ih
      cases hrest : rest.mapM s.findTarget with
      | error e =>
        rw [hrest] at hfinds
        exact hfinds
      | ok found =>
        rw [hrest] at hfinds
        exact hfinds

/-- A single target is found as a list of one is. -/
theorem Sound.finds_single (h : s.Sound) (target : Target) :
    Target.Finds s.contents.snapshots [target] ((s.findTarget target).map ([·])) := by
  have hfinds := h.finds_mapM [target]
  rw [List.mapM_cons] at hfinds
  cases hfound : s.findTarget target with
  | error e =>
    rw [hfound] at hfinds
    exact hfinds
  | ok r =>
    rw [hfound] at hfinds
    exact hfinds

/-- Without empty slots no position before a record is free. -/
theorem occupied_of_holes {c : Contents} (h : c.Consistent) (hholes : c.holes = 0) (start : Nat) :
    (∀ r ∈ c.snapshots, r.position < start) ∨
      ∀ p < start, ∃ r ∈ c.snapshots, r.position = p := by
  have hsnapshots := h.snapshots_eq hholes
  have hpositions : ∀ r ∈ c.snapshots, r.position < c.entries.length := by
    intro r hr
    rw [hsnapshots] at hr
    obtain ⟨i, hi, rfl⟩ := List.mem_mapIdx.mp hr
    exact hi
  rcases Nat.le_total c.entries.length start with hstart | hstart
  · exact Or.inl fun r hr => (hpositions r hr).trans_le hstart
  · refine Or.inr fun p hp => ?_
    have hlt : p < c.entries.length := hp.trans_le hstart
    exact ⟨⟨c.entries[p].1, p, c.entries[p].2⟩,
      hsnapshots ▸ List.mem_mapIdx.mpr ⟨p, hlt, rfl⟩, rfl⟩

/-- After any operations, keys, positions, words and lists of them find the records that they
name among all records. A range passes over the first records: they are the ones at the positions
below its start exactly when none of these positions is free, unless the page is empty anyhow. -/
theorem found_after_operations (hs : s.Fresh) (steps : List (World × Operation)) (w : World) :
    let t := s.after steps
    ∃ all : List Snapshot, (t.get w .all).result = .ok all ∧
      all.Pairwise (fun a b => a.position < b.position) ∧
      (∀ (target : Target) (r r' : Snapshot),
        target.Names all r → target.Names all r' → r = r') ∧
      (∀ key, Target.Finds all [.key key] (t.get w (.key key)).result) ∧
      (∀ p, Target.Finds all [.position p] (t.get w (.position p)).result) ∧
      (∀ targets, Target.Finds all targets (t.get w (.list targets)).result ∧
        ((∃ found, (t.get w (.list targets)).result = .ok found) ↔
          ∀ target ∈ targets, ∃ r, target.Names all r)) ∧
      (∀ start count,
        (t.get w (.range start count)).result = .ok ((all.drop start).take count) ∧
        ((t.get w (.range start count)).result =
            .ok ((all.filter (start ≤ ·.position)).take count) ↔
          count = 0 ∨ (∀ r ∈ all, r.position < start) ∨
            ∀ p < start, ∃ r ∈ all, r.position = p)) ∧
      (s.gapsAfter false steps = false → ∀ start count,
        (t.get w (.range start count)).result =
          .ok ((all.filter (start ≤ ·.position)).take count)) := by
  intro t
  have ht : t.Sound := hs.sound.1.after steps
  have hresult (selector : Selector) : (t.get w selector).result = t.selected selector :=
    (get_alike ht.usable selector).1
  have hascend := ht.consistent.snapshots_ascend
  have hkeys : (t.contents.snapshots.map Snapshot.key).Nodup := by
    have hnodup := ht.consistent.keys_nodup
    unfold Contents.snapshots
    rwa [List.map_map]
  have hpositions : (t.contents.snapshots.map Snapshot.position).Nodup :=
    List.pairwise_map.mpr (hascend.imp ne_of_lt)
  have hrange (start count : Nat) :
      (t.get w (.range start count)).result =
          .ok ((t.contents.snapshots.filter (start ≤ ·.position)).take count) ↔
        count = 0 ∨ (∀ r ∈ t.contents.snapshots, r.position < start) ∨
          ∀ p < start, ∃ r ∈ t.contents.snapshots, r.position = p := by
    rw [hresult, ← range_eq_iff hascend]
    exact Iff.of_eq (Except.ok.injEq ..)
  refine ⟨t.contents.snapshots, hresult .all, hascend,
    fun target r r' h h' => h.unique hkeys hpositions h', fun key => ?_, fun p => ?_,
    fun targets => ?_, fun start count => ⟨hresult (.range start count), hrange start count⟩,
    fun hgaps start count => ?_⟩
  · rw [hresult]
    exact ht.finds_single (.key key)
  · rw [hresult]
    exact ht.finds_single (.position p)
  · rw [hresult]
    exact ⟨ht.finds_mapM targets, (ht.finds_mapM targets).ok_iff⟩
  · have hholes := hs.sound.1.after_holes steps false (fun _ => hs.sound.2.1) hgaps
    exact (hrange start count).mpr (Or.inr (occupied_of_holes ht.consistent hholes start))

def firstGone : List (World × Operation) :=
  [(.bare, .set (some "a") [] ⟨false, false⟩), (.bare, .set (some "2") [] ⟨false, false⟩),
    (.bare, .set (some "c") [] ⟨false, false⟩), (.bare, .delete (.key "a") ⟨true, false⟩)]

/-- A word that is a key does not name the record at that position; with the slots closed again,
ranges go by positions. -/
theorem found_after_firstGone :
    let t := plain.after firstGone
    let closed := plain.after (firstGone ++ [(.bare, .reindex)])
    plain.Fresh ∧ plain.gapsAfter false (firstGone ++ [(.bare, .reindex)]) = false ∧
      (∃ all, (t.get .bare .all).result = .ok all ∧
        Target.Finds all [.token "2", .token "1"]
          (t.get .bare (.list [.token "2", .token "1"])).result) ∧
      (t.get .bare (.list [.token "2", .token "1"])).result = .ok [⟨"2", 1, []⟩, ⟨"2", 1, []⟩] ∧
      (t.get .bare (.list [.token "2", .token "0"])).result = .error (.recordNotFound "0") ∧
      ∃ all, (closed.get .bare .all).result = .ok all ∧
        (closed.get .bare (.range 1 1)).result =
          .ok ((all.filter (1 ≤ ·.position)).take 1) := by
  intro t closed
  have hgaps : plain.gapsAfter false (firstGone ++ [(.bare, .reindex)]) = false := rfl
  obtain ⟨all, hall, -, -, -, -, hlist, -, -⟩ :=
    found_after_operations plain_fresh firstGone .bare
  obtain ⟨all', hall', -, -, -, -, -, -, hpages⟩ :=
    found_after_operations plain_fresh (firstGone ++ [(.bare, .reindex)]) .bare
  exact ⟨plain_fresh, hgaps, ⟨all, hall, (hlist _).1⟩, rfl, rfl, all', hall', hpages hgaps 1 1⟩

/-- Position 0 is free, so passing over one record passes over position 1. -/
theorem range_misses_firstGone :
    let t := plain.after firstGone
    plain.Fresh ∧ (t.get .bare .all).result = .ok [⟨"2", 1, []⟩, ⟨"c", 2, []⟩] ∧
      (t.get .bare (.range 1 1)).result = .ok [⟨"c", 2, []⟩] ∧
      ([⟨"2", 1, []⟩, ⟨"c", 2, []⟩].filter fun r : Snapshot => 1 ≤ r.position).take 1 =
        [⟨"2", 1, []⟩] ∧
      (t.get .bare (.range 1 1)).result ≠ .ok [⟨"2", 1, []⟩] := by
  intro t
  have hrange : (t.get .bare (.range 1 1)).result = .ok [⟨"c", 2, []⟩] := rfl
  refine ⟨plain_fresh, rfl, hrange, rfl, ?_⟩
  rw [hrange]
  simp

end Store
end IndexedStore
