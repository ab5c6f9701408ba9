import IndexedStore.Proofs.Steps

/-!
The contents of a store as a plain list of keys and fields in the order in which the keys came
in. Storing changes a pair in place or adds one at the end, and deleting takes one pair out,
whatever becomes of slots and positions.
-/
namespace IndexedStore

def Contents.fieldsAfter (data : Fields) (overwrite : Bool) : Option Fields → Fields
  | some current => mergedFields current data overwrite
  | none => data

/-- Keys with what stands under them, each key once, the latest added key last. -/
abbrev Ledger (α : Type) := List (String × α)

namespace Ledger

variable {α β : Type}

/-- What stands under a key changed in place, or put at the end. What comes to stand there is made
from what stood there before, if anything did. -/
def put (l : Ledger α) (key : String) (next : Option α → α) : Ledger α :=
  if key ∈ l.map Prod.fst then
    l.map fun e => if e.1 = key then (key, next (some e.2)) else e
  else l ++ [(key, next none)]

def erase (l : Ledger α) (key : String) : Ledger α := l.filter (·.1 ≠ key)

def mapped (f : α → β) (l : Ledger α) : Ledger β := l.map fun e => (e.1, f e.2)

def itemApplied (l : Ledger Fields) : BatchItem → Ledger Fields
  | .store key data => l.put key (Contents.fieldsAfter data false)
  | .remove key => l.erase key

def itemsApplied (l : Ledger Fields) (ready : List (Except StoreError BatchItem)) :
    Ledger Fields :=
  (ready.filterMap Except.toOption).foldl itemApplied l

@[simp] theorem keys_mapped (f : α → β) (l : Ledger α) :
    (l.mapped f).map Prod.fst = l.map Prod.fst := by
  simp [mapped]

theorem lookup_mapped (f : α → β) (l : Ledger α) (key : String) :
    (l.mapped f).lookup key = (l.lookup key).map f := by
  induction l with
  | nil => rfl
  | cons e rest ih =>
    obtain ⟨name, x⟩ := e
    unfold mapped at ih ⊢
    rw [List.map_cons, List.lookup_cons, List.lookup_cons]
    by_cases hkey : key = name
    · simp [hkey]
    · have hne : (key == name) = false := by simpa using hkey
      simp only [hne]
      exact ih

theorem lookup_isSome_iff {l : Ledger α} {key : String} :
    (l.lookup key).isSome ↔ key ∈ l.map Prod.fst := by
  simp only [List.lookup_isSome_iff, beq_iff_eq, List.mem_map]
  constructor
  · rintro ⟨e, he, rfl⟩
    exact ⟨e, he, rfl⟩
  · rintro ⟨e, he, rfl⟩
    exact ⟨e, he, rfl⟩

/-- Putting something under a key goes along with a change of all that stands in the list. -/
theorem mapped_put {f : α → β} {next : Option α → α} {next' : Option β → β}
    (h : ∀ o, f (next o) = next' (o.map f)) (l : Ledger α) (key : String) :
    (l.put key next).mapped f = (l.mapped f).put key next' := by
  unfold put
  rw [keys_mapped]
  by_cases hmem : key ∈ l.map Prod.fst
  · rw [if_pos hmem, if_pos hmem]
    unfold mapped
    rw [List.map_map, List.map_map]
    apply List.map_congr_left
    intro e _
    by_cases hkey : e.1 = key
    · simp [hkey, h]
    · simp [hkey]
  · rw [if_neg hmem, if_neg hmem]
    simp [mapped, h]

theorem mapped_erase (f : α → β) (l : Ledger α) (key : String) :
    (l.erase key).mapped f = (l.mapped f).erase key := by
  unfold erase mapped
  rw [List.filter_map]
  rfl

theorem keys_put (l : Ledger α) (key : String) (next : Option α → α) :
    (l.put key next).map Prod.fst =
      if key ∈ l.map Prod.fst then l.map Prod.fst else l.map Prod.fst ++ [key] := by
  unfold put
  split_ifs
  · rw [List.map_map]
    apply List.map_congr_left
    intro e _
    simp only [Function.comp_apply]
    split_ifs with heq
    · exact heq.symm
    · rfl
  · exact List.map_append

theorem keys_erase {l : Ledger α} (hl : (l.map Prod.fst).Nodup) (key : String) :
    (l.erase key).map Prod.fst = (l.map Prod.fst).erase key := by
  rw [hl.erase_eq_filter, List.filter_map]
  unfold erase
  congr 1
  apply List.filter_congr
  intro e _
  by_cases heq : e.1 = key <;> simp [heq]

theorem put_of_not_mem {l : Ledger α} {key : String} (h : key ∉ l.map Prod.fst)
    (next : Option α → α) : l.put key next = l ++ [(key, next none)] := by
  unfold put
  rw [if_neg h]

theorem map_of_not_mem {l : Ledger α} {key : String} (h : key ∉ l.map Prod.fst)
    (change : α → α) :
    l.map (fun e => if e.1 = key then (key, change e.2) else e) = l := by
  conv_rhs => rw [← List.map_id l]
  refine List.map_congr_left fun e he => ?_
  rw [if_neg fun heq => h (List.mem_map.mpr ⟨e, he, heq⟩)]
  rfl

theorem put_split {l m : Ledger α} {key : String} (hl : key ∉ l.map Prod.fst)
    (hm : key ∉ m.map Prod.fst) (x : α) (next : Option α → α) :
    put (l ++ (key, x) :: m) key next = l ++ (key, next (some x)) :: m := by
  unfold put
  rw [if_pos (by simp), List.map_append, List.map_cons, if_pos rfl,
    map_of_not_mem hl fun y => next (some y), map_of_not_mem hm fun y => next (some y)]

theorem erase_of_not_mem {l : Ledger α} {key : String} (h : key ∉ l.map Prod.fst) :
    l.erase key = l := by
  unfold erase
  rw [List.filter_eq_self]
  intro e he
  rw [decide_eq_true_eq]
  exact fun heq => h (List.mem_map.mpr ⟨e, he, heq⟩)

theorem erase_split {l m : Ledger α} {key : String} (hl : key ∉ l.map Prod.fst)
    (hm : key ∉ m.map Prod.fst) (x : α) :
    erase (l ++ (key, x) :: m) key = l ++ m := by
  have hleft := erase_of_not_mem hl
  have hright := erase_of_not_mem hm
  unfold erase at hleft hright ⊢
  rw [List.filter_append, List.filter_cons_of_neg (by simp), hleft, hright]

end Ledger

/-- The record among some that a target names: a word is a key before it is a position. -/
def Target.named (records : List Snapshot) : Target → Option Snapshot
  | .key name => records.find? (·.key == name)
  | .position p => records.find? (·.position == p)
  | .token word =>
    (records.find? (·.key == word)).or
      ((Text.natural? word.toList).bind fun p => records.find? (·.position == p))

namespace Contents

variable {c c' : Contents}

def entriesOf (slots : List (Option Record)) : Ledger Fields :=
  (slots.map (Option.map fun r => (r.key, r.fields))).filterMap id

theorem entriesOf_append (slots slots' : List (Option Record)) :
    entriesOf (slots ++ slots') = entriesOf slots ++ entriesOf slots' := by
  unfold entriesOf
  rw [List.map_append, List.filterMap_append]

theorem entriesOf_cons_some (r : Record) (slots : List (Option Record)) :
    entriesOf (some r :: slots) = (r.key, r.fields) :: entriesOf slots := rfl

theorem entriesOf_cons_none (slots : List (Option Record)) :
    entriesOf (none :: slots) = entriesOf slots := rfl

theorem entriesOf_eq (slots : List (Option Record)) :
    entriesOf slots = (slots.filterMap id).map fun r => (r.key, r.fields) := by
  unfold entriesOf
  rw [List.filterMap_map, List.map_filterMap]
  rfl

theorem entries_eq (c : Contents) : c.entries = entriesOf c.slots := (entriesOf_eq c.slots).symm

/-- The pairs around the record at a position, none of which has its key. -/
theorem Consistent.exists_entries_split (h : c.Consistent) {p : Nat} {r : Record}
    (hr : c.recordAt? p = some r) :
    ∃ pre post, c.slots = pre ++ some r :: post ∧ pre.length = p ∧
      r.key ∉ (entriesOf pre).map Prod.fst ∧ r.key ∉ (entriesOf post).map Prod.fst := by
  obtain ⟨pre, post, hslots, hlength⟩ := exists_split hr
  have hnodup := h.keys_nodup
  rw [keys_eq_map_entries, entries_eq, hslots, entriesOf_append, entriesOf_cons_some,
    List.map_append, List.map_cons, List.nodup_middle, List.nodup_cons, List.mem_append,
    not_or] at hnodup
  exact ⟨pre, post, hslots, hlength, hnodup.1.1, hnodup.1.2⟩

theorem Consistent.not_mem_keys (h : c.Consistent) {key : String} (hr : c.record? key = none) :
    key ∉ c.entries.map Prod.fst := by
  rw [← keys_eq_map_entries]
  intro hmem
  obtain ⟨r, hlive, rfl⟩ := List.mem_map.mp hmem
  obtain ⟨p, hp⟩ := (mem_live c r).mp hlive
  rw [h.record?_of_recordAt? hp] at hr
  exact absurd hr (by simp)

theorem Consistent.lookup_entries (h : c.Consistent) (key : String) :
    c.entries.lookup key = (c.record? key).map Record.fields := by
  cases hr : c.record? key with
  | some r =>
    obtain ⟨hat, rfl⟩ := h.record?_eq_some hr
    obtain ⟨pre, post, hslots, -, hpre, -⟩ := h.exists_entries_split hat
    have hbefore : (entriesOf pre).lookup r.key = none := by
      rw [← Option.not_isSome_iff_eq_none, Ledger.lookup_isSome_iff]
      exact hpre
    rw [entries_eq, hslots, entriesOf_append, List.lookup_append, hbefore, entriesOf_cons_some,
      List.lookup_cons_self]
    rfl
  | none =>
    rw [Option.map_none, ← Option.not_isSome_iff_eq_none, Ledger.lookup_isSome_iff]
    exact h.not_mem_keys hr

/-- Storing under a key is putting its pair in the list. -/
theorem Consistent.entries_upsert (h : c.Consistent) (key : String) (data : Fields)
    (overwrite versioning : Bool) :
    (c.upsert key data overwrite versioning).contents.entries =
      Ledger.put c.entries key (fieldsAfter data overwrite) := by
  cases hr : c.record? key with
  | some r =>
    obtain ⟨hat, rfl⟩ := h.record?_eq_some hr
    obtain ⟨pre, post, hslots, hlength, hpre, hpost⟩ := h.exists_entries_split hat
    rw [upsert_of_some hr, entries_eq, entries_eq, ← hlength]
    dsimp only
    rw [hslots, set_split, entriesOf_append, entriesOf_append, entriesOf_cons_some,
      entriesOf_cons_some, Ledger.put_split hpre hpost]
    rfl
  | none =>
    rw [upsert_of_none hr, Ledger.put_of_not_mem (h.not_mem_keys hr), entries_eq, entries_eq]
    exact entriesOf_append _ _

theorem Consistent.entries_hollow (h : c.Consistent) {p : Nat} {r : Record}
    (hc : c.hollow p = some (r, c')) : c'.entries = Ledger.erase c.entries r.key := by
  unfold Contents.hollow at hc
  obtain ⟨s, hs, heq⟩ := Option.map_eq_some_iff.mp hc
  obtain ⟨rfl, rfl⟩ := Prod.mk.inj heq
  obtain ⟨pre, post, hslots, rfl, hpre, hpost⟩ := h.exists_entries_split hs
  rw [entries_eq, entries_eq]
  change entriesOf (c.slots.set pre.length none) = _
  rw [hslots, set_split, entriesOf_append, entriesOf_append, entriesOf_cons_some,
    entriesOf_cons_none, Ledger.erase_split hpre hpost]

theorem Consistent.entries_cut (h : c.Consistent) {p : Nat} {r : Record}
    (hc : c.cut p = some (r, c')) : c'.entries = Ledger.erase c.entries r.key := by
  unfold Contents.cut at hc
  obtain ⟨s, hs, heq⟩ := Option.map_eq_some_iff.mp hc
  obtain ⟨rfl, rfl⟩ := Prod.mk.inj heq
  obtain ⟨pre, post, hslots, rfl, hpre, hpost⟩ := h.exists_entries_split hs
  rw [entries_eq, entries_eq]
  change entriesOf (c.slots.eraseIdx pre.length) = _
  rw [hslots, eraseIdx_split, entriesOf_append, entriesOf_append, entriesOf_cons_some,
    Ledger.erase_split hpre hpost]

theorem entries_compactFrom (c : Contents) (p : Nat) : (c.compactFrom p).entries = c.entries := by
  rw [entries_eq, entries_eq]
  change entriesOf (c.slots.take p ++ (repositionSlots c.catalog p (c.slots.drop p)).2) = _
  conv_rhs => rw [← List.take_append_drop p c.slots]
  rw [entriesOf_append, entriesOf_append]
  congr 1
  unfold entriesOf
  rw [repositionSlots_records]

/-- A deletion takes the pair of the record out of the list, whatever it does to the slots. -/
theorem Consistent.entries_removal (h : c.Consistent) {r : Record} {options : DeleteOptions}
    (hc : c.Removal r options c') : c'.entries = Ledger.erase c.entries r.key := by
  cases hc with
  | hollowed _ hhollow => exact h.entries_hollow hhollow
  | rebuilt _ _ hcut hbuilt =>
    obtain ⟨d, hd, -, -, hentries, -⟩ := h.exists_reindex_cut (recordAt?_of_cut hcut) hcut
    obtain rfl := Except.ok.inj (hbuilt.symm.trans hd)
    rw [hentries, h.entries_cut hcut]
  | closed _ _ hcut => rw [entries_compactFrom, h.entries_cut hcut]

theorem Consistent.entries_itemApplied (h : c.Consistent) (versioning : Bool) (item : BatchItem) :
    (c.itemApplied versioning item).entries = Ledger.itemApplied c.entries item := by
  cases item with
  | store key data => exact h.entries_upsert key data false versioning
  | remove key =>
    rcases itemApplied_remove_cases versioning c key with ⟨hnone, hsame⟩ | ⟨p, r, hp, hhollow⟩
    · have hmissing : c.record? key = none := by
        cases hr : c.record? key with
        | none => rfl
        | some r =>
          obtain ⟨p, hp, hat⟩ := Option.bind_eq_some_iff.mp hr
          rw [hp, Option.bind_some, (exists_hollow hat).choose_spec] at hnone
          exact absurd hnone (by simp)
      rw [hsame]
      exact (Ledger.erase_of_not_mem (h.not_mem_keys hmissing)).symm
    · obtain ⟨s, hs, hkey⟩ := (h.reflects.keys.position?_iff key p).mp hp
      have hrs := hhollow
      unfold Contents.hollow at hrs
      obtain ⟨t, ht, heq⟩ := Option.map_eq_some_iff.mp hrs
      obtain ⟨rfl, -⟩ := Prod.mk.inj heq
      obtain rfl := Option.some.inj (hs.symm.trans ht)
      rw [h.entries_hollow hhollow, hkey]
      rfl

theorem Consistent.entries_itemsApplied (h : c.Consistent) (versioning : Bool)
    (ready : List (Except StoreError BatchItem)) :
    (c.itemsApplied versioning ready).entries = Ledger.itemsApplied c.entries ready := by
  unfold Contents.itemsApplied Ledger.itemsApplied
  induction ready.filterMap Except.toOption generalizing c with
  | nil => rfl
  | cons item rest ih =>
    rw [List.foldl_cons, List.foldl_cons, ih (h.itemApplied versioning item).1,
      h.entries_itemApplied]

theorem Consistent.entries_recordsStored (h : c.Consistent) (records : List Snapshot) :
    (c.recordsStored records).entries =
      records.foldl (fun l r => Ledger.put l r.key (fieldsAfter r.fields true)) c.entries := by
  unfold Contents.recordsStored
  induction records generalizing c with
  | nil => rfl
  | cons r rest ih =>
    rw [List.foldl_cons, List.foldl_cons, ih (h.upsert r.key r.fields true false),
      h.entries_upsert]

/-! ### What a target names -/

theorem find?_eq_some_of_unique {α : Type} {l : List α} {test : α → Bool} {a : α} (ha : a ∈ l)
    (htest : test a = true) (hunique : ∀ b ∈ l, test b = true → b = a) : l.find? test = some a := by
  cases hfound : l.find? test with
  | none => exact absurd htest (List.find?_eq_none.mp hfound a ha)
  | some b => rw [hunique b (List.mem_of_find?_eq_some hfound) (List.find?_some hfound)]

theorem Consistent.recordAt?_snapshot (h : c.Consistent) (p : Nat) :
    (c.recordAt? p).map Record.snapshot = c.snapshots.find? (·.position == p) := by
  symm
  cases hr : c.recordAt? p with
  | none =>
    refine List.find?_eq_none.mpr fun r hmem hp => ?_
    obtain ⟨s, hs, rfl⟩ := List.mem_map.mp hmem
    have hat := slotAt_position h hs
    rw [show s.position = p from beq_iff_eq.mp hp, ← recordAt?_eq, hr] at hat
    exact absurd hat (by simp)
  | some r =>
    obtain rfl := h.reflects.files.position p r hr
    refine find?_eq_some_of_unique (List.mem_map.mpr ⟨r, (mem_live c r).mpr ⟨_, hr⟩, rfl⟩)
      (beq_self_eq_true _) fun s hmem hp => ?_
    obtain ⟨t, ht, rfl⟩ := List.mem_map.mp hmem
    have hat := slotAt_position h ht
    rw [show t.position = r.position from beq_iff_eq.mp hp, ← recordAt?_eq, hr] at hat
    rw [Option.some.inj hat]

theorem Consistent.record?_snapshot (h : c.Consistent) (key : String) :
    (c.record? key).map Record.snapshot = c.snapshots.find? (·.key == key) := by
  symm
  cases hr : c.record? key with
  | none =>
    refine List.find?_eq_none.mpr fun r hmem hkey => ?_
    obtain ⟨s, hs, rfl⟩ := List.mem_map.mp hmem
    refine h.not_mem_keys hr ?_
    rw [← keys_eq_map_entries]
    exact List.mem_map.mpr ⟨s, hs, beq_iff_eq.mp hkey⟩
  | some r =>
    obtain ⟨hat, rfl⟩ := h.record?_eq_some hr
    refine find?_eq_some_of_unique (List.mem_map.mpr ⟨r, (mem_live c r).mpr ⟨_, hat⟩, rfl⟩)
      (beq_self_eq_true _) fun s hmem hkey => ?_
    obtain ⟨t, ht, rfl⟩ := List.mem_map.mp hmem
    have hsame := h.record?_of_recordAt? (slotAt_position h ht)
    rw [show t.key = r.key from beq_iff_eq.mp hkey, hr] at hsame
    rw [Option.some.inj hsame]

/-- The record that a target names can be told from the records as callers see them. -/
theorem Consistent.find?_snapshot (h : c.Consistent) (target : Target) :
    (c.find? target).map Record.snapshot = target.named c.snapshots := by
  have hoccupied : ∀ p, ((c.recordAt? p).map fun _ => p).bind c.recordAt? = c.recordAt? p := by
    intro p
    cases hr : c.recordAt? p with
    | none => rfl
    | some r => exact hr
  cases target with
  | key key => exact h.record?_snapshot key
  | position p =>
    unfold Contents.find? resolve?
    dsimp only
    rw [hoccupied]
    exact h.recordAt?_snapshot p
  | token word =>
    unfold Contents.find? resolve? Target.named
    dsimp only
    rw [← h.record?_snapshot word]
    cases hp : c.catalog.position? word with
    | some p =>
      obtain ⟨r, hr, -⟩ := (h.reflects.keys.position?_iff word p).mp hp
      unfold record?
      rw [hp, Option.bind_some, recordAt?_eq, hr]
      rfl
    | none =>
      unfold record?
      rw [hp, Option.bind_none, Option.map_none, Option.none_or]
      cases Text.natural? word.toList with
      | none => rfl
      | some p =>
        simp only [Option.bind_some]
        rw [hoccupied]
        exact h.recordAt?_snapshot p

end Contents

namespace Store

theorem Sound.batchKeyed_entries {s : Store} (h : s.Sound) (replace : Bool)
    (ready : List (Except StoreError BatchItem)) {c : Contents}
    (hc : ((s.batchBase replace).itemsApplied s.config.versioning ready).reindex = .ok c) :
    c.entries = Ledger.itemsApplied (if replace then [] else s.contents.entries) ready := by
  obtain ⟨-, -, -, hentries⟩ := h.applied_reindexed replace ready hc
  have hbase : (s.batchBase replace).entries = if replace then [] else s.contents.entries := by
    cases replace <;> rfl
  rw [hentries, (consistent_batchBase h.consistent replace).entries_itemsApplied, hbase]

end Store
end IndexedStore
