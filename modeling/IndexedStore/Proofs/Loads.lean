import Mathlib.Data.List.Induction
import IndexedStore.Proofs.VersionLabels

/-!
Loads as a whole. A payload is taken in exactly when a collection of objects lies at the configured
place. Then the records are the objects, merged key by key, and nothing of what was there before is
left: no record and no version.
-/
namespace IndexedStore

/-! ### Objects under one key -/

def Fields.merged : List Fields → Fields
  | [] => []
  | first :: rest => rest.foldl SortedMap.merge first

def dataUnder (key : String) (pairs : List (String × Fields)) : List Fields :=
  (pairs.filter (·.1 = key)).map Prod.snd

/-- Each key with all its data merged, in the order in which the keys first come. -/
def Ledger.ofPairs (pairs : List (String × Fields)) : Ledger Fields :=
  (pairs.map Prod.fst).eraseDups.map fun key => (key, Fields.merged (dataUnder key pairs))

theorem Fields.merged_concat {list : List Fields} (h : list ≠ []) (data : Fields) :
    Fields.merged (list ++ [data]) = SortedMap.merge (Fields.merged list) data := by
  cases list with
  | nil => exact absurd rfl h
  | cons first rest => exact List.foldl_concat ..

/-- Where several fields are merged, the last that have a name give its value. -/
theorem Fields.get?_merged {list : List Fields} (h : ∀ data ∈ list, SortedMap.Sorted data)
    (name : String) :
    SortedMap.get? (Fields.merged list) name =
      list.reverse.findSome? fun data => SortedMap.get? data name := by
  induction list using List.reverseRecOn with
  | nil => rfl
  | append_singleton list data ih =>
    obtain ⟨hlist, hdata⟩ := List.forall_mem_append.mp h
    rw [List.reverse_concat, List.findSome?_cons]
    by_cases hnil : list = []
    · subst hnil
      change SortedMap.get? data name = _
      cases SortedMap.get? data name with
      | none => rfl
      | some v => rfl
    · have hlast := hdata data (List.mem_singleton_self _)
      rw [Fields.merged_concat hnil, SortedMap.get?_merge _ hlast, ih hlist]
      cases SortedMap.get? data name with
      | none => rfl
      | some v => rfl

theorem dataUnder_append (key : String) (pairs pairs' : List (String × Fields)) :
    dataUnder key (pairs ++ pairs') = dataUnder key pairs ++ dataUnder key pairs' := by
  unfold dataUnder
  rw [List.filter_append, List.map_append]

theorem dataUnder_cons_self (key : String) (data : Fields) (rest : List (String × Fields)) :
    dataUnder key ((key, data) :: rest) = data :: dataUnder key rest := by
  unfold dataUnder
  rw [List.filter_cons_of_pos (by simp), List.map_cons]

theorem dataUnder_cons_of_ne {key other : String} (h : other ≠ key) (data : Fields)
    (rest : List (String × Fields)) :
    dataUnder key ((other, data) :: rest) = dataUnder key rest := by
  unfold dataUnder
  rw [List.filter_cons_of_neg (by simpa using h)]

theorem dataUnder_eq_nil_iff {key : String} {pairs : List (String × Fields)} :
    dataUnder key pairs = [] ↔ key ∉ pairs.map Prod.fst := by
  unfold dataUnder
  rw [List.map_eq_nil_iff, List.filter_eq_nil_iff]
  constructor
  · intro hnone hmem
    obtain ⟨e, he, hkey⟩ := List.mem_map.mp hmem
    exact hnone e he (decide_eq_true hkey)
  · intro hnot e he hkey
    exact hnot (List.mem_map.mpr ⟨e, he, of_decide_eq_true hkey⟩)

namespace Ledger

theorem keys_ofPairs (pairs : List (String × Fields)) :
    (ofPairs pairs).map Prod.fst = (pairs.map Prod.fst).eraseDups := by
  unfold ofPairs
  rw [List.map_map]
  exact List.map_id _

/-- One more pair is put in the list. -/
theorem ofPairs_concat (pairs : List (String × Fields)) (key : String) (data : Fields) :
    ofPairs (pairs ++ [(key, data)]) =
      (ofPairs pairs).put key (Contents.fieldsAfter data false) := by
  have hkeys : key ∈ (ofPairs pairs).map Prod.fst ↔ key ∈ pairs.map Prod.fst := by
    rw [keys_ofPairs, List.mem_eraseDups]
  have hothers (other : String) (hother : other ≠ key) :
      dataUnder other (pairs ++ [(key, data)]) = dataUnder other pairs := by
    rw [dataUnder_append, dataUnder_cons_of_ne (Ne.symm hother)]
    exact List.append_nil _
  have hself : dataUnder key (pairs ++ [(key, data)]) = dataUnder key pairs ++ [data] := by
    rw [dataUnder_append, dataUnder_cons_self]
    rfl
  by_cases hmem : key ∈ pairs.map Prod.fst
  · unfold put
    rw [if_pos (hkeys.mpr hmem)]
    unfold ofPairs
    have hsame : ((pairs ++ [(key, data)]).map Prod.fst).eraseDups =
        (pairs.map Prod.fst).eraseDups := by
      rw [List.map_append, List.eraseDups_append]
      simp [List.removeAll, hmem]
    rw [hsame, List.map_map]
    refine List.map_congr_left fun other _ => ?_
    by_cases hother : other = key
    · rw [hother, Function.comp_apply, if_pos rfl, hself,
        Fields.merged_concat fun hnil => dataUnder_eq_nil_iff.mp hnil hmem]
      rfl
    · rw [hothers other hother, Function.comp_apply, if_neg hother]
  · rw [put_of_not_mem (mt hkeys.mp hmem)]
    unfold ofPairs
    have hnew : [key].removeAll (pairs.map Prod.fst) = [key] := by simp [List.removeAll, hmem]
    have hone : ((pairs ++ [(key, data)]).map Prod.fst).eraseDups =
        (pairs.map Prod.fst).eraseDups ++ [key] := by
      rw [List.map_append, List.eraseDups_append]
      exact congrArg (fun list => (pairs.map Prod.fst).eraseDups ++ list.eraseDups) hnew
    rw [hone, List.map_append, List.map_singleton, hself, dataUnder_eq_nil_iff.mpr hmem]
    congr 1
    refine List.map_congr_left fun other hother => ?_
    rw [hothers other fun heq => hmem (heq ▸ List.mem_eraseDups.mp hother)]

end Ledger

/-! ### Items that store -/

def storesOf (pairs : List (String × Fields)) : List BatchItem :=
  pairs.map fun e => .store e.1 e.2

theorem filterMap_toOption_map_ok {ε α : Type} (items : List α) :
    (items.map (Except.ok : α → Except ε α)).filterMap Except.toOption = items := by
  rw [List.filterMap_map]
  exact List.filterMap_some

/-- The pairs of a batch are put in the list one after another. -/
theorem Ledger.itemsApplied_storesOf (pairs : List (String × Fields)) :
    Ledger.itemsApplied [] ((storesOf pairs).map .ok) = Ledger.ofPairs pairs := by
  unfold Ledger.itemsApplied storesOf
  rw [filterMap_toOption_map_ok, List.foldl_map]
  induction pairs using List.reverseRecOn with
  | nil => rfl
  | append_singleton pairs e ih =>
    rw [List.foldl_concat, ofPairs_concat, ih]
    rfl

namespace Versions

variable {v : Versions} {era : Nat} {changes : List Change}

/-- A version that is recorded was added. -/
theorem add_mem_of_mem_recordings {r : Recording} (h : r ∈ v.recordings era changes) :
    .add r.key r.fields ∈ changes := by
  induction changes generalizing v era with
  | nil => exact absurd h List.not_mem_nil
  | cons change rest ih =>
    cases change with
    | add key fields =>
      rcases List.mem_cons.mp h with rfl | h
      · exact List.mem_cons_self
      · exact List.mem_cons_of_mem _ (ih h)
    | remove key => exact List.mem_cons_of_mem _ (ih h)
    | clear => exact List.mem_cons_of_mem _ (ih h)
    | renew limit => exact List.mem_cons_of_mem _ (ih h)

/-- Once all versions were dropped, nothing is kept under the labels from before. -/
theorem Sound.get?_of_cleared (h : v.Sound) (hera : renewals changes = 0) {key label : String}
    (hlabel : label ∈ v.labels key) (other : String) :
    (v.clear.after changes).get? other label = none := by
  rw [Option.eq_none_iff_forall_ne_some]
  intro found hfound
  obtain ⟨fields, hget⟩ := h.exists_of_mem_labels hlabel
  obtain ⟨n, hn, hname⟩ := h.counted key label fields hget
  rcases mem_recordings_of_get? 0 hfound with hmem | ⟨-, hkept⟩
  · obtain ⟨m, hm, hlabel⟩ := exists_label_of_mem hmem (by rw [hera])
    have hsame : m = n := label_injective (hlabel.symm.trans hname)
    exact absurd (hsame ▸ hm) (Nat.not_le.mpr hn)
  · exact absurd ((get?_clear v other label).symm.trans hkept) (by simp)

end Versions

namespace Contents

variable {c : Contents}

/-- What is recorded while pairs are stored are the fields of a record right before a pair of its
key. -/
theorem exists_of_add_mem_itemsChanges {versioning : Bool} {pairs : List (String × Fields)}
    {key : String} {fields : Fields}
    (h : .add key fields ∈ c.itemsChanges versioning (storesOf pairs)) :
    ∃ before data later r, pairs = before ++ (key, data) :: later ∧
      (c.itemsApplied versioning ((storesOf before).map .ok)).record? key = some r ∧
      r.fields = fields := by
  induction pairs generalizing c with
  | nil => exact absurd h List.not_mem_nil
  | cons e rest ih =>
    obtain ⟨other, data⟩ := e
    rcases List.mem_append.mp h with h | h
    · unfold itemChanges storeChanges at h
      dsimp only at h
      split at h
      · rename_i r hr
        split_ifs at h
        · obtain ⟨rfl, rfl⟩ := Versions.Change.add.inj (List.mem_singleton.mp h)
          exact ⟨[], data, rest, r, rfl, hr, rfl⟩
        · exact absurd h List.not_mem_nil
      · exact absurd h List.not_mem_nil
    · obtain ⟨before, data', later, r, rfl, hr, hfields⟩ := ih h
      exact ⟨(other, data) :: before, data', later, r, rfl, hr, hfields⟩

/-- Of contents that pairs are stored in after they were cleared, the versions are those that the
pairs left behind: of a key, what the first of its data merge into. -/
theorem Consistent.kept_of_stored (h : c.Consistent) {versioning : Bool}
    {pairs : List (String × Fields)} {key : String} {fields : Fields}
    (hadd : .add key fields ∈ c.clear.itemsChanges versioning (storesOf pairs)) :
    ∃ n, 0 < n ∧ n < (dataUnder key pairs).length ∧
      fields = Fields.merged ((dataUnder key pairs).take n) := by
  obtain ⟨before, data, later, r, rfl, hr, rfl⟩ := exists_of_add_mem_itemsChanges hadd
  have hbefore : (c.clear.itemsApplied versioning ((storesOf before).map .ok)).entries =
      Ledger.ofPairs before := by
    rw [h.clear.entries_itemsApplied, ← Ledger.itemsApplied_storesOf]
    rfl
  have happlied := (h.clear.itemsApplied versioning ((storesOf before).map .ok)).1
  have hmem : (key, r.fields) ∈ Ledger.ofPairs before := by
    obtain ⟨hat, rfl⟩ := happlied.record?_eq_some hr
    rw [← hbefore]
    exact List.mem_map.mpr ⟨r, (mem_live _ r).mpr ⟨_, hat⟩, rfl⟩
  obtain ⟨other, hother, heq⟩ := List.mem_map.mp hmem
  obtain ⟨rfl, hfields⟩ := Prod.mk.inj heq
  have hne : dataUnder other before ≠ [] := fun hnil =>
    dataUnder_eq_nil_iff.mp hnil (List.mem_eraseDups.mp hother)
  rw [dataUnder_append, dataUnder_cons_self]
  refine ⟨(dataUnder other before).length, List.length_pos_iff.mpr hne, ?_, ?_⟩
  · rw [List.length_append, List.length_cons]
    omega
  · rw [List.take_left, hfields]

end Contents

/-! ### What payloads are taken in -/

namespace Payload

def sourced? (source : Option String) (payload : Value) : Option Value :=
  match source with
  | none => some payload
  | some path => payload.atPath? path

inductive Collects : Value → List (Option String × Fields) → Prop
  | list (objects : List Fields) :
    Collects (.list (objects.map .map)) (objects.map fun data => (none, data))
  | map (objects : List (String × Fields)) :
    Collects (.map (objects.map fun e => (e.1, .map e.2))) (objects.map fun e => (some e.1, e.2))

variable {payload p : Value} {objects : List (Option String × Fields)}

theorem atNames_toOption (payload : Value) (names : List (List Char)) :
    (atNames payload names).toOption =
      names.foldlM (fun v name => v.get? (String.ofList name)) payload := by
  induction names generalizing payload with
  | nil => rfl
  | cons name rest ih =>
    rw [List.foldlM_cons]
    unfold atNames
    dsimp only
    cases payload with
    | map entries =>
      dsimp only [Value.get?]
      cases SortedMap.get? entries (String.ofList name) with
      | none => rfl
      | some v => exact ih v
    | _ => rfl

/-- Walking into a payload gets to what lies at the path, or fails when nothing does. -/
theorem atPath_toOption (payload : Value) (path : String) :
    (atPath payload path).toOption = payload.atPath? path := atNames_toOption payload _

def fieldsOf : Value → Fields
  | .map data => data
  | _ => []

theorem map_fieldsOf {v : Value} (h : isMap v = true) : .map (fieldsOf v) = v := by
  cases v with
  | map data => rfl
  | _ => exact absurd h Bool.false_ne_true

theorem items_of_collects (h : Collects p objects) (named : Bool) :
    items p named =
      .ok (objects.map fun o => (if named then o.1 else none, .map o.2)) := by
  cases h with
  | list objects =>
    have hall : (objects.map Value.map).find? (!isMap ·) = none := by
      rw [List.find?_map, Option.map_eq_none_iff]
      exact List.find?_eq_none.mpr fun data _ => Bool.false_ne_true
    unfold items
    dsimp only
    rw [hall, List.map_map, List.map_map]
    simp
  | map objects =>
    have hall : (objects.map fun e => (e.1, Value.map e.2)).find? (!isMap ·.2) = none := by
      rw [List.find?_map, Option.map_eq_none_iff]
      exact List.find?_eq_none.mpr fun data _ => Bool.false_ne_true
    unfold items
    dsimp only
    rw [hall, List.map_map, List.map_map]
    rfl

theorem exists_collects_of_items {named : Bool} {list : List (Option String × Value)}
    (h : items p named = .ok list) : ∃ objects, Collects p objects := by
  unfold items at h
  split at h
  · rename_i values
    split at h
    · exact absurd h (by simp)
    · rename_i hfind
      have hmaps : values = (values.map fieldsOf).map .map := by
        conv_lhs => rw [← List.map_id values]
        rw [List.map_map]
        refine List.map_congr_left fun v hv => (map_fieldsOf ?_).symm
        simpa using List.find?_eq_none.mp hfind v hv
      rw [hmaps]
      exact ⟨_, .list _⟩
  · rename_i entries
    split at h
    · exact absurd h (by simp)
    · rename_i hfind
      have hmaps : entries =
          (entries.map fun e => (e.1, fieldsOf e.2)).map fun e => (e.1, .map e.2) := by
        conv_lhs => rw [← List.map_id entries]
        rw [List.map_map]
        refine List.map_congr_left fun e he => Prod.ext rfl (map_fieldsOf ?_).symm
        simpa using List.find?_eq_none.mp hfind e he
      rw [hmaps]
      exact ⟨_, .map _⟩
  · exact absurd h (by simp)

theorem ordered_sourced {source : Option String} (h : payload.Ordered)
    (hp : sourced? source payload = some p) : p.Ordered := by
  unfold sourced? at hp
  cases source with
  | none =>
    obtain rfl := Option.some.inj hp
    exact h
  | some path =>
    dsimp only at hp
    rw [← atPath_toOption] at hp
    cases hfound : atPath payload path with
    | error fault =>
      rw [hfound] at hp
      exact absurd hp (by simp [Except.toOption])
    | ok found =>
      rw [hfound] at hp
      obtain rfl := Option.some.inj hp
      exact ordered_atNames h hfound

/-- In a map in order the names of the objects ascend. -/
theorem Collects.names_ascend (h : Collects p objects) (hp : p.Ordered) :
    (objects.filterMap Prod.fst).Pairwise (· < ·) := by
  cases h with
  | list objects =>
    have hnone : (objects.map fun data => (none, data)).filterMap Prod.fst = ([] : List String) :=
      List.filterMap_eq_nil_iff.mpr fun o ho => by
        obtain ⟨data, -, rfl⟩ := List.mem_map.mp ho
        rfl
    rw [hnone]
    exact List.Pairwise.nil
  | map objects =>
    have hnames : (objects.map fun e => (some e.1, e.2)).filterMap Prod.fst =
        objects.map Prod.fst := by
      rw [List.filterMap_map]
      exact congrFun List.filterMap_eq_map' objects
    have hsorted := SortedMap.sorted_names hp.1
    unfold SortedMap.names at hsorted
    rw [hnames]
    rwa [List.map_map] at hsorted

theorem Collects.sorted (h : Collects p objects) (hp : p.Ordered) :
    ∀ o ∈ objects, SortedMap.Sorted o.2 := by
  intro o ho
  cases h with
  | list objects =>
    obtain ⟨data, hdata, rfl⟩ := List.mem_map.mp ho
    exact ((Value.orderedItems_iff _).mp hp _ (List.mem_map_of_mem hdata)).1
  | map objects =>
    obtain ⟨e, he, rfl⟩ := List.mem_map.mp ho
    exact (hp.mem (List.mem_map_of_mem he)).1

end Payload

/-! ### Keys -/

/-- The key that an object of a payload brings: its name when no key field is configured, else the
key text of the key field unless that is null. -/
def broughtKey? (keyField : Option String) (name : Option String) (data : Fields) :
    Option String :=
  match keyField with
  | none => name
  | some field =>
    if (Fields.value data field).isNull then none else some (Fields.value data field).keyText

/-- The objects of a payload with their keys: the one that each brings, or else the next one that
is made up. -/
def keyedObjects (keyField : Option String) (keys : KeySupply) :
    List (Option String × Fields) → List (String × Fields)
  | [] => []
  | (name, data) :: rest =>
    match broughtKey? keyField name data with
    | some key => (key, data) :: keyedObjects keyField keys rest
    | none => (keys.next.1, data) :: keyedObjects keyField keys.next.2 rest

def keyless (keyField : Option String) (objects : List (Option String × Fields)) : Nat :=
  objects.countP fun o => (broughtKey? keyField o.1 o.2).isNone

namespace Store

variable {s : Store} {w : World} {payload p : Value} {objects : List (Option String × Fields)}

theorem keyOf?_eq (s : Store) (data : Fields) :
    s.keyOf? data = broughtKey? s.config.keyField none data := by
  unfold keyOf? broughtKey? Fields.value
  cases s.config.keyField with
  | none => rfl
  | some field =>
    dsimp only
    cases SortedMap.get? data field with
    | none => rfl
    | some v => cases v <;> rfl

theorem chooseKey_eq (s : Store) (keys : KeySupply) (name : Option String) (data : Fields) :
    s.chooseKey keys (if s.config.keyField.isNone then name else none) data =
      match broughtKey? s.config.keyField name data with
      | some key => (key, keys)
      | none => keys.next := by
  unfold chooseKey
  rw [keyOf?_eq]
  cases s.config.keyField with
  | none => cases name <;> rfl
  | some field => rfl

/-- Objects are made ready to be stored under their keys, and the keys made up are used up. -/
theorem preparedAll_objects (s : Store) (keys : KeySupply)
    (objects : List (Option String × Fields)) :
    s.preparedAll keys .set
        (objects.map fun o => (if s.config.keyField.isNone then o.1 else none, .map o.2)) =
      ((storesOf (keyedObjects s.config.keyField keys objects)).map .ok,
        { keys with used := keys.used + keyless s.config.keyField objects }) := by
  unfold keyless
  induction objects generalizing keys with
  | nil => rfl
  | cons o rest ih =>
    obtain ⟨name, data⟩ := o
    rw [List.map_cons]
    unfold preparedAll prepared
    dsimp only
    rw [chooseKey_eq]
    unfold keyedObjects
    cases hkey : broughtKey? s.config.keyField name data with
    | some key =>
      dsimp only
      rw [ih, List.countP_cons_of_neg (by simp [hkey])]
      rfl
    | none =>
      dsimp only
      rw [ih, List.countP_cons_of_pos (by simp [hkey]), Nat.add_comm (List.countP _ rest),
        ← Nat.add_assoc]
      rfl

theorem keyedObjects_snd (keyField : Option String) (keys : KeySupply)
    (objects : List (Option String × Fields)) :
    (keyedObjects keyField keys objects).map Prod.snd = objects.map Prod.snd := by
  induction objects generalizing keys with
  | nil => rfl
  | cons o rest ih =>
    obtain ⟨name, data⟩ := o
    unfold keyedObjects
    cases broughtKey? keyField name data with
    | some key => exact congrArg (data :: ·) (ih keys)
    | none => exact congrArg (data :: ·) (ih keys.next.2)

/-! ### Loads -/

theorem payloadItems_of_collects (s : Store)
    (hp : Payload.sourced? s.config.source payload = some p)
    (hobjects : Payload.Collects p objects) :
    s.payloadItems payload =
      .ok (objects.map fun o => (if s.config.keyField.isNone then o.1 else none, .map o.2)) := by
  unfold payloadItems
  unfold Payload.sourced? at hp
  cases hsource : s.config.source with
  | none =>
    rw [hsource] at hp
    obtain rfl := Option.some.inj hp
    exact Payload.items_of_collects hobjects _
  | some path =>
    rw [hsource] at hp
    dsimp only at hp ⊢
    rw [← Payload.atPath_toOption] at hp
    cases hfound : Payload.atPath payload path with
    | error fault =>
      rw [hfound] at hp
      exact absurd hp (by simp [Except.toOption])
    | ok found =>
      rw [hfound] at hp
      obtain rfl := Option.some.inj hp
      exact Payload.items_of_collects hobjects _

theorem exists_collects_of_payloadItems {items : List (Option String × Value)}
    (h : s.payloadItems payload = .ok items) :
    ∃ p objects, Payload.sourced? s.config.source payload = some p ∧
      Payload.Collects p objects := by
  unfold payloadItems at h
  unfold Payload.sourced?
  cases hsource : s.config.source with
  | none =>
    rw [hsource] at h
    obtain ⟨objects, hobjects⟩ := Payload.exists_collects_of_items h
    exact ⟨payload, objects, rfl, hobjects⟩
  | some path =>
    rw [hsource] at h
    dsimp only at h ⊢
    cases hfound : Payload.atPath payload path with
    | error fault =>
      rw [hfound] at h
      exact absurd h (by simp)
    | ok p =>
      rw [hfound] at h
      obtain ⟨objects, hobjects⟩ := Payload.exists_collects_of_items h
      exact ⟨p, objects, by rw [← Payload.atPath_toOption, hfound]; rfl, hobjects⟩

/-- Pairs that are all stored, one after another. -/
theorem appliedAll_storesOf (s : Store) (place : Nat) (pairs : List (String × Fields)) :
    (s.appliedAll place ((storesOf pairs).map .ok)).1 = ⟨pairs.map Prod.fst, []⟩ := by
  induction pairs generalizing s place with
  | nil => rfl
  | cons e rest ih =>
    have hkey : (s.applied (.store e.1 e.2)).1 = .ok e.1 := rfl
    unfold storesOf at ih ⊢
    rw [List.map_cons, List.map_cons, appliedAll_of_ok hkey]
    dsimp only
    rw [ih]
    rfl

/-- What a load leaves behind: a record for each different key, in the order in which the keys
first come, with all data of the key merged. All versions from before are gone, and those that are
kept are what the first objects of a key merged into. One event tells of it. -/
structure Replaces (s : Store) (pairs : List (String × Fields)) (o : Outcome (List String)) :
    Prop where
  result : o.result = .ok (pairs.map Prod.fst)
  records : o.store.contents.snapshots =
    (pairs.map Prod.fst).eraseDups.mapIdx fun position key =>
      ⟨key, position, Fields.merged (dataUnder key pairs)⟩
  forgotten : ∀ key, ∀ label ∈ s.labels key,
    (∀ key', label ∉ o.store.labels key') ∧ o.store.Forgets key label
  kept : ∀ key label fields, o.store.contents.versions.get? key label = some fields →
    ∃ n, 0 < n ∧ n < (dataUnder key pairs).length ∧
      fields = Fields.merged ((dataUnder key pairs).take n)
  told : o.store.feed = s.feed.emit ⟨s.revision + 1, .batch, none⟩
  revision : o.store.revision = s.revision + 1

theorem batchKeyed_world (hs : s.poisoned = false) (kind : BatchKind)
    (items : List (Option String × Value)) (replace : Bool) :
    (s.batchKeyed w kind items replace).world =
      { w with keys := (s.preparedAll w.keys kind items).2 } := by
  unfold batchKeyed
  rw [usable_eq hs]
  dsimp only
  split <;> rfl

theorem Sound.load_of_fault (h : s.Sound) {fault : ShapeFault}
    (hfault : s.payloadItems payload = .error fault) :
    (s.load w payload).result = .error (.expectedObject fault) := by
  unfold load
  rw [tracked_result, replaced_of_fault h.usable hfault]

/-- The batch that a load of items comes to. -/
theorem load_of_items (hs : s.poisoned = false) {items : List (Option String × Value)}
    (hitems : s.payloadItems payload = .ok items) {report : BatchReport}
    (hreport : (s.batchKeyed w .set items true).result = .ok report) :
    (s.load w payload).result = report.keys ∧
      (s.batchKeyed w .set items true).store.Alike (s.load w payload).store ∧
      (s.load w payload).world = (s.batchKeyed w .set items true).world := by
  have hreplaced : s.replaced w payload = ⟨report.keys, (s.batchKeyed w .set items true).store,
      (s.batchKeyed w .set items true).world⟩ := by
    unfold replaced
    rw [usable_eq hs, hitems]
    dsimp only
    rw [hreport]
  unfold load
  rw [tracked_result, tracked_world, hreplaced]
  exact ⟨rfl, tracked_alike (⟨report.keys, _, _⟩ : Outcome (List String)), rfl⟩

/-- A load of objects that lie at the configured place. -/
theorem Sound.replaces_load (h : s.Sound) (hversions : s.contents.versions.Sound)
    (hp : Payload.sourced? s.config.source payload = some p)
    (hobjects : Payload.Collects p objects) :
    s.Replaces (keyedObjects s.config.keyField w.keys objects) (s.load w payload) ∧
      (s.load w payload).world = { w with keys :=
        { w.keys with used := w.keys.used + keyless s.config.keyField objects } } := by
  have hitems := payloadItems_of_collects s hp hobjects
  have hready := preparedAll_objects s w.keys objects
  generalize hpairs : keyedObjects s.config.keyField w.keys objects = pairs at hready ⊢
  generalize hlist : (objects.map fun o =>
    (if s.config.keyField.isNone then o.1 else none, Value.map o.2)) = items at hitems hready
  obtain ⟨c, hc, hreport, hbatch⟩ := batchKeyed_spec (w := w) h.consistent h.usable .set items true
  obtain ⟨hresult, hload, hworld⟩ := load_of_items h.usable hitems hreport
  have halike := hbatch.trans hload
  have hcversions := h.versions_applied w.keys .set items true hc
  unfold batchChanges at hcversions
  rw [hready] at hc hresult hcversions
  rw [batchKeyed_world h.usable, hready] at hworld
  refine ⟨?_, hworld⟩
  obtain ⟨hconsistent, hrevision, hholes, -⟩ := h.applied_reindexed true _ hc
  have hentries : c.entries = Ledger.ofPairs pairs :=
    (h.batchKeyed_entries true _ hc).trans (Ledger.itemsApplied_storesOf pairs)
  rw [filterMap_toOption_map_ok] at hcversions
  have hkept : (s.load w payload).store.contents.versions = s.contents.versions.clear.after
      (s.contents.clear.itemsChanges s.config.versioning (storesOf pairs)) :=
    (versions_of_changed halike).trans hcversions
  refine ⟨?_, ?_, fun key label hlabel => ?_, fun key label fields hget => ?_, ?_, ?_⟩
  · rw [hresult, appliedAll_storesOf]
    rfl
  · rw [halike.contents, changed_contents]
    change c.snapshots = _
    rw [hconsistent.snapshots_eq hholes, hentries]
    exact Contents.mapIdx_map _ _ _
  · have hgone (other : String) :
        (s.load w payload).store.contents.versions.get? other label = none := by
      rw [hkept]
      exact hversions.get?_of_cleared (Contents.renewals_itemsChanges _ _ _) hlabel other
    refine ⟨fun other hmem => ?_, forgets_of_get? (hgone key)⟩
    have hsound : (s.load w payload).store.contents.versions.Sound := by
      rw [hkept]
      exact (Versions.Sound.clear _).after _
    obtain ⟨fields, hget⟩ := hsound.exists_of_mem_labels hmem
    exact absurd ((hgone other).symm.trans hget) (by simp)
  · rw [hkept] at hget
    rcases Versions.mem_recordings_of_get? 0 hget with hmem | ⟨-, hbefore⟩
    · exact h.consistent.kept_of_stored (Versions.add_mem_of_mem_recordings hmem)
    · exact absurd ((Versions.get?_clear _ key label).symm.trans hbefore) (by simp)
  · rw [halike.feed]
    change s.feed.emit ⟨c.revision + 1, .batch, none⟩ = _
    rw [hrevision]
    rfl
  · unfold revision
    rw [halike.contents, changed_contents]
    exact congrArg (· + 1) hrevision

/-- A load after any operations succeeds exactly when a collection of objects lies at the
configured place, and fails for its shape otherwise. Where it succeeds, the records are replaced by
the objects, each under its name, the key that it brings or one made up. When the maps of the
payload are in order, names come in ascending order, and in a record the last object of its key
that has a field gives its value. -/
theorem loaded_after_operations (hs : s.Fresh) (steps : List (World × Operation)) (w : World)
    (payload : Value) :
    let t := s.after steps
    let o := t.load w payload
    ((∃ keys, o.result = .ok keys) ↔
      ∃ p objects, Payload.sourced? s.config.source payload = some p ∧
        Payload.Collects p objects) ∧
    ((∃ fault, o.result = .error (.expectedObject fault)) ↔
      ¬∃ p objects, Payload.sourced? s.config.source payload = some p ∧
        Payload.Collects p objects) ∧
    ∀ p objects, Payload.sourced? s.config.source payload = some p →
      Payload.Collects p objects →
      let pairs := keyedObjects s.config.keyField w.keys objects
      t.Replaces pairs o ∧
        o.world = { w with keys :=
          { w.keys with used := w.keys.used + keyless s.config.keyField objects } } ∧
        pairs.map Prod.snd = objects.map Prod.snd ∧
        (payload.Ordered → (objects.filterMap Prod.fst).Pairwise (· < ·) ∧
          ∀ r ∈ o.store.contents.snapshots, ∀ name, SortedMap.get? r.fields name =
            (dataUnder r.key pairs).reverse.findSome? fun data => SortedMap.get? data name) := by
  intro t o
  have ht : t.Sound := hs.sound.1.after steps
  have hconfig : t.config = s.config := hs.sound.1.after_config steps
  have hversions : t.contents.versions.Sound := hs.sound_versions steps
  have hload {p : Value} {objects : List (Option String × Fields)}
      (hp : Payload.sourced? s.config.source payload = some p)
      (hobjects : Payload.Collects p objects) :
      t.Replaces (keyedObjects s.config.keyField w.keys objects) o ∧
        o.world = { w with keys :=
          { w.keys with used := w.keys.used + keyless s.config.keyField objects } } := by
    rw [← hconfig] at hp ⊢
    exact ht.replaces_load hversions hp hobjects
  have hrefused (hnot : ¬∃ p objects, Payload.sourced? s.config.source payload = some p ∧
      Payload.Collects p objects) : ∃ fault, o.result = .error (.expectedObject fault) := by
    cases hitems : t.payloadItems payload with
    | error fault => exact ⟨fault, ht.load_of_fault hitems⟩
    | ok items => exact absurd (hconfig ▸ exists_collects_of_payloadItems hitems) hnot
  refine ⟨⟨fun ⟨keys, hkeys⟩ => ?_, fun ⟨p, objects, hp, hobjects⟩ => ?_⟩,
    ⟨fun ⟨fault, hfault⟩ ⟨p, objects, hp, hobjects⟩ => ?_, hrefused⟩,
    fun p objects hp hobjects => ?_⟩
  · by_contra hnot
    obtain ⟨fault, hfault⟩ := hrefused hnot
    exact absurd (hfault.symm.trans hkeys) (by simp)
  · exact ⟨_, (hload hp hobjects).1.result⟩
  · exact absurd (hfault.symm.trans (hload hp hobjects).1.result) (by simp)
  obtain ⟨hreplaces, hworld⟩ := hload hp hobjects
  have hdata := keyedObjects_snd s.config.keyField w.keys objects
  refine ⟨hreplaces, hworld, hdata, fun hordered => ?_⟩
  have hpordered := Payload.ordered_sourced hordered hp
  refine ⟨hobjects.names_ascend hpordered, fun r hr name => ?_⟩
  rw [hreplaces.records] at hr
  obtain ⟨i, hi, rfl⟩ := List.mem_mapIdx.mp hr
  refine Fields.get?_merged (fun data hunder => ?_) name
  obtain ⟨e, he, rfl⟩ := List.mem_map.mp hunder
  have hmem : e.2 ∈ objects.map Prod.snd :=
    hdata ▸ List.mem_map_of_mem (List.mem_filter.mp he).1
  obtain ⟨object, hobject, heq⟩ := List.mem_map.mp hmem
  exact heq ▸ hobjects.sorted hpordered object hobject

def keyedById : Store :=
  { plain with config := { Config.standard with keyField := some "id", source := some "data" } }

theorem keyedById_fresh : keyedById.Fresh :=
  ⟨{ Config.standard with keyField := some "id", source := some "data" }, .bare, Or.inl rfl⟩

def changedOnce : List (World × Operation) :=
  [(.bare, .set (some "old") [("x", .text "1")] ⟨false, false⟩),
    (.bare, .set (some "old") [("x", .text "2")] ⟨false, false⟩)]

def namedObjects : List (String × Fields) :=
  [("1", [("id", .text "a"), ("x", .text "1")]), ("2", [("id", .text "b")]),
    ("3", [("id", .text "a"), ("y", .text "2")]), ("4", [("x", .text "3")])]

theorem loaded_after_changedOnce :
    let t := keyedById.after changedOnce
    let p := Value.map (namedObjects.map fun e => (e.1, .map e.2))
    let payload := Value.map [("data", p)]
    let objects := namedObjects.map fun e => (some e.1, e.2)
    let o := t.load .bare payload
    keyedById.Fresh ∧ Payload.sourced? keyedById.config.source payload = some p ∧
      Payload.Collects p objects ∧ payload.Ordered ∧ t.labels "old" = ["v0"] ∧
      t.Replaces (["a", "b", "a", "0"].zip (namedObjects.map Prod.snd)) o ∧
      o.store.contents.snapshots =
        [⟨"a", 0, [("id", .text "a"), ("x", .text "1"), ("y", .text "2")]⟩,
          ⟨"b", 1, [("id", .text "b")]⟩, ⟨"0", 2, [("x", .text "3")]⟩] ∧
      o.store.labels "a" = ["v1"] ∧ (objects.filterMap Prod.fst).Pairwise (· < ·) := by
  intro t p payload objects o
  have hsourced : Payload.sourced? keyedById.config.source payload = some p := rfl
  have hcollects : Payload.Collects p objects := .map namedObjects
  have hpair (name v v' : String) (hname : "id" < name) :
      Value.Ordered (.map [("id", .text v), (name, .text v')]) :=
    ⟨List.pairwise_pair.mpr hname, trivial, trivial, trivial⟩
  have hsingle (name v : String) : Value.Ordered (.map [(name, .text v)]) :=
    ⟨List.pairwise_singleton _ _, trivial, trivial⟩
  have hordered : payload.Ordered := by
    refine ⟨List.pairwise_singleton _ _, ⟨?_, ?_⟩, trivial⟩
    · unfold SortedMap.Sorted
      rw [List.pairwise_map]
      decide +kernel
    · exact ⟨hpair "x" "a" "1" (by decide +kernel), hsingle "id" "b",
        hpair "y" "a" "2" (by decide +kernel), hsingle "x" "3", trivial⟩
  obtain ⟨-, -, hload⟩ := loaded_after_operations keyedById_fresh changedOnce .bare payload
  have hpairs : keyedObjects keyedById.config.keyField World.bare.keys objects =
      ["a", "b", "a", "0"].zip (namedObjects.map Prod.snd) := rfl
  have hlabels : t.labels "old" = ["v0"] := by decide +kernel
  have hlabels' : o.store.labels "a" = ["v1"] := by decide +kernel
  obtain ⟨hreplaced, -, -, hinOrder⟩ := hload _ _ hsourced hcollects
  rw [hpairs] at hreplaced
  have hsnapshots : o.store.contents.snapshots =
      [⟨"a", 0, [("id", .text "a"), ("x", .text "1"), ("y", .text "2")]⟩,
        ⟨"b", 1, [("id", .text "b")]⟩, ⟨"0", 2, [("x", .text "3")]⟩] := by
    rw [hreplaced.records]
    rfl
  exact ⟨keyedById_fresh, hsourced, hcollects, hordered, hlabels, hreplaced, hsnapshots,
    hlabels', (hinOrder hordered).1⟩

end Store
end IndexedStore
