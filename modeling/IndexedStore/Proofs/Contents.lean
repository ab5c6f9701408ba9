import IndexedStore.Proofs.Reflection
import IndexedStore.Store.Contents

/-!
The contents of a store stay consistent: the indexes reflect the records in the slots and the
count of empty slots is true. Each operation on contents keeps this, closing the slots behind a
deleted record moves the later records one by one, and building the indexes anew cannot fail.
-/
namespace IndexedStore.Contents

def slotAt (slots : List (Option Record)) (p : Nat) : Option Record := (slots[p]?).join

/-- The indexes reflect the slots, and the empty slots are counted. -/
structure Consistent (c : Contents) : Prop where
  reflects : c.catalog.Reflects (slotAt c.slots)
  counted : c.holes = c.slots.countP Option.isNone

variable {c : Contents}

/-! ### Slots -/

theorem recordAt?_eq (c : Contents) : c.recordAt? = slotAt c.slots := rfl

/-- The slots around a record. -/
theorem exists_split {slots : List (Option Record)} {p : Nat} {r : Record}
    (h : slotAt slots p = some r) :
    ∃ pre post, slots = pre ++ some r :: post ∧ pre.length = p := by
  unfold slotAt at h
  rw [Option.join_eq_some_iff] at h
  obtain ⟨hp, hget⟩ := List.getElem?_eq_some_iff.mp h
  refine ⟨slots.take p, slots.drop (p + 1), ?_, List.length_take_of_le (Nat.le_of_lt hp)⟩
  rw [← hget, ← List.drop_eq_getElem_cons hp, List.take_append_drop]

theorem slotAt_append_left {pre post : List (Option Record)} {p : Nat} (h : p < pre.length) :
    slotAt (pre ++ post) p = slotAt pre p := by
  unfold slotAt
  rw [List.getElem?_append_left h]

theorem slotAt_append_right {pre post : List (Option Record)} {p : Nat} (h : pre.length ≤ p) :
    slotAt (pre ++ post) p = slotAt post (p - pre.length) := by
  unfold slotAt
  rw [List.getElem?_append_right h]

theorem slotAt_cons_succ (o : Option Record) (rest : List (Option Record)) (p : Nat) :
    slotAt (o :: rest) (p + 1) = slotAt rest p := rfl

/-- Another content for the slot between two parts. -/
theorem update_slotAt (pre post : List (Option Record)) (o o' : Option Record) :
    Function.update (slotAt (pre ++ o :: post)) pre.length o' = slotAt (pre ++ o' :: post) := by
  funext p
  rcases lt_trichotomy p pre.length with hp | rfl | hp
  · rw [Function.update_of_ne (by omega), slotAt_append_left hp, slotAt_append_left hp]
  · rw [Function.update_self, slotAt_append_right (le_refl _), Nat.sub_self]
    rfl
  · rw [Function.update_of_ne (by omega), slotAt_append_right (by omega),
      slotAt_append_right (by omega), show p - pre.length = p - pre.length - 1 + 1 by omega,
      slotAt_cons_succ, slotAt_cons_succ]

theorem set_split (pre post : List (Option Record)) (o o' : Option Record) :
    (pre ++ o :: post).set pre.length o' = pre ++ o' :: post := by
  rw [List.set_append_right _ _ (le_refl _), Nat.sub_self]
  rfl

theorem eraseIdx_split (pre post : List (Option Record)) (o : Option Record) :
    (pre ++ o :: post).eraseIdx pre.length = pre ++ post := by
  rw [List.eraseIdx_append_of_length_le (le_refl _), Nat.sub_self]
  rfl

theorem slotAt_append_some (slots : List (Option Record)) (r : Record) :
    slotAt (slots ++ [some r]) = Function.update (slotAt slots) slots.length (some r) := by
  funext p
  rcases lt_trichotomy p slots.length with hp | rfl | hp
  · rw [Function.update_of_ne (by omega), slotAt_append_left hp]
  · rw [Function.update_self, slotAt_append_right (le_refl _), Nat.sub_self]
    rfl
  · rw [Function.update_of_ne (by omega)]
    unfold slotAt
    rw [List.getElem?_eq_none (by simp; omega), List.getElem?_eq_none (by omega)]

theorem slotAt_length (slots : List (Option Record)) : slotAt slots slots.length = none := by
  unfold slotAt
  rw [List.getElem?_eq_none (le_refl _)]
  rfl

theorem filterMap_id_cons_some (r : Record) (rest : List (Option Record)) :
    (some r :: rest).filterMap id = r :: rest.filterMap id := rfl

theorem mem_records_iff (slots : List (Option Record)) (r : Record) :
    r ∈ slots.filterMap id ↔ ∃ p, slotAt slots p = some r := by
  unfold slotAt
  simp only [List.mem_filterMap, id_eq, Option.join_eq_some_iff]
  constructor
  · rintro ⟨o, ho, rfl⟩
    exact List.mem_iff_getElem?.mp ho
  · rintro ⟨p, hp⟩
    exact ⟨some r, List.mem_iff_getElem?.mpr ⟨p, hp⟩, rfl⟩

theorem mem_live (c : Contents) (r : Record) :
    r ∈ c.live ↔ ∃ p, c.recordAt? p = some r := mem_records_iff c.slots r

theorem length_eq_live_add_empty (slots : List (Option Record)) :
    slots.length = (slots.filterMap id).length + slots.countP Option.isNone := by
  induction slots with
  | nil => rfl
  | cons o rest ih =>
    cases o with
    | none =>
      rw [List.filterMap_cons_none rfl, List.countP_cons_of_pos rfl, List.length_cons]
      omega
    | some r =>
      rw [filterMap_id_cons_some, List.countP_cons_of_neg (by simp), List.length_cons,
        List.length_cons]
      omega

/-- The count of records never falls below what is counted off for empty slots. -/
theorem Consistent.size_eq (h : c.Consistent) : c.size = c.live.length := by
  have hlength := length_eq_live_add_empty c.slots
  unfold size live
  rw [h.counted]
  omega

theorem positions_ascend (slots : List (Option Record)) (offset : Nat)
    (h : ∀ i r, slotAt slots i = some r → r.position = offset + i) :
    (slots.filterMap id).Pairwise fun r r' => r.position < r'.position := by
  induction slots generalizing offset with
  | nil => exact List.Pairwise.nil
  | cons o rest ih =>
    have hrest := ih (offset + 1) fun i r hr => by
      have := h (i + 1) r hr
      omega
    cases o with
    | none => exact hrest
    | some r =>
      rw [filterMap_id_cons_some]
      refine List.pairwise_cons.mpr ⟨fun r' hr' => ?_, hrest⟩
      obtain ⟨o', ho', hsome⟩ := List.mem_filterMap.mp hr'
      obtain ⟨i, hi⟩ := List.mem_iff_getElem?.mp ho'
      have hhead := h 0 r rfl
      have htail : r'.position = offset + (i + 1) := h (i + 1) r' (by
        rw [slotAt_cons_succ]
        unfold slotAt
        rw [hi, Option.join_some]
        exact hsome)
      omega

theorem Consistent.positions_ascend (h : c.Consistent) :
    c.live.Pairwise fun r r' => r.position < r'.position :=
  Contents.positions_ascend c.slots 0 fun i r hr => by
    rw [h.reflects.files.position i r hr, Nat.zero_add]

theorem Consistent.snapshots_ascend (h : c.Consistent) :
    c.snapshots.Pairwise fun r r' => r.position < r'.position :=
  List.pairwise_map.mpr h.positions_ascend

theorem Consistent.keys_nodup (h : c.Consistent) : c.keys.Nodup := by
  unfold keys List.Nodup
  rw [List.pairwise_map]
  refine List.Pairwise.imp_of_mem ?_ h.positions_ascend
  intro r r' hr hr' hlt hkey
  obtain ⟨p, hp⟩ := (mem_live c r).mp hr
  obtain ⟨q, hq⟩ := (mem_live c r').mp hr'
  have hpq := h.reflects.keys.eq_of_key_eq hp hq hkey
  rw [h.reflects.files.position p r hp, h.reflects.files.position q r' hq] at hlt
  omega

theorem Consistent.record?_eq_some (h : c.Consistent) {key : String} {r : Record}
    (hr : c.record? key = some r) : slotAt c.slots r.position = some r ∧ r.key = key := by
  unfold record? at hr
  obtain ⟨p, hp, hat⟩ := Option.bind_eq_some_iff.mp hr
  obtain ⟨r', hr', hkey⟩ := (h.reflects.keys.position?_iff key p).mp hp
  have hrr : r' = r := Option.some.inj (hr'.symm.trans hat)
  subst hrr
  rw [h.reflects.files.position p r' hat]
  exact ⟨hat, hkey⟩

theorem Consistent.position?_eq_none (h : c.Consistent) {key : String}
    (hr : c.record? key = none) : c.catalog.position? key = none := by
  cases hp : c.catalog.position? key with
  | none => rfl
  | some p =>
    obtain ⟨r, hat, -⟩ := (h.reflects.keys.position?_iff key p).mp hp
    unfold record? at hr
    rw [hp, Option.bind_some, recordAt?_eq, hat] at hr
    exact absurd hr (by simp)

theorem Consistent.record?_of_recordAt? (h : c.Consistent) {p : Nat} {r : Record}
    (hr : c.recordAt? p = some r) : c.record? r.key = some r := by
  unfold record?
  rw [h.reflects.keys.position?_eq hr, Option.bind_some, hr]

/-! ### Storing -/

theorem upsert_of_some {key : String} {r : Record} (h : c.record? key = some r) (data : Fields)
    (overwrite versioning : Bool) :
    (c.upsert key data overwrite versioning).contents =
      { c with
        slots := c.slots.set r.position (some ((c.catalog.unfile r).1.file
          { r with memberships := [], fields := mergedFields r.fields data overwrite }).2)
        catalog := ((c.catalog.unfile r).1.file
          { r with memberships := [], fields := mergedFields r.fields data overwrite }).1
        versions := if versioning then (c.versions.add key r.fields).2 else c.versions } := by
  unfold upsert
  rw [h]
  rfl

theorem upsert_of_none {key : String} (h : c.record? key = none) (data : Fields)
    (overwrite versioning : Bool) :
    (c.upsert key data overwrite versioning).contents =
      { c with
        slots := c.slots ++ [some ((c.catalog.insertPrimary key c.slots.length).file
          ⟨c.slots.length, key, data, []⟩).2]
        catalog := ((c.catalog.insertPrimary key c.slots.length).file
          ⟨c.slots.length, key, data, []⟩).1 } := by
  unfold upsert
  rw [h]

theorem Consistent.upsert (h : c.Consistent) (key : String) (data : Fields)
    (overwrite versioning : Bool) :
    (c.upsert key data overwrite versioning).contents.Consistent := by
  cases hr : c.record? key with
  | some r =>
    rw [upsert_of_some hr]
    obtain ⟨hat, -⟩ := h.record?_eq_some hr
    obtain ⟨pre, post, hslots, hlength⟩ := exists_split hat
    have hchanged := h.reflects.change hat (mergedFields r.fields data overwrite)
    have hcounted := h.counted
    rw [← hlength, hslots] at hchanged ⊢
    rw [update_slotAt] at hchanged
    rw [hslots] at hcounted
    refine ⟨?_, ?_⟩
    · simpa only [set_split] using hchanged
    · simpa [set_split, List.countP_append, List.countP_cons] using hcounted
  | none =>
    rw [upsert_of_none hr]
    have hadded := h.reflects.add (r := ⟨c.slots.length, key, data, []⟩) (slotAt_length c.slots)
      (h.position?_eq_none hr)
    refine ⟨?_, ?_⟩
    · rw [slotAt_append_some]
      exact hadded
    · simp [h.counted, List.countP_append]

/-! ### Taking out -/

theorem Consistent.forget (h : c.Consistent) {p : Nat} {r : Record}
    (hr : slotAt c.slots p = some r) :
    (c.forget r).catalog.Reflects (Function.update (slotAt c.slots) p none) :=
  h.reflects.drop hr

theorem Consistent.hollow (h : c.Consistent) {p : Nat} {r : Record} {c' : Contents}
    (hc : c.hollow p = some (r, c')) : c'.Consistent := by
  unfold Contents.hollow at hc
  obtain ⟨s, hs, heq⟩ := Option.map_eq_some_iff.mp hc
  obtain ⟨rfl, rfl⟩ := Prod.mk.inj heq
  obtain ⟨pre, post, hslots, rfl⟩ := exists_split hs
  have hdropped := h.forget hs
  have hcounted := h.counted
  rw [hslots] at hdropped hcounted
  rw [update_slotAt] at hdropped
  refine ⟨?_, ?_⟩
  · change (c.forget s).catalog.Reflects (slotAt (c.slots.set pre.length none))
    rw [hslots, set_split]
    exact hdropped
  · change c.holes + 1 = (c.slots.set pre.length none).countP Option.isNone
    rw [hslots, set_split, hcounted]
    simp only [List.countP_append, List.countP_cons]
    simp
    omega

theorem repositionSlots_none (catalog : Catalog) (offset : Nat) (rest : List (Option Record)) :
    repositionSlots catalog offset (none :: rest) =
      ((repositionSlots catalog (offset + 1) rest).1,
        none :: (repositionSlots catalog (offset + 1) rest).2) := rfl

theorem repositionSlots_some (catalog : Catalog) (offset : Nat) (r : Record)
    (rest : List (Option Record)) :
    repositionSlots catalog offset (some r :: rest) =
      ((repositionSlots (catalog.reposition r offset).1 (offset + 1) rest).1,
        some (catalog.reposition r offset).2 ::
          (repositionSlots (catalog.reposition r offset).1 (offset + 1) rest).2) := rfl

/-- Moving the records behind an empty place one place down, from the place on. -/
theorem repositionSlots_reflects (rest : List (Option Record)) (catalog : Catalog)
    (records : Nat → Option Record) (offset : Nat) (h : catalog.Reflects records)
    (hfree : records offset = none) (hrest : ∀ i, records (offset + 1 + i) = slotAt rest i) :
    (repositionSlots catalog offset rest).1.Reflects fun p =>
      if p < offset then records p
      else slotAt (repositionSlots catalog offset rest).2 (p - offset) := by
  induction rest generalizing catalog records offset with
  | nil =>
    refine h.ext fun p => ?_
    split_ifs with hp
    · rfl
    · rcases Nat.eq_or_lt_of_le (Nat.not_lt.mp hp) with rfl | hlt
      · rw [hfree]
        rfl
      · have hnone := hrest (p - offset - 1)
        rw [show offset + 1 + (p - offset - 1) = p by omega] at hnone
        rw [hnone]
        rfl
  | cons o rest ih =>
    cases o with
    | none =>
      have hnext : records (offset + 1) = none := hrest 0
      refine (ih catalog records (offset + 1) h hnext fun i => ?_).ext fun p => ?_
      · rw [← slotAt_cons_succ none rest i, ← hrest (i + 1)]
        congr 1
        omega
      · rw [repositionSlots_none]
        rcases lt_trichotomy p offset with hp | rfl | hp
        · rw [if_pos (by omega), if_pos hp]
        · rw [if_pos (by omega), if_neg (by omega), hfree, Nat.sub_self]
          rfl
        · rw [if_neg (by omega), if_neg (by omega),
            show p - offset = p - (offset + 1) + 1 by omega, slotAt_cons_succ]
    | some r =>
      have hnext : records (offset + 1) = some r := hrest 0
      have hmoved := h.reposition hnext hfree
      have hr : (catalog.reposition r offset).2 = { r with position := offset } := by
        unfold Catalog.reposition
        split_ifs with heq
        · rw [← heq]
        · rfl
      refine (ih (catalog.reposition r offset).1 _ (offset + 1) hmoved ?_ fun i => ?_).ext
        fun p => ?_
      · rw [Function.update_of_ne (by omega), Function.update_self]
      · rw [Function.update_of_ne (by omega), Function.update_of_ne (by omega),
          ← slotAt_cons_succ (some r) rest i, ← hrest (i + 1)]
        congr 1
        omega
      · rw [repositionSlots_some]
        rcases lt_trichotomy p offset with hp | rfl | hp
        · rw [if_pos (by omega), if_pos hp, Function.update_of_ne (by omega),
            Function.update_of_ne (by omega)]
        · rw [if_pos (by omega), if_neg (by omega), Function.update_self, Nat.sub_self]
          exact congrArg some hr.symm
        · rw [if_neg (by omega), if_neg (by omega),
            show p - offset = p - (offset + 1) + 1 by omega, slotAt_cons_succ]

theorem repositionSlots_records (rest : List (Option Record)) (catalog : Catalog)
    (offset : Nat) :
    (repositionSlots catalog offset rest).2.map (Option.map fun r => (r.key, r.fields)) =
      rest.map (Option.map fun r => (r.key, r.fields)) := by
  induction rest generalizing catalog offset with
  | nil => rfl
  | cons o rest ih =>
    cases o with
    | none => rw [repositionSlots_none, List.map_cons, List.map_cons, ih]
    | some r =>
      rw [repositionSlots_some, List.map_cons, List.map_cons, ih]
      have hr : (catalog.reposition r offset).2.key = r.key ∧
          (catalog.reposition r offset).2.fields = r.fields := by
        unfold Catalog.reposition
        split_ifs
        · exact ⟨rfl, rfl⟩
        · exact ⟨rfl, rfl⟩
      simp only [Option.map_some, hr.1, hr.2]

theorem countP_isNone_congr {slots slots' : List (Option Record)}
    (h : slots.map (Option.map fun r => (r.key, r.fields)) =
      slots'.map (Option.map fun r => (r.key, r.fields))) :
    slots.countP Option.isNone = slots'.countP Option.isNone := by
  have hcount : ∀ l : List (Option Record), l.countP Option.isNone =
      (l.map (Option.map fun r => (r.key, r.fields))).countP Option.isNone := by
    intro l
    rw [List.countP_map]
    congr 1
    funext o
    cases o <;> rfl
  rw [hcount, hcount, h]

theorem Consistent.cut (h : c.Consistent) {p : Nat} {r : Record} {c' : Contents}
    (hc : c.cut p = some (r, c')) : (c'.compactFrom p).Consistent := by
  unfold Contents.cut at hc
  obtain ⟨s, hs, heq⟩ := Option.map_eq_some_iff.mp hc
  obtain ⟨rfl, rfl⟩ := Prod.mk.inj heq
  obtain ⟨pre, post, hslots, rfl⟩ := exists_split hs
  have hdropped := h.forget hs
  have hcounted := h.counted
  rw [hslots] at hdropped hcounted
  rw [update_slotAt] at hdropped
  have hmoved := repositionSlots_reflects post (c.forget s).catalog _ pre.length hdropped
    (by rw [slotAt_append_right (le_refl _), Nat.sub_self]; rfl) fun i => by
      rw [slotAt_append_right (by omega),
        show pre.length + 1 + i - pre.length = i + 1 by omega, slotAt_cons_succ]
  have htake : (c.slots.eraseIdx pre.length).take pre.length = pre := by
    rw [hslots, eraseIdx_split, List.take_left' rfl]
  have hdrop : (c.slots.eraseIdx pre.length).drop pre.length = post := by
    rw [hslots, eraseIdx_split, List.drop_left' rfl]
  refine ⟨?_, ?_⟩
  · change (repositionSlots (c.forget s).catalog pre.length
      ((c.slots.eraseIdx pre.length).drop pre.length)).1.Reflects
        (slotAt ((c.slots.eraseIdx pre.length).take pre.length ++
          (repositionSlots (c.forget s).catalog pre.length
            ((c.slots.eraseIdx pre.length).drop pre.length)).2))
    rw [htake, hdrop]
    refine hmoved.ext fun q => ?_
    split_ifs with hq
    · rw [slotAt_append_left hq, slotAt_append_left hq]
    · rw [slotAt_append_right (Nat.not_lt.mp hq)]
  · change c.holes = ((c.slots.eraseIdx pre.length).take pre.length ++
          (repositionSlots (c.forget s).catalog pre.length
            ((c.slots.eraseIdx pre.length).drop pre.length)).2).countP Option.isNone
    rw [htake, hdrop, List.countP_append, countP_isNone_congr (repositionSlots_records _ _ _),
      hcounted, List.countP_append, List.countP_cons_of_neg (by simp)]

end IndexedStore.Contents
