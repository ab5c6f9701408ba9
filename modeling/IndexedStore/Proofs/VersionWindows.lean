import IndexedStore.Proofs.Recency
import IndexedStore.Proofs.Versions

/-!
The versions of a record are a sliding window. Of the versions that were recorded under a key since
its versions were dropped the latest stay, as many as the limit says; the labels of other keys that
are counted in between leave no mark.
-/
namespace IndexedStore

/-! ### The versions of one record -/

namespace RecordVersions

def window (limit : Nat) (recorded : List (String × Fields)) : RecordVersions :=
  ⟨⟨limit, recorded.take limit⟩, ((recorded.take limit).map Prod.fst).reverse⟩

variable {limit : Nat} {recorded : List (String × Fields)} {name : String} {fields : Fields}

theorem window_nil (h : 0 < limit) : window limit [] = ⟨.empty limit, []⟩ := by
  unfold window Lru.empty
  rw [List.take_nil, max_eq_left (Nat.succ_le_of_lt h)]
  rfl

/-- A new version comes to the window, and the oldest leaves a full one. -/
theorem add_window (h : 0 < limit) (hname : name ∉ recorded.map Prod.fst)
    (hnodup : (recorded.map Prod.fst).Nodup) :
    (window limit recorded).add name fields = window limit ((name, fields) :: recorded) := by
  obtain ⟨m, rfl⟩ := Nat.exists_eq_add_one.mpr h
  have hnew : ∀ e ∈ recorded.take (m + 1), e.1 ≠ name := fun e he heq =>
    hname (heq ▸ List.mem_map_of_mem (List.mem_of_mem_take he))
  have hout : (window (m + 1) recorded).versions.contains name = false :=
    List.any_eq_false.mpr fun e he => by simpa using hnew e he
  have hothers : (window (m + 1) recorded).versions.touch name fields =
      ⟨m + 1, (name, fields) :: recorded.take (m + 1)⟩ := by
    unfold Lru.touch Lru.erase window
    congr 2
    exact List.filter_eq_self.mpr fun e he => by simpa using hnew e he
  unfold add Lru.set
  rw [hout, Bool.false_or, hothers]
  unfold window
  dsimp only
  rw [List.take_succ_cons, List.map_cons, List.reverse_cons]
  by_cases hfull : m < recorded.length
  · have htake : recorded.take (m + 1) = recorded.take m ++ [recorded[m]] :=
      List.take_succ_eq_append_getElem hfull
    have holdest : recorded[m].1 ∉ (recorded.take m).map Prod.fst := by
      have hdistinct := hnodup.sublist ((List.take_sublist (m + 1) recorded).map Prod.fst)
      rw [htake, List.map_append, List.map_singleton, List.nodup_append] at hdistinct
      exact fun hmem => hdistinct.2.2 _ hmem _ (List.mem_singleton_self _) rfl
    rw [if_neg (by rw [decide_eq_true_iff, List.length_take]; omega), htake,
      List.getLast?_concat, List.dropLast_concat]
    dsimp only
    congr 2
    rw [List.map_append, List.map_singleton, List.reverse_concat,
      List.filter_cons_of_neg (by simp), List.filter_eq_self]
    intro other hother
    exact bne_iff_ne.mpr fun heq => holdest (heq ▸ List.mem_reverse.mp hother)
  · have hall : recorded.length ≤ m := Nat.not_lt.mp hfull
    rw [if_pos (by rw [decide_eq_true_iff, List.length_take]; omega), List.take_of_length_le hall,
      List.take_of_length_le (Nat.le_succ_of_le hall)]

end RecordVersions

namespace Versions

/-! ### Windows -/

/-- What a change makes of the versions that were recorded under a key since they were dropped, the
latest first. -/
def recordedBy (v : Versions) (key : String) (recorded : List (String × Fields)) :
    Change → List (String × Fields)
  | .add other fields =>
    if other = key then ((v.add key fields).1, fields) :: recorded else recorded
  | .remove other => if other = key then [] else recorded
  | .clear | .renew _ => []

def recordedSince (v : Versions) (key : String) (recorded : List (String × Fields)) :
    List Change → List (String × Fields)
  | [] => recorded
  | change :: rest =>
    (v.changed change).recordedSince key (v.recordedBy key recorded change) rest

structure Windowed (v : Versions) (key : String) (recorded : List (String × Fields)) : Prop where
  pos : 0 < v.limit
  records : SortedMap.get? v.records key =
    if recorded = [] then none else some (RecordVersions.window v.limit recorded)
  nodup : (recorded.map Prod.fst).Nodup
  counted : ∀ name ∈ recorded.map Prod.fst, ∃ n < v.next, name = label n

variable {v : Versions} {key : String} {recorded : List (String × Fields)}

theorem windowed_empty (limit : Nat) (key : String) : (empty limit).Windowed key [] :=
  ⟨lt_of_lt_of_le Nat.one_pos (le_max_right _ _), rfl, List.nodup_nil, nofun⟩

/-- The next label is none of those that were given. -/
theorem Windowed.next_not_mem (h : v.Windowed key recorded) :
    label v.next ∉ recorded.map Prod.fst := by
  intro hmem
  obtain ⟨n, hn, heq⟩ := h.counted _ hmem
  exact absurd (label_injective heq) (Nat.ne_of_gt hn)

theorem Windowed.add_self (h : v.Windowed key recorded) (fields : Fields) :
    (v.add key fields).2.Windowed key (((v.add key fields).1, fields) :: recorded) := by
  have hnew := h.next_not_mem
  have hbefore : (SortedMap.get? v.records key).getD ⟨.empty v.limit, []⟩ =
      RecordVersions.window v.limit recorded := by
    rw [h.records]
    split_ifs with hnil
    · rw [hnil, RecordVersions.window_nil h.pos]
      rfl
    · rfl
  refine ⟨h.pos, ?_, List.nodup_cons.mpr ⟨hnew, h.nodup⟩, ?_⟩
  · unfold add
    dsimp only
    rw [SortedMap.get?_insert, if_pos rfl, hbefore, RecordVersions.add_window h.pos hnew h.nodup,
      if_neg (List.cons_ne_nil _ _)]
  · intro name hname
    rcases List.mem_cons.mp hname with rfl | hname
    · exact ⟨v.next, Nat.lt_succ_self _, rfl⟩
    · obtain ⟨n, hn, heq⟩ := h.counted name hname
      exact ⟨n, Nat.lt_succ_of_lt hn, heq⟩

/-- Changes that leave the versions of a key alone. -/
theorem Windowed.of_same (h : v.Windowed key recorded) {w : Versions} (hlimit : w.limit = v.limit)
    (hnext : v.next ≤ w.next)
    (hrecords : SortedMap.get? w.records key = SortedMap.get? v.records key) :
    w.Windowed key recorded := by
  refine ⟨hlimit ▸ h.pos, by rw [hrecords, h.records, hlimit], h.nodup, fun name hname => ?_⟩
  obtain ⟨n, hn, heq⟩ := h.counted name hname
  exact ⟨n, Nat.lt_of_lt_of_le hn hnext, heq⟩

theorem Windowed.changed (h : v.Windowed key recorded) (change : Change) :
    (v.changed change).Windowed key (v.recordedBy key recorded change) := by
  cases change with
  | add other fields =>
    unfold Versions.changed recordedBy
    dsimp only
    split_ifs with hkey
    · rw [hkey]
      exact h.add_self fields
    · refine h.of_same rfl (Nat.le_succ _) ?_
      unfold add
      rw [SortedMap.get?_insert, if_neg (Ne.symm hkey)]
  | remove other =>
    unfold Versions.changed recordedBy remove
    dsimp only
    split_ifs with hkey
    · refine ⟨h.pos, ?_, List.nodup_nil, nofun⟩
      rw [SortedMap.get?_erase, if_pos hkey.symm, if_pos rfl]
    · refine h.of_same rfl le_rfl ?_
      rw [SortedMap.get?_erase, if_neg (Ne.symm hkey)]
  | clear => exact ⟨h.pos, SortedMap.get?_nil key, List.nodup_nil, nofun⟩
  | renew limit => exact windowed_empty limit key

theorem Windowed.after (h : v.Windowed key recorded) (changes : List Change) :
    (v.after changes).Windowed key (v.recordedSince key recorded changes) := by
  induction changes generalizing v recorded with
  | nil => exact h
  | cons change rest ih => exact ih (h.changed change)

/-! ### What is read from a window -/

theorem Windowed.labels_eq (h : v.Windowed key recorded) :
    v.labels key = ((recorded.take v.limit).map Prod.fst).reverse := by
  unfold labels
  rw [h.records]
  split_ifs with hnil
  · rw [hnil, List.take_nil]
    rfl
  · rfl

theorem Windowed.get?_iff (h : v.Windowed key recorded) (name : String) (fields : Fields) :
    v.get? key name = some fields ↔ (name, fields) ∈ recorded.take v.limit := by
  have hkeys : (RecordVersions.window v.limit recorded).versions.keys.Nodup :=
    h.nodup.sublist ((List.take_sublist _ _).map Prod.fst)
  unfold get?
  rw [h.records]
  split_ifs with hnil
  · simp [hnil]
  · exact ⟨Lru.mem_of_peek? _, Lru.peek?_of_mem hkeys⟩

theorem Windowed.get?_eq_none (h : v.Windowed key recorded) {name : String}
    (hname : name ∉ v.labels key) : v.get? key name = none := by
  rw [Option.eq_none_iff_forall_ne_some]
  intro fields hget
  rw [h.labels_eq, List.mem_reverse] at hname
  exact hname (List.mem_map_of_mem ((h.get?_iff name fields).mp hget))

theorem Windowed.exists_get? (h : v.Windowed key recorded) {name : String}
    (hname : name ∈ v.labels key) :
    ∃ fields, (name, fields) ∈ recorded ∧ v.get? key name = some fields := by
  rw [h.labels_eq, List.mem_reverse] at hname
  obtain ⟨⟨_, fields⟩, hmem, rfl⟩ := List.mem_map.mp hname
  exact ⟨fields, List.mem_of_mem_take hmem, (h.get?_iff _ _).mpr hmem⟩

theorem Windowed.oldest?_eq (h : v.Windowed key recorded) :
    v.oldest? key = (recorded.take v.limit).getLast? := by
  unfold oldest?
  rw [h.labels_eq]
  cases hlast : (recorded.take v.limit).getLast? with
  | none => rw [List.getLast?_eq_none_iff.mp hlast]; rfl
  | some e =>
    have hget := (h.get?_iff e.1 e.2).mpr (List.mem_of_getLast? hlast)
    rw [← List.dropLast_append_getLast? e hlast, List.map_append, List.map_singleton,
      List.reverse_concat]
    dsimp only
    rw [hget]
    rfl

/-- The version recorded last is kept, and its label comes last. -/
theorem Windowed.newest {name : String} {fields : Fields}
    (h : v.Windowed key ((name, fields) :: recorded)) :
    (v.labels key).getLast? = some name ∧ v.get? key name = some fields := by
  obtain ⟨m, hm⟩ := Nat.exists_eq_add_one.mpr h.pos
  rw [h.labels_eq, h.get?_iff, hm, List.take_succ_cons, List.map_cons, List.reverse_cons,
    List.getLast?_concat]
  exact ⟨rfl, List.mem_cons_self⟩

theorem Windowed.contains_iff (h : v.Windowed key recorded) :
    v.contains key = true ↔ 0 < recorded.length := by
  unfold contains
  rw [SortedMap.contains_eq_isSome, h.records, List.length_pos_iff]
  split_ifs with hnil <;> simp [hnil]

/-! ### Calls -/

inductive Call where
  | add (key : String) (fields : Fields)
  | get (key name : String)
  | oldest (key : String)
  | labels (key : String)
  | remove (key : String)
  | clear

def Call.change? : Call → Option Change
  | .add key fields => some (.add key fields)
  | .remove key => some (.remove key)
  | .clear => some .clear
  | .get _ _ | .oldest _ | .labels _ => none

def changes (calls : List Call) : List Change := calls.filterMap Call.change?

theorem renewals_changes (calls : List Call) : renewals (changes calls) = 0 := by
  induction calls with
  | nil => rfl
  | cons call rest ih => cases call <;> exact ih

/-- Only a new history has another limit. -/
theorem limit_after {changes : List Change} (h : renewals changes = 0) :
    (v.after changes).limit = v.limit := by
  induction changes generalizing v with
  | nil => rfl
  | cons change rest ih =>
    cases change with
    | renew limit => exact absurd h (Nat.succ_ne_zero _)
    | add | remove | clear => exact ih h

/-- After calls on a new history, the labels of a key are the last of those that were recorded under
it since it was removed or the history cleared, as many as the limit says. Just these labels come
with fields, those they were recorded with, and no label is returned twice. -/
theorem window_after_calls (limit : Nat) (calls : List Call) :
    let v := (empty limit).after (changes calls)
    (∀ key,
      let recorded := (empty limit).recordedSince key [] (changes calls)
      let kept := recorded.take (max limit 1)
      v.labels key = (kept.map Prod.fst).reverse ∧
      (∀ name fields, v.get? key name = some fields ↔ (name, fields) ∈ kept) ∧
      v.oldest? key = kept.getLast? ∧
      (v.contains key = true ↔ 0 < recorded.length)) ∧
    (((empty limit).recordings 0 (changes calls)).map Recording.label).Nodup := by
  intro v
  constructor
  · intro key recorded kept
    have h : v.Windowed key recorded := (windowed_empty limit key).after (changes calls)
    have hlimit : v.limit = max limit 1 := limit_after (renewals_changes calls)
    have hkept : kept = recorded.take v.limit := by rw [hlimit]
    rw [hkept]
    exact ⟨h.labels_eq, h.get?_iff, h.oldest?_eq, h.contains_iff⟩
  · refine (nodup_labels_iff rfl).mpr fun r hr r' hr' => ?_
    have hera := era_of_mem hr
    have hera' := era_of_mem hr'
    rw [renewals_changes] at hera hera'
    omega

end Versions
end IndexedStore
