import IndexedStore.Proofs.Caches
import IndexedStore.Proofs.SortedMap
import IndexedStore.Versions

/-!
The versions that are recorded while records change. Labels count all versions of a history:
records lose versions, and all of them may be dropped, but the count goes on, so no two versions
of one history have the same label, and a label that is kept stands for the version it was given
to. Only a new history starts the count again.
-/
namespace IndexedStore

/-- A version that was recorded. Its era is the number of histories that came before. -/
structure Recording where
  era : Nat
  label : String
  key : String
  fields : Fields

/-! ### The versions of one record -/

namespace RecordVersions

variable {r : RecordVersions} {name : String} {fields : Fields}

theorem versions_add (r : RecordVersions) (name : String) (fields : Fields) :
    (r.add name fields).versions = (r.versions.set name fields).2 := by
  unfold add
  split <;> rename_i hset <;> rw [hset]

def Listed (r : RecordVersions) : Prop := ∀ name ∈ r.order, (r.versions.peek? name).isSome

theorem listed_empty (limit : Nat) : (⟨.empty limit, []⟩ : RecordVersions).Listed :=
  fun _ hname => absurd hname List.not_mem_nil

/-- What is driven out is taken off the list as well. -/
theorem mem_order_add {other : String} (h : other ∈ (r.add name fields).order) :
    other = name ∨
      other ∈ r.order ∧ ∀ e, (r.versions.set name fields).1 = some e → e.1 ≠ other := by
  unfold add at h
  split at h
  · rename_i evicted _ _ hset
    rcases List.mem_append.mp h with h | h
    · obtain ⟨hmem, hne⟩ := List.mem_filter.mp h
      refine Or.inr ⟨hmem, fun e he => ?_⟩
      rw [hset] at he
      obtain rfl := Option.some.inj he
      exact (bne_iff_ne.mp hne).symm
    · exact Or.inl (List.mem_singleton.mp h)
  · rename_i hset
    rcases List.mem_append.mp h with h | h
    · refine Or.inr ⟨h, fun e he => ?_⟩
      rw [hset] at he
      exact absurd he (by simp)
    · exact Or.inl (List.mem_singleton.mp h)

theorem Listed.add (h : r.Listed) (name : String) (fields : Fields) :
    (r.add name fields).Listed := by
  intro other hother
  rw [versions_add]
  by_cases hname : other = name
  · rw [hname, Lru.peek?_set_self]
    rfl
  · obtain ⟨hmem, hkept⟩ := (mem_order_add hother).resolve_left hname
    rw [Lru.peek?_set_of_kept _ hname hkept]
    exact h other hmem

end RecordVersions

namespace Versions

/-! ### Changes -/

inductive Change where
  | add (key : String) (fields : Fields)
  | remove (key : String)
  | clear
  /-- A new history takes the place of the one so far. -/
  | renew (limit : Nat)

def changed (v : Versions) : Change → Versions
  | .add key fields => (v.add key fields).2
  | .remove key => v.remove key
  | .clear => v.clear
  | .renew limit => .empty limit

def after (v : Versions) (changes : List Change) : Versions := changes.foldl changed v

def renewals : List Change → Nat
  | [] => 0
  | .renew _ :: rest => renewals rest + 1
  | .add _ _ :: rest | .remove _ :: rest | .clear :: rest => renewals rest

def recordings (v : Versions) (era : Nat) : List Change → List Recording
  | [] => []
  | .add key fields :: rest =>
    ⟨era, (v.add key fields).1, key, fields⟩ :: (v.add key fields).2.recordings era rest
  | .remove key :: rest => (v.remove key).recordings era rest
  | .clear :: rest => v.clear.recordings era rest
  | .renew limit :: rest => (empty limit).recordings (era + 1) rest

variable {v : Versions} {era : Nat} {changes : List Change}

theorem after_append (v : Versions) (before later : List Change) :
    v.after (before ++ later) = (v.after before).after later := List.foldl_append

theorem renewals_append (before later : List Change) :
    renewals (before ++ later) = renewals before + renewals later := by
  induction before with
  | nil => exact (Nat.zero_add _).symm
  | cons change rest ih =>
    cases change with
    | renew limit =>
      change renewals (rest ++ later) + 1 = renewals rest + 1 + renewals later
      omega
    | add key fields => exact ih
    | remove key => exact ih
    | clear => exact ih

theorem recordings_append (v : Versions) (era : Nat) (before later : List Change) :
    v.recordings era (before ++ later) =
      v.recordings era before ++ (v.after before).recordings (era + renewals before) later := by
  induction before generalizing v era with
  | nil => rfl
  | cons change rest ih =>
    cases change with
    | add key fields => exact congrArg (List.cons _) (ih _ era)
    | remove key => exact ih _ era
    | clear => exact ih _ era
    | renew limit =>
      have hera : era + renewals (.renew limit :: rest) = era + 1 + renewals rest := by
        rw [renewals]
        omega
      rw [hera]
      exact ih _ (era + 1)

/-! ### Labels -/

theorem label_injective {m n : Nat} (h : label m = label n) : m = n := by
  unfold label at h
  have hrepr : m.repr = n.repr := by simpa using h
  have hdigits : Nat.toDigits 10 m = Nat.toDigits 10 n := by
    rw [← Nat.toList_repr, ← Nat.toList_repr, hrepr]
  have hread := congrArg (Nat.ofDigitChars 10 · 0) hdigits
  simpa using hread

theorem era_of_mem {r : Recording} (h : r ∈ v.recordings era changes) :
    era ≤ r.era ∧ r.era ≤ era + renewals changes := by
  induction changes generalizing v era with
  | nil => exact absurd h List.not_mem_nil
  | cons change rest ih =>
    cases change with
    | add key fields =>
      rcases List.mem_cons.mp h with rfl | h
      · exact ⟨Nat.le_refl _, Nat.le_add_right _ _⟩
      · exact ih h
    | remove key => exact ih h
    | clear => exact ih h
    | renew limit =>
      obtain ⟨hge, hle⟩ := ih h
      rw [renewals]
      omega

/-- What is recorded in a history is counted on from what was recorded in it before. -/
theorem exists_label_of_mem {r : Recording} (h : r ∈ v.recordings era changes)
    (hera : r.era = era) : ∃ n, v.next ≤ n ∧ r.label = label n := by
  induction changes generalizing v with
  | nil => exact absurd h List.not_mem_nil
  | cons change rest ih =>
    cases change with
    | add key fields =>
      rcases List.mem_cons.mp h with rfl | h
      · exact ⟨v.next, Nat.le_refl _, rfl⟩
      · obtain ⟨n, hn, hlabel⟩ := ih h
        exact ⟨n, Nat.le_of_succ_le hn, hlabel⟩
    | remove key => exact ih (v := v.remove key) h
    | clear => exact ih (v := v.clear) h
    | renew limit =>
      have hrest : r ∈ (empty limit).recordings (era + 1) rest := h
      have hge := (era_of_mem hrest).1
      omega

/-- No label is given twice in one history. -/
theorem nodup_recordings (v : Versions) (era : Nat) (changes : List Change) :
    ((v.recordings era changes).map fun r => (r.era, r.label)).Nodup := by
  induction changes generalizing v era with
  | nil => exact List.nodup_nil
  | cons change rest ih =>
    cases change with
    | add key fields =>
      refine List.nodup_cons.mpr ⟨fun hmem => ?_, ih _ era⟩
      obtain ⟨r, hr, heq⟩ := List.mem_map.mp hmem
      obtain ⟨hera, hlabel⟩ := Prod.mk.inj heq
      obtain ⟨n, hn, hcounted⟩ := exists_label_of_mem hr hera
      have hsame : n = v.next := label_injective (hcounted.symm.trans hlabel)
      have hnext : v.next + 1 ≤ n := hn
      omega
    | remove key => exact ih _ era
    | clear => exact ih _ era
    | renew limit => exact ih _ (era + 1)

/-- The first version of a history gets the first label. -/
theorem exists_first (hnext : v.next = 0) {r : Recording} (h : r ∈ v.recordings era changes) :
    ∃ first ∈ v.recordings era changes, first.era = r.era ∧ first.label = label 0 := by
  suffices hfirst : ∀ (v : Versions) (era : Nat), r ∈ v.recordings era changes →
      ∃ first ∈ v.recordings era changes, first.era = r.era ∧
        first.label = label (if r.era = era then v.next else 0) by
    obtain ⟨first, hmem, hera, hlabel⟩ := hfirst v era h
    rw [hnext, ite_self] at hlabel
    exact ⟨first, hmem, hera, hlabel⟩
  clear h hnext
  intro v era h
  induction changes generalizing v era with
  | nil => exact absurd h List.not_mem_nil
  | cons change rest ih =>
    cases change with
    | add key fields =>
      by_cases hera : r.era = era
      · refine ⟨_, List.mem_cons_self, hera.symm, ?_⟩
        rw [if_pos hera]
        rfl
      · rcases List.mem_cons.mp h with rfl | h
        · exact absurd rfl hera
        · obtain ⟨first, hmem, hsame, hlabel⟩ := ih _ era h
          rw [if_neg hera] at hlabel ⊢
          exact ⟨first, List.mem_cons_of_mem _ hmem, hsame, hlabel⟩
    | remove key => exact ih _ era h
    | clear => exact ih _ era h
    | renew limit =>
      obtain ⟨first, hmem, hsame, hlabel⟩ := ih _ (era + 1) h
      have hrest : r ∈ (empty limit).recordings (era + 1) rest := h
      have hge := (era_of_mem hrest).1
      rw [if_neg (show r.era ≠ era by omega)]
      exact ⟨first, hmem, hsame, hlabel.trans (congrArg label (ite_self 0))⟩

/-- All labels differ exactly if all versions were recorded in one history. -/
theorem nodup_labels_iff (hnext : v.next = 0) :
    ((v.recordings era changes).map Recording.label).Nodup ↔
      ∀ r ∈ v.recordings era changes, ∀ r' ∈ v.recordings era changes, r.era = r'.era := by
  have hpairs := nodup_recordings v era changes
  constructor
  · intro hlabels r hr r' hr'
    obtain ⟨first, hfirst, hera, hlabel⟩ := exists_first hnext hr
    obtain ⟨first', hfirst', hera', hlabel'⟩ := exists_first hnext hr'
    have hsame : first = first' :=
      List.inj_on_of_nodup_map hlabels hfirst hfirst' (hlabel.trans hlabel'.symm)
    rw [← hera, ← hera', hsame]
  · intro hera
    apply List.Nodup.map_on _ hpairs.of_map
    intro r hr r' hr' hlabel
    exact List.inj_on_of_nodup_map hpairs hr hr' (Prod.ext (hera r hr r' hr') hlabel)

/-! ### Versions that are kept -/

theorem get?_empty (limit : Nat) (key name : String) : (empty limit).get? key name = none := rfl

theorem get?_clear (v : Versions) (key name : String) : v.clear.get? key name = none := rfl

theorem get?_add {key other name : String} {fields found : Fields}
    (h : (v.add key fields).2.get? other name = some found) :
    other = key ∧ name = label v.next ∧ found = fields ∨ v.get? other name = some found := by
  unfold add get? at h
  dsimp only at h
  rw [SortedMap.get?_insert] at h
  split_ifs at h with hkey
  · subst hkey
    rw [Option.bind_some, RecordVersions.versions_add] at h
    by_cases hname : name = label v.next
    · rw [hname, Lru.peek?_set_self] at h
      exact Or.inl ⟨rfl, hname, (Option.some.inj h).symm⟩
    · right
      have hbefore := Lru.peek?_of_set _ hname h
      unfold get?
      cases hr : SortedMap.get? v.records other with
      | none =>
        rw [hr] at hbefore
        exact absurd hbefore (by simp [Lru.peek?, Lru.empty])
      | some r =>
        rw [hr] at hbefore
        exact hbefore
  · exact Or.inr h

theorem get?_remove {key other name : String} {found : Fields}
    (h : (v.remove key).get? other name = some found) : v.get? other name = some found := by
  unfold remove get? at h
  dsimp only at h
  rw [SortedMap.get?_erase] at h
  split_ifs at h
  · exact absurd h (by simp)
  · exact h

/-- What is kept was recorded in the last history, or was there before. -/
theorem mem_recordings_of_get? (era : Nat) {key name : String} {fields : Fields}
    (h : (v.after changes).get? key name = some fields) :
    ⟨era + renewals changes, name, key, fields⟩ ∈ v.recordings era changes ∨
      renewals changes = 0 ∧ v.get? key name = some fields := by
  induction changes generalizing v era with
  | nil => exact Or.inr ⟨rfl, h⟩
  | cons change rest ih =>
    cases change with
    | add other data =>
      rcases ih era h with hmem | ⟨hnone, hkept⟩
      · exact Or.inl (List.mem_cons_of_mem _ hmem)
      · rcases get?_add hkept with ⟨rfl, rfl, rfl⟩ | hkept
        · left
          rw [show renewals (.add key fields :: rest) = 0 from hnone]
          exact List.mem_cons_self
        · exact Or.inr ⟨hnone, hkept⟩
    | remove other =>
      rcases ih era h with hmem | ⟨hnone, hkept⟩
      · exact Or.inl hmem
      · exact Or.inr ⟨hnone, get?_remove hkept⟩
    | clear =>
      rcases ih era h with hmem | ⟨-, hkept⟩
      · exact Or.inl hmem
      · exact absurd ((v.get?_clear key name).symm.trans hkept) (by simp)
    | renew limit =>
      rcases ih (era + 1) h with hmem | ⟨-, hkept⟩
      · left
        rw [show era + renewals (.renew limit :: rest) = era + 1 + renewals rest by
          rw [renewals]; omega]
        exact hmem
      · exact absurd ((get?_empty limit key name).symm.trans hkept) (by simp)

structure Sound (v : Versions) : Prop where
  listed : ∀ key r, SortedMap.get? v.records key = some r → r.Listed
  counted : ∀ key name fields, v.get? key name = some fields → ∃ n < v.next, name = label n

theorem Sound.empty (limit : Nat) : (empty limit).Sound where
  listed key r hr := absurd hr (by simp [Versions.empty, SortedMap.get?_nil])
  counted key name fields hget := absurd ((get?_empty limit key name).symm.trans hget) (by simp)

theorem Sound.add (h : v.Sound) (key : String) (fields : Fields) : (v.add key fields).2.Sound where
  listed other r hr := by
    unfold Versions.add at hr
    dsimp only at hr
    rw [SortedMap.get?_insert] at hr
    split_ifs at hr
    · obtain rfl := Option.some.inj hr
      apply RecordVersions.Listed.add
      cases hbefore : SortedMap.get? v.records key with
      | none => exact RecordVersions.listed_empty v.limit
      | some r => exact h.listed key r hbefore
    · exact h.listed other r hr
  counted other name found hget := by
    rcases get?_add hget with ⟨-, hname, -⟩ | hget
    · exact ⟨v.next, Nat.lt_succ_self _, hname⟩
    · obtain ⟨n, hn, hname⟩ := h.counted other name found hget
      exact ⟨n, Nat.lt_succ_of_lt hn, hname⟩

theorem Sound.remove (h : v.Sound) (key : String) : (v.remove key).Sound where
  listed other r hr := by
    unfold Versions.remove at hr
    dsimp only at hr
    rw [SortedMap.get?_erase] at hr
    split_ifs at hr
    exact h.listed other r hr
  counted other name found hget := h.counted other name found (get?_remove hget)

theorem Sound.clear (v : Versions) : v.clear.Sound where
  listed key r hr := absurd hr (by simp [Versions.clear, SortedMap.get?_nil])
  counted key name fields hget := absurd ((v.get?_clear key name).symm.trans hget) (by simp)

theorem Sound.changed (h : v.Sound) (change : Change) : (v.changed change).Sound := by
  cases change with
  | add key fields => exact h.add key fields
  | remove key => exact h.remove key
  | clear => exact Sound.clear v
  | renew limit => exact Sound.empty limit

theorem Sound.after (h : v.Sound) (changes : List Change) : (v.after changes).Sound := by
  unfold Versions.after
  induction changes generalizing v with
  | nil => exact h
  | cons change rest ih => exact ih (h.changed change)

/-- Each label of a record has its version. -/
theorem Sound.exists_of_mem_labels (h : v.Sound) {key name : String} (hname : name ∈ v.labels key) :
    ∃ fields, v.get? key name = some fields := by
  unfold labels at hname
  unfold get?
  cases hr : SortedMap.get? v.records key with
  | none =>
    rw [hr] at hname
    exact absurd hname List.not_mem_nil
  | some r =>
    rw [hr] at hname
    exact Option.isSome_iff_exists.mp (h.listed key r hr name hname)

/-- Within a history, a label that is kept stands for the same version. -/
theorem Sound.get?_after (h : v.Sound) (hera : renewals changes = 0) {key name : String}
    {fields found : Fields} (hget : v.get? key name = some fields)
    (hfound : (v.after changes).get? key name = some found) : found = fields := by
  rcases mem_recordings_of_get? 0 hfound with hmem | ⟨-, hkept⟩
  · obtain ⟨m, hm, hlabel⟩ := exists_label_of_mem hmem (by rw [hera])
    obtain ⟨n, hn, hname⟩ := h.counted key name fields hget
    have hsame : m = n := label_injective (hlabel.symm.trans hname)
    omega
  · exact Option.some.inj (hkept.symm.trans hget)

end Versions
end IndexedStore
