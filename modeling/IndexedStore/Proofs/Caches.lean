import Mathlib.Data.Finset.Card
import IndexedStore.Lru

/-!
Caches that keep the entries touched last. An erased key is gone and the others stay; a touch
changes nothing about the other keys; a new entry drives out at most the last one, and none when
there is room for all the keys in use.
-/
namespace IndexedStore

namespace Lru

variable {κ α : Type} [BEq κ] (c : Lru κ α) {key other : κ} {x y : α}

theorem keys_erase : (c.erase key).keys = c.keys.filter fun k => !(k == key) := by
  unfold erase keys
  rw [List.filter_map]
  rfl

theorem keys_touch : (c.touch key x).keys = key :: (c.erase key).keys := rfl

theorem mem_set {c : Lru κ α} {e : κ × α} (h : e ∈ (c.set key x).2.entries) :
    e = (key, x) ∨ e ∈ c.entries := by
  unfold set at h
  split_ifs at h
  · unfold touch erase at h
    rcases List.mem_cons.mp h with rfl | h
    · exact Or.inl rfl
    · exact Or.inr (List.mem_filter.mp h).1
  · rcases List.mem_cons.mp h with rfl | h
    · exact Or.inl rfl
    · exact Or.inr ((List.dropLast_sublist _).mem h)

/-- A cache that has room for all the keys in use. -/
structure Within (c : Lru κ α) (used : Finset κ) : Prop where
  distinct : c.keys.Nodup
  mem_used : ∀ key ∈ c.keys, key ∈ used
  room : used.card ≤ c.capacity

theorem Within.erase {c : Lru κ α} {used : Finset κ} (h : c.Within used) (key : κ) :
    (c.erase key).Within used := by
  refine ⟨?_, fun k hk => h.mem_used k ?_, h.room⟩
  · rw [keys_erase]
    exact h.distinct.filter _
  · rw [keys_erase] at hk
    exact (List.mem_filter.mp hk).1

variable [LawfulBEq κ]

theorem peek?_erase_self : (c.erase key).peek? key = none := by
  unfold peek? erase
  rw [List.find?_eq_none.mpr, Option.map_none]
  intro e he
  simpa using (List.mem_filter.mp he).2

theorem peek?_erase_of_ne (h : other ≠ key) : (c.erase key).peek? other = c.peek? other := by
  unfold peek? erase
  rw [List.find?_filter]
  congr 2
  funext e
  by_cases he : e.1 = other
  · simp [he, h]
  · simp [he]

theorem peek?_touch_self : (c.touch key x).peek? key = some x := by
  unfold peek? touch
  rw [List.find?_cons_of_pos (by simp), Option.map_some]

theorem peek?_touch_of_ne (h : other ≠ key) : (c.touch key x).peek? other = c.peek? other := by
  rw [← c.peek?_erase_of_ne h]
  unfold peek? touch
  rw [List.find?_cons_of_neg (by simpa using h.symm)]

theorem touch_touch : (c.touch key x).touch key y = c.touch key y := by
  unfold touch erase
  congr 2
  rw [List.filter_cons_of_neg (by simp), List.filter_filter]
  simp only [Bool.and_self]

theorem peek?_set_self : (c.set key x).2.peek? key = some x := by
  unfold set
  split_ifs
  · exact c.peek?_touch_self
  · unfold peek?
    rw [List.find?_cons_of_pos (by simp), Option.map_some]

/-- What is left under another key after a new entry was made there before. -/
theorem peek?_of_set (h : other ≠ key) (hy : (c.set key x).2.peek? other = some y) :
    c.peek? other = some y := by
  unfold set at hy
  split_ifs at hy
  · rwa [← c.peek?_touch_of_ne h (x := x)]
  · unfold peek? at hy ⊢
    rw [List.find?_cons_of_neg (by simpa using h.symm)] at hy
    obtain ⟨e, he, rfl⟩ := Option.map_eq_some_iff.mp hy
    rw [(List.dropLast_prefix _).find?_eq_some he, Option.map_some]

/-- An entry that is not driven out stays. -/
theorem peek?_set_of_kept (h : other ≠ key) (hkept : ∀ e, (c.set key x).1 = some e → e.1 ≠ other) :
    (c.set key x).2.peek? other = c.peek? other := by
  unfold set at hkept ⊢
  split_ifs at hkept ⊢
  · exact c.peek?_touch_of_ne h
  · unfold peek?
    rw [List.find?_cons_of_neg (by simpa using h.symm)]
    cases hlast : c.entries.getLast? with
    | none => rw [List.getLast?_eq_none_iff.mp hlast, List.dropLast_nil]
    | some e =>
      have hother : e.1 ≠ other := hkept e hlast
      conv_rhs => rw [← List.dropLast_append_getLast? e hlast]
      rw [List.find?_append, List.find?_cons_of_neg (by simpa using hother), List.find?_nil,
        Option.or_none]

theorem mem_of_peek? (h : c.peek? key = some x) : (key, x) ∈ c.entries := by
  obtain ⟨e, he, rfl⟩ := Option.map_eq_some_iff.mp h
  obtain rfl : e.1 = key := by simpa using List.find?_some he
  exact List.mem_of_find?_eq_some he

theorem mem_keys_of_peek? (h : c.peek? key = some x) : key ∈ c.keys :=
  List.mem_map_of_mem (c.mem_of_peek? h)

theorem mem_keys_iff : key ∈ c.keys ↔ c.contains key = true := by
  unfold keys contains
  simp

variable {c} {used : Finset κ}

theorem Within.touch (h : c.Within used) (hkey : key ∈ used) (x : α) :
    (c.touch key x).Within used := by
  have hothers := h.erase key
  refine ⟨?_, ?_, h.room⟩
  · rw [keys_touch, List.nodup_cons]
    refine ⟨?_, hothers.distinct⟩
    rw [keys_erase]
    simp
  · rw [keys_touch]
    intro k hk
    rcases List.mem_cons.mp hk with rfl | hk
    · exact hkey
    · exact hothers.mem_used k hk

/-- With room for all the keys in use a new entry drives none out. -/
theorem Within.set_eq (h : c.Within used) (hkey : key ∈ used) (x : α) :
    (c.set key x).2 = c.touch key x := by
  classical
  have hroom : c.contains key = true ∨ c.entries.length < c.capacity := by
    by_cases hmem : key ∈ c.keys
    · exact Or.inl (c.mem_keys_iff.mp hmem)
    · have hsub : (key :: c.keys).toFinset ⊆ used := by
        intro k hk
        rcases List.mem_cons.mp (List.mem_toFinset.mp hk) with rfl | hk
        · exact hkey
        · exact h.mem_used k hk
      have hcard := (Finset.card_le_card hsub).trans h.room
      rw [List.toFinset_card_of_nodup (List.nodup_cons.mpr ⟨hmem, h.distinct⟩),
        List.length_cons] at hcard
      have hlength : c.keys.length = c.entries.length := List.length_map _
      exact Or.inr (by omega)
  unfold set
  rw [if_pos (by simpa using hroom)]

end Lru
end IndexedStore
