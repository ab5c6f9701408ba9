import Mathlib.Data.String.Basic
import IndexedStore.SortedMap

/-!
Sorted maps by their look-ups. Each operation has its look-up equation, which holds of every
list of entries, and keeps the order of names. On ascending lists the look-ups determine the
list, so two of them with the same entries are equal.
-/
namespace IndexedStore.SortedMap

variable {α β : Type}

/-! ### Look-ups -/

theorem get?_nil (k : String) : get? ([] : SortedMap α) k = none := rfl

theorem get?_cons (n : String) (x : α) (m : SortedMap α) (k : String) :
    get? ((n, x) :: m) k = if n = k then some x else get? m k := by
  unfold get?
  by_cases h : n = k
  · simp [h]
  · rw [List.find?_cons_of_neg (by simpa using h), if_neg h]

theorem get?_insert_self (m : SortedMap α) (n : String) (x : α) :
    get? (insert m n x) n = some x := by
  induction m with
  | nil => simp [insert, get?_cons]
  | cons e m ih =>
    obtain ⟨other, y⟩ := e
    unfold insert
    split_ifs with hlt heq
    · simp [get?_cons]
    · simp [get?_cons]
    · rw [get?_cons, if_neg (Ne.symm heq), ih]

theorem get?_insert_of_ne (m : SortedMap α) (n k : String) (x : α) (h : k ≠ n) :
    get? (insert m n x) k = get? m k := by
  induction m with
  | nil => simp [insert, get?_cons, get?_nil, Ne.symm h]
  | cons e m ih =>
    obtain ⟨other, y⟩ := e
    unfold insert
    split_ifs with hlt heq
    · rw [get?_cons, if_neg (Ne.symm h)]
    · subst heq
      rw [get?_cons, get?_cons, if_neg (Ne.symm h), if_neg (Ne.symm h)]
    · rw [get?_cons, get?_cons, ih]

theorem get?_insert (m : SortedMap α) (n k : String) (x : α) :
    get? (insert m n x) k = if k = n then some x else get? m k := by
  split_ifs with h
  · rw [h, get?_insert_self]
  · exact get?_insert_of_ne m n k x h

theorem get?_erase (m : SortedMap α) (n k : String) :
    get? (erase m n) k = if k = n then none else get? m k := by
  induction m with
  | nil => simp [erase, get?_nil]
  | cons e m ih =>
    obtain ⟨other, y⟩ := e
    unfold erase at ih ⊢
    rw [List.filter_cons]
    by_cases hother : other = n
    · subst hother
      simp only [bne_self_eq_false, Bool.false_eq_true, if_false, ih, get?_cons]
      by_cases hk : k = other
      · simp [hk]
      · simp [hk, Ne.symm hk]
    · have hbne : (other != n) = true := by simpa using hother
      simp only [hbne, if_true, get?_cons, ih]
      by_cases hk : other = k
      · subst hk
        simp [hother]
      · simp [hk]

theorem get?_map (f : String → α → β) (m : SortedMap α) (k : String) :
    get? (m.map fun e => (e.1, f e.1 e.2)) k = (get? m k).map (f k) := by
  induction m with
  | nil => rfl
  | cons e m ih =>
    obtain ⟨n, x⟩ := e
    rw [List.map_cons, get?_cons, get?_cons, ih]
    by_cases h : n = k
    · simp [h]
    · simp [h]

theorem contains_eq_isSome (m : SortedMap α) (k : String) :
    contains m k = (get? m k).isSome := by
  unfold contains get?
  rw [Option.isSome_map, Bool.eq_iff_iff, List.any_eq_true, List.find?_isSome]

theorem contains_iff (m : SortedMap α) (k : String) :
    contains m k = true ↔ ∃ x, get? m k = some x := by
  rw [contains_eq_isSome, Option.isSome_iff_exists]

theorem mem_names (m : SortedMap α) (k : String) : k ∈ names m ↔ (get? m k).isSome = true := by
  rw [← contains_eq_isSome]
  unfold names contains
  simp

theorem erase_of_get?_none {m : SortedMap α} {k : String} (h : get? m k = none) :
    erase m k = m := by
  unfold get? at h
  rw [Option.map_eq_none_iff, List.find?_eq_none] at h
  exact List.filter_eq_self.mpr fun e he => by simpa using h e he

theorem mem_of_get? {m : SortedMap α} {k : String} {x : α} (h : get? m k = some x) :
    (k, x) ∈ m := by
  unfold get? at h
  obtain ⟨e, he, rfl⟩ := Option.map_eq_some_iff.mp h
  have hkey : e.1 = k := by simpa using List.find?_some he
  have hmem := List.mem_of_find?_eq_some he
  rwa [← hkey]

/-! ### The order of names -/

theorem sorted_nil : Sorted ([] : SortedMap α) := List.Pairwise.nil

theorem mem_insert {m : SortedMap α} {n : String} {x : α} {e : String × α}
    (h : e ∈ insert m n x) : e = (n, x) ∨ e ∈ m := by
  induction m with
  | nil => simpa [insert] using h
  | cons d m ih =>
    obtain ⟨other, y⟩ := d
    unfold insert at h
    split_ifs at h with hlt heq
    · exact List.mem_cons.mp h
    · rcases List.mem_cons.mp h with rfl | hm
      · exact Or.inl rfl
      · exact Or.inr (List.mem_cons_of_mem _ hm)
    · rcases List.mem_cons.mp h with rfl | hm
      · exact Or.inr List.mem_cons_self
      · exact (ih hm).imp_right (List.mem_cons_of_mem _)

theorem sorted_insert {m : SortedMap α} (n : String) (x : α) (h : Sorted m) :
    Sorted (insert m n x) := by
  induction m with
  | nil => exact List.pairwise_singleton _ _
  | cons e m ih =>
    obtain ⟨other, y⟩ := e
    have hrest := List.pairwise_cons.mp h
    unfold insert
    split_ifs with hlt heq
    · refine List.pairwise_cons.mpr ⟨fun d hd => ?_, h⟩
      rcases List.mem_cons.mp hd with rfl | hd
      · exact hlt
      · exact lt_trans hlt (hrest.1 d hd)
    · subst heq
      exact List.pairwise_cons.mpr ⟨hrest.1, hrest.2⟩
    · refine List.pairwise_cons.mpr ⟨fun d hd => ?_, ih hrest.2⟩
      rcases mem_insert hd with rfl | hd
      · exact lt_of_le_of_ne (not_lt.mp hlt) (Ne.symm heq)
      · exact hrest.1 d hd

theorem sorted_erase {m : SortedMap α} (n : String) (h : Sorted m) : Sorted (erase m n) :=
  List.Pairwise.filter _ h

theorem sorted_map (f : String → α → β) {m : SortedMap α} (h : Sorted m) :
    Sorted (m.map fun e => (e.1, f e.1 e.2)) := by
  unfold Sorted
  rw [List.pairwise_map]
  exact h

theorem get?_eq_none_of_forall_lt {m : SortedMap α} {k : String} (h : ∀ e ∈ m, k < e.1) :
    get? m k = none := by
  unfold get?
  rw [Option.map_eq_none_iff, List.find?_eq_none]
  intro e he heq
  have hkey : e.1 = k := by simpa using heq
  exact absurd (h e he) (by rw [hkey]; exact lt_irrefl k)

theorem get?_eq_some_iff {m : SortedMap α} (hm : Sorted m) (k : String) (x : α) :
    get? m k = some x ↔ (k, x) ∈ m := by
  refine ⟨mem_of_get?, fun h => ?_⟩
  induction m with
  | nil => simp at h
  | cons e m ih =>
    obtain ⟨n, y⟩ := e
    obtain ⟨hhead, htail⟩ := List.pairwise_cons.mp hm
    rw [get?_cons]
    rcases List.mem_cons.mp h with heq | hmem
    · obtain ⟨rfl, rfl⟩ := Prod.mk.inj heq
      simp
    · have hne : n ≠ k := ne_of_lt (hhead (k, x) hmem)
      rw [if_neg hne, ih htail hmem]

/-- Ascending lists of entries with the same look-ups are the same list. -/
theorem ext_get? {m m' : SortedMap α} (hm : Sorted m) (hm' : Sorted m')
    (h : ∀ k, get? m k = get? m' k) : m = m' := by
  have hnodup : ∀ {l : SortedMap α}, Sorted l → l.Nodup := fun hl =>
    hl.imp fun hlt heq => absurd (heq ▸ hlt) (lt_irrefl _)
  refine List.Perm.eq_of_pairwise (fun a b _ _ hab hba => absurd hab (lt_asymm hba)) hm hm'
    ((List.perm_ext_iff_of_nodup (hnodup hm) (hnodup hm')).mpr ?_)
  rintro ⟨k, x⟩
  rw [← get?_eq_some_iff hm, ← get?_eq_some_iff hm', h]

/-! ### Many entries -/

theorem sorted_merge {m : SortedMap α} (other : SortedMap α) (h : Sorted m) :
    Sorted (merge m other) := by
  unfold merge
  induction other generalizing m with
  | nil => exact h
  | cons e other ih => exact ih (sorted_insert e.1 e.2 h)

/-- The second map of a merge goes before the first. -/
theorem get?_merge (m : SortedMap α) {other : SortedMap α} (ho : Sorted other) (k : String) :
    get? (merge m other) k = (get? other k).or (get? m k) := by
  induction other generalizing m with
  | nil => rfl
  | cons e other ih =>
    obtain ⟨n, x⟩ := e
    obtain ⟨hhead, htail⟩ := List.pairwise_cons.mp ho
    change get? (merge (insert m n x) other) k = _
    rw [ih (insert m n x) htail, get?_insert, get?_cons]
    by_cases h : k = n
    · subst h
      rw [get?_eq_none_of_forall_lt hhead]
      simp
    · simp [h, Ne.symm h]

theorem sorted_ofEntries (entries : List (String × α)) : Sorted (ofEntries entries) :=
  sorted_merge (m := []) entries sorted_nil

theorem sorted_names {m : SortedMap α} (h : Sorted m) : (names m).Pairwise (· < ·) := by
  unfold names
  rw [List.pairwise_map]
  exact h

theorem mem_names_insert (m : SortedMap α) (n k : String) (x : α) :
    k ∈ names (insert m n x) ↔ k = n ∨ k ∈ names m := by
  induction m with
  | nil => simp [insert, names]
  | cons e m ih =>
    obtain ⟨other, y⟩ := e
    unfold names at ih ⊢
    unfold insert
    split_ifs with hlt heq
    · simp
    · subst heq
      simp
    · simp only [List.map_cons, List.mem_cons, ih]
      tauto

theorem mem_distinct (list : List String) (k : String) : k ∈ distinct list ↔ k ∈ list := by
  unfold distinct ofEntries
  suffices h : ∀ m : SortedMap Unit,
      k ∈ names ((list.map fun name => (name, ())).foldl (fun m e => insert m e.1 e.2) m) ↔
        k ∈ list ∨ k ∈ names m by
    simpa [names] using h []
  induction list with
  | nil => simp
  | cons name list ih =>
    intro m
    rw [List.map_cons, List.foldl_cons, ih, mem_names_insert, List.mem_cons]
    tauto

theorem pairwise_distinct (list : List String) : (distinct list).Pairwise (· < ·) :=
  sorted_names (sorted_ofEntries _)

end IndexedStore.SortedMap
