import Mathlib.Data.List.Basic
import IndexedStore.Proofs.Caches

/-!
What a cache keeps, in terms of the touches it was given. Listed by their latest touch, the
different keys that were touched begin with the keys of the cache, and with no others as long as
none was taken out; so a key is kept exactly until as many other keys as the cache has room for
have been touched after it.
-/
namespace IndexedStore.Lru

variable {κ α : Type} [BEq κ]

/-! ### Calls -/

inductive Call (κ α : Type) where
  | set (key : κ) (x : α)
  | get (key : κ)
  | peek (key : κ)
  | contains (key : κ)
  | remove (key : κ)
  | evict
  | clear

def Call.takesOut : Call κ α → Bool
  | .remove _ | .evict | .clear => true
  | .set _ _ | .get _ | .peek _ | .contains _ => false

def called (c : Lru κ α) : Call κ α → Lru κ α
  | .set key x => (c.set key x).2
  | .get key => (c.get key).2
  | .peek _ | .contains _ => c
  | .remove key => c.erase key
  | .evict => c.evict.2
  | .clear => c.clear

def after (c : Lru κ α) (calls : List (Call κ α)) : Lru κ α := calls.foldl called c

/-- The key that a call touches: a set touches its key, and so does a get that finds its key. -/
def touchedBy (c : Lru κ α) : Call κ α → List κ
  | .set key _ => [key]
  | .get key => if c.contains key then [key] else []
  | _ => []

def touched (c : Lru κ α) : List (Call κ α) → List κ
  | [] => []
  | call :: rest => (c.called call).touched rest ++ c.touchedBy call

def since (touched : List κ) (key : κ) : List κ := touched.takeWhile fun k => !(k == key)

def lastSet? (key : κ) (calls : List (Call κ α)) : Option α :=
  calls.reverse.findSome? fun call =>
    match call with
    | .set k x => if k == key then some x else none
    | _ => none

/-- The key of an entry is present and was touched longest ago of all present keys, and the entry
has its value. -/
structure Oldest (c : Lru κ α) (touched : List κ) (e : κ × α) : Prop where
  held : c.peek? e.1 = some e.2
  earliest : ∀ key ∈ c.keys, (since touched key).length ≤ (since touched e.1).length

theorem after_snoc (c : Lru κ α) (calls : List (Call κ α)) (call : Call κ α) :
    c.after (calls ++ [call]) = (c.after calls).called call := List.foldl_concat ..

theorem touched_snoc (c : Lru κ α) (calls : List (Call κ α)) (call : Call κ α) :
    c.touched (calls ++ [call]) = (c.after calls).touchedBy call ++ c.touched calls := by
  induction calls generalizing c with
  | nil => exact (List.append_nil _).symm
  | cons first rest ih =>
    rw [List.cons_append, touched, ih, touched, List.append_assoc]
    rfl

theorem mem_touched_of_set {key : κ} {x : α} {calls : List (Call κ α)} (c : Lru κ α)
    (h : .set key x ∈ calls) : key ∈ c.touched calls := by
  induction calls generalizing c with
  | nil => exact absurd h List.not_mem_nil
  | cons call rest ih =>
    rw [touched, List.mem_append]
    rcases List.mem_cons.mp h with rfl | h
    · exact Or.inr (List.mem_singleton_self key)
    · exact Or.inl (ih _ h)

theorem lastSet?_snoc (key : κ) (calls : List (Call κ α)) (call : Call κ α) :
    lastSet? key (calls ++ [call]) =
      match call with
      | .set k x => if k == key then some x else lastSet? key calls
      | _ => lastSet? key calls := by
  unfold lastSet?
  rw [List.reverse_append, List.reverse_singleton, List.singleton_append, List.findSome?_cons]
  cases call with
  | set k x => cases hk : k == key <;> simp [hk]
  | _ => rfl

/-! ### Keys by their latest touch -/

section Recent

variable [LawfulBEq κ]

theorem eraseDups_filter (p : κ → Bool) (l : List κ) :
    (l.filter p).eraseDups = l.eraseDups.filter p := by
  induction hlength : l.length using Nat.strongRecOn generalizing l with
  | ind n ih =>
    cases l with
    | nil => rfl
    | cons a rest =>
      have hshort := List.length_filter_le (fun b => !b == a) rest
      rw [List.length_cons] at hlength
      have hrest := ih _ (by omega) (rest.filter fun b => !b == a) rfl
      rw [List.eraseDups_cons, List.filter_cons, List.filter_cons, ← hrest, List.filter_filter]
      cases ha : p a with
      | true =>
        simp only [if_true]
        rw [List.eraseDups_cons, List.filter_filter]
        congr 3
        funext b
        exact Bool.and_comm _ _
      | false =>
        simp only [Bool.false_eq_true, if_false]
        congr 2
        funext b
        cases hb : b == a with
        | true => rw [eq_of_beq hb, ha]; rfl
        | false => simp

theorem eraseDups_cons_eq (a : κ) (l : List κ) :
    (a :: l).eraseDups = a :: l.eraseDups.filter fun b => !b == a := by
  rw [List.eraseDups_cons, eraseDups_filter]

theorem since_cons_self (key : κ) (l : List κ) : since (key :: l) key = [] := by
  unfold since
  rw [List.takeWhile_cons_of_neg (by simp)]

theorem since_cons_of_ne {key a : κ} (h : key ≠ a) (l : List κ) :
    since (a :: l) key = a :: since l key := by
  unfold since
  rw [List.takeWhile_cons_of_pos (by simpa using h.symm)]

/-- The different keys of a list come in the order of their latest touches. -/
theorem pairwise_eraseDups (l : List κ) :
    l.eraseDups.Pairwise fun key other => (since l key).length < (since l other).length := by
  induction l with
  | nil => exact List.Pairwise.nil
  | cons a l ih =>
    rw [eraseDups_cons_eq, List.pairwise_cons]
    have hother : ∀ {key : κ}, key ∈ l.eraseDups.filter (fun b => !b == a) →
        (since (a :: l) key).length = (since l key).length + 1 := by
      intro key hkey
      have hne : key ≠ a := by simpa using (List.mem_filter.mp hkey).2
      rw [since_cons_of_ne hne, List.length_cons]
    constructor
    · intro key hkey
      rw [since_cons_self, hother hkey]
      exact Nat.succ_pos _
    · refine (ih.filter _).imp_of_mem fun hkey hkey' hlt => ?_
      rw [hother hkey, hother hkey']
      exact Nat.succ_lt_succ hlt

theorem nodup_eraseDups (l : List κ) : l.eraseDups.Nodup :=
  (pairwise_eraseDups l).imp fun hlt heq => by rw [heq] at hlt; exact lt_irrefl _ hlt

theorem since_filter {key a : κ} (h : key ≠ a) (l : List κ) :
    since (l.filter fun b => !b == a) key = (since l key).filter fun b => !b == a := by
  induction l with
  | nil => rfl
  | cons b l ih =>
    by_cases hb : b = key
    · rw [hb, since_cons_self, List.filter_cons_of_pos (by simpa using h), since_cons_self]
      rfl
    · rw [since_cons_of_ne (Ne.symm hb)]
      cases hba : b == a with
      | true =>
        rw [List.filter_cons_of_neg (by simp [hba]), List.filter_cons_of_neg (by simp [hba]), ih]
      | false =>
        rw [List.filter_cons_of_pos (by simp [hba]), List.filter_cons_of_pos (by simp [hba]),
          since_cons_of_ne (Ne.symm hb), ih]

/-- The different keys touched after a key are those before it by latest touch. -/
theorem eraseDups_since (l : List κ) (key : κ) :
    (since l key).eraseDups = since l.eraseDups key := by
  induction l with
  | nil => rfl
  | cons a l ih =>
    rw [eraseDups_cons_eq]
    by_cases ha : key = a
    · rw [ha, since_cons_self, since_cons_self]
      rfl
    · rw [since_cons_of_ne ha, since_cons_of_ne ha, eraseDups_cons_eq, since_filter ha, ih]

theorem mem_take_iff {key : κ} {l : List κ} (h : key ∈ l) (n : Nat) :
    key ∈ l.take n ↔ (since l key).length < n := by
  induction l generalizing n with
  | nil => exact absurd h List.not_mem_nil
  | cons a l ih =>
    cases n with
    | zero => simp
    | succ n =>
      rw [List.take_succ_cons, List.mem_cons]
      by_cases ha : key = a
      · rw [ha, since_cons_self]
        simp
      · rw [since_cons_of_ne ha, List.length_cons, ih ((List.mem_cons.mp h).resolve_left ha)]
        simp [ha]

/-- Of keys without repetitions, the first that are left without one key are among the first and
one more. -/
theorem take_filter {l : List κ} (h : l.Nodup) (a : κ) (n : Nat) :
    ((l.take (n + 1)).filter fun b => !b == a).take n = (l.filter fun b => !b == a).take n := by
  induction l generalizing n with
  | nil => rfl
  | cons b l ih =>
    obtain ⟨hb, hl⟩ := List.nodup_cons.mp h
    rw [List.take_succ_cons]
    cases hba : b == a with
    | true =>
      obtain rfl := eq_of_beq hba
      have hall : ∀ c ∈ l, (!c == b) = true := fun c hc => by
        simpa using fun heq : c = b => hb (heq ▸ hc)
      rw [List.filter_cons_of_neg (by simp), List.filter_cons_of_neg (by simp),
        List.filter_eq_self.mpr hall,
        List.filter_eq_self.mpr fun c hc => hall c (List.mem_of_mem_take hc), List.take_take,
        Nat.min_self]
    | false =>
      rw [List.filter_cons_of_pos (by simp [hba]), List.filter_cons_of_pos (by simp [hba])]
      cases n with
      | zero => rfl
      | succ n => rw [List.take_succ_cons, List.take_succ_cons, ih hl]

end Recent

/-! ### Each call -/

variable {c : Lru κ α} {key : κ} {x : α} {touched : List κ} {calls calls' : List (Call κ α)}

theorem capacity_called (c : Lru κ α) (call : Call κ α) :
    (c.called call).capacity = c.capacity := by
  cases call with
  | set key x =>
    change (c.set key x).2.capacity = c.capacity
    unfold set
    split_ifs <;> rfl
  | get key =>
    change (c.get key).2.capacity = c.capacity
    unfold get
    split <;> rfl
  | _ => rfl

theorem capacity_after (c : Lru κ α) (calls : List (Call κ α)) :
    (c.after calls).capacity = c.capacity := by
  induction calls generalizing c with
  | nil => rfl
  | cons call rest ih => exact (ih (c.called call)).trans (c.capacity_called call)

structure Bounded (c : Lru κ α) : Prop where
  pos : 0 < c.capacity
  size_le : c.entries.length ≤ c.capacity

/-- A set replaces the value of a key or takes room that is left, or it brings a new key to a full
cache. -/
theorem Bounded.set_cases (h : c.Bounded) (key : κ) (x : α) :
    ((c.contains key = true ∨ c.size < c.capacity) ∧ c.set key x = (none, c.touch key x)) ∨
    (c.contains key = false ∧ c.size = c.capacity ∧
      c.set key x = (c.entries.getLast?, { c with entries := (key, x) :: c.entries.dropLast })) := by
  have hle := h.size_le
  unfold set size
  split_ifs with hroom
  · exact Or.inl ⟨(Bool.or_eq_true_iff.mp hroom).imp id of_decide_eq_true, rfl⟩
  · obtain ⟨hout, hfull⟩ := Bool.or_eq_false_iff.mp (Bool.eq_false_iff.mpr hroom)
    have hfull : ¬ c.entries.length < c.capacity := of_decide_eq_false hfull
    exact Or.inr ⟨hout, by omega, rfl⟩

/-- Setting a value is a touch, after which the entries beyond the capacity are cut off. -/
theorem Bounded.entries_set (h : c.Bounded) (key : κ) (x : α) :
    (c.set key x).2.entries = ((key, x) :: (c.erase key).entries).take c.capacity := by
  have hpos := h.pos
  have hle := h.size_le
  rcases h.set_cases key x with ⟨hroom, hset⟩ | ⟨hout, hfull, hset⟩
  · rw [hset]
    refine (List.take_of_length_le ?_).symm
    change (c.erase key).entries.length + 1 ≤ c.capacity
    rcases hroom with hin | hlt
    · obtain ⟨e, he, hkey⟩ := List.any_eq_true.mp hin
      have hless : (c.erase key).entries.length < c.entries.length :=
        List.length_filter_lt_length_iff_exists.mpr ⟨e, he, by simp [hkey]⟩
      omega
    · have hless : (c.erase key).entries.length ≤ c.size := List.length_filter_le _ _
      omega
  · have herase : (c.erase key).entries = c.entries := by
      refine List.filter_eq_self.mpr fun e he => ?_
      have := List.any_eq_false.mp hout e he
      simpa using this
    have hsucc : c.capacity = c.entries.length - 1 + 1 := by
      rw [← hfull]
      unfold size at hfull ⊢
      omega
    rw [hset, herase, hsucc, List.take_succ_cons, ← List.dropLast_eq_take]

/-- An entry is driven out just when a new key is brought to a full cache, and it is the last. -/
theorem Bounded.drivesOut_iff (h : c.Bounded) (key : κ) (x : α) :
    (∃ e, (c.set key x).1 = some e) ↔ c.contains key = false ∧ c.size = c.capacity := by
  rcases h.set_cases key x with ⟨hroom, hset⟩ | ⟨hout, hfull, hset⟩
  · rw [hset]
    constructor
    · rintro ⟨e, he⟩
      exact nomatch he
    · rintro ⟨hout, hfull⟩
      rw [hout, hfull] at hroom
      exact (hroom.elim Bool.false_ne_true (lt_irrefl _)).elim
  · have hfilled : c.entries ≠ [] := List.ne_nil_of_length_pos (h.pos.trans_eq hfull.symm)
    rw [hset]
    exact ⟨fun _ => ⟨hout, hfull⟩, fun _ => ⟨_, List.getLast?_eq_some_getLast hfilled⟩⟩

theorem Bounded.getLast?_of_drivenOut (h : c.Bounded) {e : κ × α}
    (he : (c.set key x).1 = some e) : c.entries.getLast? = some e := by
  rcases h.set_cases key x with ⟨-, hset⟩ | ⟨-, -, hset⟩
  · rw [hset] at he
    exact nomatch he
  · rw [hset] at he
    exact he

theorem Bounded.keys_set (h : c.Bounded) (key : κ) (x : α) :
    (c.set key x).2.keys = (key :: c.keys.filter fun k => !(k == key)).take c.capacity := by
  rw [← keys_erase]
  unfold keys
  rw [h.entries_set, List.map_take, List.map_cons]

structure Kept (c : Lru κ α) (touched : List κ) (calls : List (Call κ α)) : Prop where
  bounded : c.Bounded
  keys : c.keys.Sublist touched.eraseDups
  values : ∀ e ∈ c.entries, lastSet? e.1 calls = some e.2

/-- A cache loses entries. -/
theorem Kept.shrink (h : c.Kept touched calls) {entries : List (κ × α)}
    (hsublist : entries.Sublist c.entries) : Kept { c with entries } touched calls :=
  ⟨⟨h.bounded.pos, hsublist.length_le.trans h.bounded.size_le⟩,
    (hsublist.map Prod.fst).trans h.keys, fun e he => h.values e (hsublist.mem he)⟩

theorem isSome_peek? (c : Lru κ α) (key : κ) : (c.peek? key).isSome = c.contains key := by
  unfold peek? contains
  rw [Option.isSome_map, List.isSome_find?]

theorem exists_peek? (h : c.contains key = true) : ∃ x, c.peek? key = some x :=
  Option.isSome_iff_exists.mp ((c.isSome_peek? key).trans h)

theorem get_of_not_contains (h : c.contains key = false) : (c.get key).2 = c := by
  have hnone : c.peek? key = none :=
    Option.isSome_eq_false_iff.mp ((c.isSome_peek? key).trans h) |> Option.isNone_iff_eq_none.mp
  unfold get
  rw [hnone]

variable [LawfulBEq κ]

/-- A get that finds its key sets the value that it finds. -/
theorem get_of_peek? (h : c.peek? key = some x) : (c.get key).2 = (c.set key x).2 := by
  have hin : c.contains key = true := c.mem_keys_iff.mp (c.mem_keys_of_peek? h)
  unfold get set
  rw [h, hin]
  rfl

/-- A get goes like setting the value that is found, and like no call when there is none. -/
theorem get_cases (c : Lru κ α) (key : κ) :
    (∃ x, c.peek? key = some x ∧ c.contains key = true ∧ (c.get key).2 = (c.set key x).2) ∨
    (c.contains key = false ∧ (c.get key).2 = c) := by
  cases hin : c.contains key with
  | true =>
    obtain ⟨x, hx⟩ := exists_peek? hin
    exact Or.inl ⟨x, hx, rfl, get_of_peek? hx⟩
  | false => exact Or.inr ⟨rfl, get_of_not_contains hin⟩

theorem peek?_of_mem (h : c.keys.Nodup) {e : κ × α} (he : e ∈ c.entries) :
    c.peek? e.1 = some e.2 := by
  have hin : c.contains e.1 = true := c.mem_keys_iff.mp (List.mem_map_of_mem he)
  obtain ⟨x, hx⟩ := exists_peek? hin
  have heq : e = (e.1, x) := List.inj_on_of_nodup_map h he (c.mem_of_peek? hx) rfl
  rw [hx, heq]

/-! ### Calls one after another -/

/-- A value is set that was set last for its key. -/
theorem Kept.set (h : c.Kept touched calls) (hset : lastSet? key calls' = some x)
    (hothers : ∀ other, other ≠ key → lastSet? other calls' = lastSet? other calls) :
    (c.set key x).2.Kept (key :: touched) calls' := by
  have hcapacity : (c.set key x).2.capacity = c.capacity := c.capacity_called (.set key x)
  refine ⟨⟨hcapacity ▸ h.bounded.pos, ?_⟩, ?_, ?_⟩
  · rw [h.bounded.entries_set, hcapacity]
    exact List.length_take_le _ _
  · rw [h.bounded.keys_set, eraseDups_cons_eq]
    exact (List.take_sublist _ _).trans ((h.keys.filter _).cons_cons key)
  · intro e he
    rw [h.bounded.entries_set] at he
    rcases List.mem_cons.mp (List.mem_of_mem_take he) with rfl | he
    · exact hset
    · obtain ⟨he, hne⟩ := List.mem_filter.mp he
      rw [hothers e.1 (by simpa using hne)]
      exact h.values e he

theorem Kept.called (h : c.Kept touched calls) (call : Call κ α) :
    (c.called call).Kept (c.touchedBy call ++ touched) (calls ++ [call]) := by
  have hsame (hcall : ∀ key x, call ≠ .set key x) (key : κ) :
      lastSet? key (calls ++ [call]) = lastSet? key calls := by
    rw [lastSet?_snoc]
    cases call with
    | set key x => exact absurd rfl (hcall key x)
    | _ => rfl
  have hvalues (hcall : ∀ key x, call ≠ .set key x) : c.Kept touched (calls ++ [call]) :=
    ⟨h.bounded, h.keys, fun e he => by rw [hsame hcall]; exact h.values e he⟩
  cases call with
  | set key x =>
    refine h.set ?_ fun other hother => ?_
    · rw [lastSet?_snoc]
      simp
    · rw [lastSet?_snoc]
      simp [Ne.symm hother]
  | get key =>
    have hcall : ∀ other x, Call.get key ≠ Call.set other (x : α) := fun _ _ => nofun
    unfold Lru.called touchedBy
    dsimp only
    obtain ⟨x, hx, hin, hget⟩ | ⟨hin, hget⟩ := c.get_cases key
    · rw [hget, hin]
      refine h.set ?_ fun other _ => hsame hcall other
      rw [hsame hcall]
      exact h.values _ (c.mem_of_peek? hx)
    · rw [hget, hin]
      exact hvalues hcall
  | remove key => exact (hvalues fun _ _ => nofun).shrink List.filter_sublist
  | evict => exact (hvalues fun _ _ => nofun).shrink (List.dropLast_sublist _)
  | clear => exact (hvalues fun _ _ => nofun).shrink (List.nil_sublist _)
  | _ => exact hvalues fun _ _ => nofun

theorem kept_after (capacity : Nat) (calls : List (Call κ α)) :
    ((empty capacity).after calls).Kept ((empty capacity).touched calls) calls := by
  induction calls using List.reverseRecOn with
  | nil =>
    have hpos : 0 < max capacity 1 := lt_of_lt_of_le Nat.one_pos (le_max_right _ _)
    exact ⟨⟨hpos, Nat.zero_le _⟩, List.nil_sublist _, nofun⟩
  | append_singleton calls call ih =>
    rw [after_snoc, touched_snoc]
    exact ih.called call

/-- A call that takes no key out leaves the keys touched latest. -/
theorem keys_called {call : Call κ α} (h : c.Bounded)
    (hkeys : c.keys = touched.eraseDups.take c.capacity) (hcall : call.takesOut = false) :
    (c.called call).keys = (c.touchedBy call ++ touched).eraseDups.take c.capacity := by
  have hset (key : κ) (x : α) :
      (c.set key x).2.keys = (key :: touched).eraseDups.take c.capacity := by
    obtain ⟨n, hn⟩ : ∃ n, c.capacity = n + 1 := Nat.exists_eq_add_one.mpr h.pos
    rw [h.keys_set, hkeys, hn, eraseDups_cons_eq, List.take_succ_cons, List.take_succ_cons,
      take_filter (nodup_eraseDups touched)]
  cases call with
  | set key x => exact hset key x
  | get key =>
    unfold called touchedBy
    dsimp only
    obtain ⟨x, -, hin, hget⟩ | ⟨hin, hget⟩ := c.get_cases key
    · rw [hget, hin]
      exact hset key x
    · rw [hget, hin]
      exact hkeys
  | peek | contains => exact hkeys
  | remove | evict | clear => exact Bool.noConfusion hcall

theorem keys_after (capacity : Nat) (calls : List (Call κ α))
    (h : ∀ call ∈ calls, call.takesOut = false) :
    ((empty capacity).after calls).keys =
      ((empty capacity).touched calls).eraseDups.take (max capacity 1) := by
  induction calls using List.reverseRecOn with
  | nil => exact List.take_nil.symm
  | append_singleton calls call ih =>
    have hcapacity := capacity_after (empty capacity) calls
    rw [after_snoc, touched_snoc]
    have hkeys : ((empty capacity).after calls).keys =
        ((empty capacity).touched calls).eraseDups.take
          ((empty capacity).after calls).capacity := by
      rw [ih fun call hcall => h call (List.mem_append_left _ hcall), hcapacity]
      rfl
    refine (keys_called (kept_after capacity calls).bounded hkeys (h call (by simp))).trans ?_
    rw [hcapacity]
    rfl

/-! ### What is kept -/

theorem getLast?_iff_greatest {β : Type} {l : List β} {f : β → Nat}
    (h : l.Pairwise fun a b => f a < f b) (b : β) :
    l.getLast? = some b ↔ b ∈ l ∧ ∀ a ∈ l, f a ≤ f b := by
  cases hlast : l.getLast? with
  | none => simp [List.getLast?_eq_none_iff.mp hlast]
  | some d =>
    rw [← List.dropLast_append_getLast? d hlast, List.pairwise_append] at h
    have hmem (a : β) : a ∈ l ↔ a ∈ l.dropLast ∨ a = d := by
      conv_lhs => rw [← List.dropLast_append_getLast? d hlast]
      simp
    have hbefore : ∀ a ∈ l.dropLast, f a < f d := fun a ha => h.2.2 a ha d (by simp)
    constructor
    · intro heq
      obtain rfl := Option.some.inj heq
      refine ⟨(hmem d).mpr (Or.inr rfl), fun a ha => ?_⟩
      rcases (hmem a).mp ha with ha | rfl
      · exact (hbefore a ha).le
      · exact le_rfl
    · rintro ⟨hb, hgreatest⟩
      rcases (hmem b).mp hb with hb | rfl
      · exact absurd (hgreatest d ((hmem d).mpr (Or.inr rfl))) (not_le.mpr (hbefore b hb))
      · rfl

theorem Kept.nodup_keys (h : c.Kept touched calls) : c.keys.Nodup :=
  h.keys.nodup (nodup_eraseDups touched)

theorem Kept.ordered (h : c.Kept touched calls) :
    c.keys.Pairwise fun key other => (since touched key).length < (since touched other).length :=
  (pairwise_eraseDups touched).sublist h.keys

/-- The last entry is that of the key touched longest ago. -/
theorem Kept.getLast?_iff (h : c.Kept touched calls) (e : κ × α) :
    c.entries.getLast? = some e ↔ c.Oldest touched e := by
  have hordered := h.ordered
  unfold Lru.keys at hordered
  have hmem : e ∈ c.entries ↔ c.peek? e.1 = some e.2 :=
    ⟨peek?_of_mem h.nodup_keys, c.mem_of_peek?⟩
  rw [List.pairwise_map] at hordered
  rw [getLast?_iff_greatest hordered, hmem]
  constructor
  · rintro ⟨hheld, hgreatest⟩
    refine ⟨hheld, fun key hkey => ?_⟩
    obtain ⟨d, hd, rfl⟩ := List.mem_map.mp hkey
    exact hgreatest d hd
  · rintro ⟨hheld, hearliest⟩
    exact ⟨hheld, fun d hd => hearliest d.1 (List.mem_map_of_mem hd)⟩

inductive Drops (c : Lru κ α) (key : κ) : Call κ α → Prop where
  | removed : Drops c key (.remove key)
  | cleared : Drops c key .clear
  | evicted (x : α) (h : c.evict.1 = some (key, x)) : Drops c key .evict
  | drivenOut (other : κ) (x y : α) (h : (c.set other y).1 = some (key, x)) :
      Drops c key (.set other y)

theorem drops_of_set {other : κ} {y : α} (hin : c.contains key = true)
    (hout : (c.set other y).2.contains key = false) : c.Drops key (.set other y) := by
  rw [← isSome_peek?] at hin hout
  have hother : key ≠ other := by
    rintro rfl
    rw [c.peek?_set_self] at hout
    exact Bool.noConfusion hout
  by_contra hdrops
  have hkept : ∀ e, (c.set other y).1 = some e → e.1 ≠ key := by
    rintro ⟨k, x⟩ he rfl
    exact hdrops (.drivenOut other x y he)
  rw [c.peek?_set_of_kept hother hkept, hin] at hout
  exact Bool.noConfusion hout

/-- A key that is gone after a call was taken out by it or driven out. -/
theorem drops_of_gone (call : Call κ α) (hin : c.contains key = true)
    (hout : (c.called call).contains key = false) : c.Drops key call := by
  cases call with
  | set other y => exact drops_of_set hin hout
  | get other =>
    change (c.get other).2.contains key = false at hout
    obtain ⟨x, -, hother, hget⟩ | ⟨-, hget⟩ := c.get_cases other
    · rw [hget] at hout
      have hnone : (c.set other x).1 = none := by
        unfold set
        rw [hother, Bool.true_or, if_pos rfl]
      cases drops_of_set hin hout with
      | drivenOut _ y _ hsome => exact nomatch hnone.symm.trans hsome
    · rw [hget, hin] at hout
      exact Bool.noConfusion hout
  | peek | contains => exact Bool.noConfusion (hin.symm.trans hout)
  | remove other =>
    change (c.erase other).contains key = false at hout
    by_cases hother : key = other
    · exact hother ▸ .removed
    · rw [← isSome_peek?, c.peek?_erase_of_ne hother, isSome_peek?, hin] at hout
      exact Bool.noConfusion hout
  | evict =>
    obtain ⟨e, he, hkey⟩ := List.any_eq_true.mp hin
    have hgone : e ∉ c.entries.dropLast := fun hmem => by
      have := List.any_eq_false.mp hout e hmem
      exact this hkey
    cases hlast : c.entries.getLast? with
    | none => rw [List.getLast?_eq_none_iff.mp hlast] at he; exact absurd he List.not_mem_nil
    | some d =>
      rw [← List.dropLast_append_getLast? d hlast, List.mem_append, List.mem_singleton] at he
      obtain rfl := he.resolve_left hgone
      obtain rfl := eq_of_beq hkey
      exact .evicted e.2 hlast
  | clear => exact .cleared

/-- A cache after calls, the keys of which were touched in the order of `touched`. As long as no key
was taken out, a key that was set is there just when fewer different keys than the cache has room
for were touched after it. The keys come in the order of their latest touches with the values set last,
a set drives out the key touched longest ago just when it brings a new key to a full cache, and no
key goes unless it is taken out or driven out. -/
theorem kept_after_calls (capacity : Nat) (calls : List (Call κ α)) :
    let c : Lru κ α := (empty capacity).after calls
    let touched := (empty capacity : Lru κ α).touched calls
    ((∀ call ∈ calls, call.takesOut = false) → ∀ key x, .set key x ∈ calls →
      (c.contains key = true ↔ (since touched key).eraseDups.length < max capacity 1)) ∧
    (∀ key, key ∈ c.keys ↔ c.contains key = true) ∧
    c.keys.Pairwise (fun key other => (since touched key).length < (since touched other).length) ∧
    (∀ key, c.contains key = true → ∃ x, c.peek? key = some x ∧ lastSet? key calls = some x) ∧
    c.size ≤ max capacity 1 ∧
    (∀ key x, (∃ e, (c.set key x).1 = some e) ↔
      c.contains key = false ∧ c.size = max capacity 1) ∧
    (∀ key x e, (c.set key x).1 = some e → c.Oldest touched e) ∧
    ∀ key call, c.contains key = true → (c.called call).contains key = false →
      c.Drops key call := by
  intro c touched
  have hkept : c.Kept touched calls := kept_after capacity calls
  have hcapacity : c.capacity = max capacity 1 := capacity_after (empty capacity) calls
  refine ⟨fun hcalls key x hset => ?_, fun key => c.mem_keys_iff, hkept.ordered, fun key hin => ?_,
    hcapacity ▸ hkept.bounded.size_le, fun key x => hcapacity ▸ hkept.bounded.drivesOut_iff key x,
    fun key x e he => (hkept.getLast?_iff e).mp (hkept.bounded.getLast?_of_drivenOut he),
    fun key call => drops_of_gone call⟩
  · have hmem : key ∈ touched.eraseDups :=
      List.mem_eraseDups.mpr ((empty capacity).mem_touched_of_set hset)
    rw [← c.mem_keys_iff, keys_after capacity calls hcalls, mem_take_iff hmem, eraseDups_since]
  · obtain ⟨x, hx⟩ := exists_peek? hin
    exact ⟨x, hx, hkept.values _ (c.mem_of_peek? hx)⟩

def promoted : List (Call String Nat) :=
  [.set "a" 1, .set "b" 2, .peek "b", .get "a", .get "z", .set "c" 3]

theorem kept_after_promoted :
    let c : Lru String Nat := (empty 2).after promoted
    (∀ call ∈ promoted, call.takesOut = false) ∧ Call.set "b" 2 ∈ promoted ∧
      c.keys = ["c", "a"] ∧ c.contains "b" = false ∧ (c.set "d" 4).1 = some ("a", 1) ∧
      c.Oldest ["c", "a", "b", "a"] ("a", 1) := by
  intro c
  have hcalls : ∀ call ∈ promoted, call.takesOut = false := by simp [promoted, Call.takesOut]
  have hset : Call.set "b" 2 ∈ promoted := by simp [promoted]
  have hdriven : (c.set "d" 4).1 = some ("a", 1) := rfl
  have htouched : (empty 2 : Lru String Nat).touched promoted = ["c", "a", "b", "a"] := rfl
  obtain ⟨hpresent, -, -, -, -, -, holdest, -⟩ := kept_after_calls 2 promoted
  rw [htouched] at hpresent holdest
  refine ⟨hcalls, hset, rfl, ?_, hdriven, holdest "d" 4 ("a", 1) hdriven⟩
  exact Bool.eq_false_iff.mpr fun hin => absurd ((hpresent hcalls "b" 2 hset).mp hin) (by decide)

end IndexedStore.Lru
