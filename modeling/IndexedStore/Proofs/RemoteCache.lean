import IndexedStore.Proofs.Caches
import IndexedStore.Http.Collection

/-!
What a cache of answers knows after each of its operations. A touch moves an entry and changes
nothing that is known; a new entry may drive another one out, unless there is room for all the
addresses in use.
-/
namespace IndexedStore

namespace Http

namespace Permissions

theorem allows_without (p : Permissions) (m n : Method) :
    (p.without m).allows n = (p.allows n && n != m) := by
  unfold without allows
  rw [Bool.eq_iff_iff]
  simp

end Permissions

namespace Cache

variable {c : Cache} {now : Nat} {uri other : String} {method : Method}

def known? (c : Cache) (uri : String) : Option CacheEntry := c.entries.peek? uri

def body? (c : Cache) (uri : String) : Option Json := (c.known? uri).bind (·.body)

def granted (c : Cache) (uri : String) : Permissions :=
  ((c.known? uri).map CacheEntry.permissions).getD Permissions.all

def permits (c : Cache) (uri : String) (method : Method) : Bool := (c.granted uri).allows method

def seen (c : Cache) (now : Nat) (uri : String) : Cache := (c.get now uri).2

theorem known?_set_self (entry : CacheEntry) : (c.set uri entry).known? uri = some entry :=
  c.entries.peek?_set_self

theorem known?_of_set {entry kept : CacheEntry} (h : other ≠ uri)
    (hkept : (c.set uri entry).known? other = some kept) : c.known? other = some kept :=
  c.entries.peek?_of_set h hkept

/-! ### Looking up -/

/-- A look-up finds nothing, or it drops an entry that has expired, or it touches one that still
holds. -/
theorem get_cases (c : Cache) (now : Nat) (uri : String) :
    (c.known? uri = none ∧ c.get now uri = (none, c)) ∨
      (∃ entry, c.known? uri = some entry ∧ entry.expiry ≤ now ∧
        c.get now uri = (none, { c with entries := c.entries.erase uri })) ∨
      ∃ entry, c.known? uri = some entry ∧ now < entry.expiry ∧
        c.get now uri = (some entry, { c with entries := c.entries.touch uri entry }) := by
  unfold get known? Lru.get
  cases hentry : c.entries.peek? uri with
  | none => exact Or.inl ⟨rfl, rfl⟩
  | some entry =>
    refine Or.inr ?_
    by_cases hexpiry : entry.expiry ≤ now
    · exact Or.inl ⟨entry, rfl, hexpiry, if_pos hexpiry⟩
    · exact Or.inr ⟨entry, rfl, Nat.lt_of_not_le hexpiry, if_neg hexpiry⟩

theorem known?_touch {entry : CacheEntry} (hentry : c.known? uri = some entry) (other : String) :
    (c.entries.touch uri entry).peek? other = c.known? other := by
  by_cases hother : other = uri
  · rw [hother, c.entries.peek?_touch_self, hentry]
  · exact c.entries.peek?_touch_of_ne hother

/-- What was looked up is found again as it is. -/
theorem get_seen (c : Cache) (now : Nat) (uri : String) :
    (c.seen now uri).get now uri = c.get now uri := by
  unfold seen
  rcases c.get_cases now uri with ⟨hnone, hget⟩ | ⟨entry, -, -, hget⟩ | ⟨entry, -, hlt, hget⟩
  · rw [hget, hget]
  · rw [hget]
    unfold get
    rw [c.entries.peek?_erase_self]
  · rw [hget]
    unfold get Lru.get
    rw [c.entries.peek?_touch_self]
    dsimp only
    rw [if_neg (Nat.not_le_of_lt hlt), c.entries.touch_touch]

theorem known?_seen_self (c : Cache) (now : Nat) (uri : String) :
    (c.seen now uri).known? uri = (c.get now uri).1 := by
  unfold seen
  rcases c.get_cases now uri with ⟨hnone, hget⟩ | ⟨entry, -, -, hget⟩ | ⟨entry, -, -, hget⟩
  · rw [hget, hnone]
  · rw [hget]
    exact c.entries.peek?_erase_self
  · rw [hget]
    exact c.entries.peek?_touch_self

theorem known?_of_seen {entry : CacheEntry}
    (h : (c.seen now uri).known? other = some entry) : c.known? other = some entry := by
  unfold seen at h
  rcases c.get_cases now uri with ⟨-, hget⟩ | ⟨_, -, -, hget⟩ | ⟨kept, hkept, -, hget⟩
  · rwa [hget] at h
  · rw [hget] at h
    by_cases hother : other = uri
    · rw [hother] at h
      exact absurd (h.symm.trans c.entries.peek?_erase_self) (by simp)
    · exact (c.entries.peek?_erase_of_ne hother).symm.trans h
  · rw [hget] at h
    exact (known?_touch hkept other).symm.trans h

theorem permissions_snd (c : Cache) (now : Nat) (uri : String) :
    (c.permissions now uri).2 = c.seen now uri := rfl

theorem permissions_allows (c : Cache) (now : Nat) (uri : String) (method : Method) :
    (c.permissions now uri).1.allows method = (c.seen now uri).permits uri method := by
  unfold permits granted
  rw [known?_seen_self]
  rfl

/-- A refusal is noted next to the body that is kept. -/
theorem deny_eq (c : Cache) (now : Nat) (uri : String) (method : Method) :
    ∃ entry, c.deny now uri method = (c.seen now uri).set uri entry ∧
      entry.body = (c.seen now uri).body? uri ∧
      entry.permissions = ((c.seen now uri).granted uri).without method := by
  have hknown := c.known?_seen_self now uri
  unfold deny seen body? granted at *
  generalize c.get now uri = found at hknown ⊢
  obtain ⟨found, seen⟩ := found
  rw [hknown]
  cases found <;> exact ⟨_, rfl, rfl, rfl⟩

/-- Where something is known of an address, only the body is forgotten. -/
theorem invalidate_cases (c : Cache) (now : Nat) (uri : String) :
    ((c.seen now uri).known? uri = none ∧ c.invalidate now uri = c.seen now uri) ∨
      ∃ entry, (c.seen now uri).known? uri = some entry ∧
        c.invalidate now uri = (c.seen now uri).set uri { entry with body := none } := by
  have hknown := c.known?_seen_self now uri
  unfold invalidate seen at *
  generalize c.get now uri = found at hknown ⊢
  obtain ⟨entry | entry, seen⟩ := found
  · exact Or.inl ⟨hknown, rfl⟩
  · exact Or.inr ⟨entry, hknown, rfl⟩

/-! ### Bodies

An operation keeps no body that was not kept before, whatever it drives out. -/

theorem body?_of_seen {body : Json} (h : (c.seen now uri).body? other = some body) :
    c.body? other = some body := by
  obtain ⟨entry, hentry, hbody⟩ := Option.bind_eq_some_iff.mp h
  exact Option.bind_eq_some_iff.mpr ⟨entry, known?_of_seen hentry, hbody⟩

theorem body?_of_set {entry : CacheEntry} {body : Json}
    (hentry : ∀ body, entry.body = some body → c.body? uri = some body)
    (h : (c.set uri entry).body? other = some body) : c.body? other = some body := by
  obtain ⟨kept, hkept, hbody⟩ := Option.bind_eq_some_iff.mp h
  by_cases hother : other = uri
  · rw [hother, known?_set_self] at hkept
    obtain rfl := Option.some.inj hkept
    rw [hother]
    exact hentry body hbody
  · exact Option.bind_eq_some_iff.mpr ⟨kept, known?_of_set hother hkept, hbody⟩

theorem body?_of_deny {body : Json} (h : (c.deny now uri method).body? other = some body) :
    c.body? other = some body := by
  obtain ⟨entry, hdeny, hbody, -⟩ := c.deny_eq now uri method
  rw [hdeny] at h
  apply body?_of_seen
  refine body?_of_set (fun kept hkept => ?_) h
  rw [← hbody, hkept]

theorem body?_put (body : Json) (permissions : Permissions) :
    (c.put now uri body permissions).body? uri = some body := by
  unfold body? put
  rw [known?_set_self]
  rfl

theorem body?_invalidate (c : Cache) (now : Nat) (uri : String) :
    (c.invalidate now uri).body? uri = none := by
  unfold body?
  rcases c.invalidate_cases now uri with ⟨hnone, hforgot⟩ | ⟨entry, -, hforgot⟩
  · rw [hforgot, hnone, Option.bind_none]
  · rw [hforgot, known?_set_self, Option.bind_some]

/-! ### Refusals

While no entry has expired and there is room for all addresses in use, nothing is lost. -/

def Holds (c : Cache) (now : Nat) : Prop := ∀ e ∈ c.entries.entries, now < e.2.expiry

instance : Decidable (c.Holds now) :=
  inferInstanceAs (Decidable (∀ e ∈ c.entries.entries, now < e.2.expiry))

theorem Holds.lt_expiry (h : c.Holds now) {entry : CacheEntry}
    (hentry : c.known? uri = some entry) : now < entry.expiry :=
  h _ (c.entries.mem_of_peek? hentry)

theorem Holds.known?_seen (h : c.Holds now) (uri other : String) :
    (c.seen now uri).known? other = c.known? other := by
  unfold Cache.seen
  rcases c.get_cases now uri with
    ⟨-, hget⟩ | ⟨entry, hentry, hexpiry, -⟩ | ⟨entry, hentry, -, hget⟩
  · rw [hget]
  · exact absurd (h.lt_expiry hentry) (Nat.not_lt_of_le hexpiry)
  · rw [hget]
    exact known?_touch hentry other

theorem Holds.seen (h : c.Holds now) (uri : String) : (c.seen now uri).Holds now := by
  unfold Cache.seen
  rcases c.get_cases now uri with ⟨-, hget⟩ | ⟨_, -, -, hget⟩ | ⟨entry, hentry, -, hget⟩ <;>
    rw [hget]
  · exact h
  · exact fun e he => h e (List.mem_filter.mp he).1
  · intro e he
    rcases List.mem_cons.mp he with rfl | he
    · exact h.lt_expiry hentry
    · exact h e (List.mem_filter.mp he).1

theorem Holds.granted_seen (h : c.Holds now) (uri other : String) :
    (c.seen now uri).granted other = c.granted other := by
  unfold granted
  rw [h.known?_seen]

def Within (c : Cache) (used : Finset String) : Prop := c.entries.Within used

variable {used : Finset String}

theorem Within.seen (h : c.Within used) (now : Nat) (uri : String) :
    (c.seen now uri).Within used := by
  unfold Cache.seen
  rcases c.get_cases now uri with ⟨-, hget⟩ | ⟨_, -, -, hget⟩ | ⟨entry, hentry, -, hget⟩ <;>
    rw [hget]
  · exact h
  · exact Lru.Within.erase h uri
  · exact Lru.Within.touch h (h.mem_used uri (c.entries.mem_keys_of_peek? hentry)) entry

theorem Within.set (h : c.Within used) (huri : uri ∈ used) (entry : CacheEntry) :
    (c.set uri entry).Within used := by
  unfold Cache.set Within
  rw [Lru.Within.set_eq h huri]
  exact Lru.Within.touch h huri entry

theorem granted_set_self (entry : CacheEntry) :
    (c.set uri entry).granted uri = entry.permissions := by
  unfold granted
  rw [known?_set_self]
  rfl

theorem Within.granted_set_of_ne (h : c.Within used) (huri : uri ∈ used) (hother : other ≠ uri)
    (entry : CacheEntry) : (c.set uri entry).granted other = c.granted other := by
  unfold granted known? Cache.set
  rw [Lru.Within.set_eq h huri, Lru.peek?_touch_of_ne _ hother]

theorem Within.deny (h : c.Within used) (huri : uri ∈ used) (now : Nat) (method : Method) :
    (c.deny now uri method).Within used :=
  (h.seen now uri).set huri _

theorem Within.put (h : c.Within used) (huri : uri ∈ used) (now : Nat) (body : Json)
    (permissions : Permissions) : (c.put now uri body permissions).Within used :=
  Within.set h huri _

theorem Within.mem_used_of_seen (h : c.Within used) {entry : CacheEntry}
    (hentry : (c.seen now uri).known? uri = some entry) : uri ∈ used :=
  h.mem_used uri (c.entries.mem_keys_of_peek? (known?_of_seen hentry))

theorem Within.invalidate (h : c.Within used) (now : Nat) (uri : String) :
    (c.invalidate now uri).Within used := by
  rcases c.invalidate_cases now uri with ⟨-, hforgot⟩ | ⟨entry, hentry, hforgot⟩
  · rw [hforgot]
    exact h.seen now uri
  · rw [hforgot]
    exact (h.seen now uri).set (h.mem_used_of_seen hentry) _

/-- A refusal takes one method from one address. -/
theorem Within.granted_deny (h : c.Within used) (hc : c.Holds now) (huri : uri ∈ used)
    (method : Method) (other : String) :
    (c.deny now uri method).granted other =
      if other = uri then (c.granted uri).without method else c.granted other := by
  obtain ⟨entry, hdeny, -, hgranted⟩ := c.deny_eq now uri method
  rw [hdeny, ← hc.granted_seen uri uri, ← hc.granted_seen uri other]
  split_ifs with hother
  · rw [hother, granted_set_self, hgranted]
  · exact (h.seen now uri).granted_set_of_ne huri hother entry

theorem Within.granted_put (h : c.Within used) (huri : uri ∈ used) (now : Nat) (body : Json)
    (permissions : Permissions) (other : String) :
    (c.put now uri body permissions).granted other =
      if other = uri then permissions else c.granted other := by
  split_ifs with hother
  · rw [hother]
    exact granted_set_self _
  · exact h.granted_set_of_ne huri hother _

theorem Within.granted_invalidate (h : c.Within used) (hc : c.Holds now) (uri other : String) :
    (c.invalidate now uri).granted other = c.granted other := by
  rw [← hc.granted_seen uri]
  rcases c.invalidate_cases now uri with ⟨-, hforgot⟩ | ⟨entry, hentry, hforgot⟩
  · rw [hforgot]
  · rw [hforgot]
    by_cases hother : other = uri
    · rw [hother, granted_set_self]
      unfold granted
      rw [hentry]
      rfl
    · exact (h.seen now uri).granted_set_of_ne (h.mem_used_of_seen hentry) hother _

end Cache
end Http
end IndexedStore
