import IndexedStore.Proofs.Views

/-!
Events against revisions. An operation that moves the revision tells every subscriber of it by one
event, unless it is a write within a batch of the caller's own, which moves the revision as well
and tells nobody.
-/
namespace IndexedStore

namespace EventFeed

variable {f : EventFeed} {n : Nat} {waiting : List Event}

def Holds (f : EventFeed) (n : Nat) (waiting : List Event) : Prop :=
  f.inboxes[n]? = some ⟨true, false, waiting⟩

theorem holds_subscribe (f : EventFeed) : f.subscribe.2.Holds f.subscribe.1 [] := by
  unfold Holds subscribe
  rw [List.getElem?_append_right (le_refl _), Nat.sub_self]
  rfl

theorem Holds.lt (h : f.Holds n waiting) : n < f.inboxes.length := by
  obtain ⟨hlt, -⟩ := List.getElem?_eq_some_iff.mp h
  exact hlt

theorem Holds.subscribe (h : f.Holds n waiting) : f.subscribe.2.Holds n waiting := by
  unfold Holds EventFeed.subscribe
  rw [List.getElem?_append_left h.lt]
  exact h

theorem Holds.emit (h : f.Holds n waiting) (e : Event) : (f.emit e).Holds n (waiting ++ [e]) := by
  unfold Holds EventFeed.emit
  rw [List.getElem?_map, h]
  rfl

theorem Holds.drain (h : f.Holds n waiting) :
    (f.drain n).1 = some waiting ∧ (f.drain n).2.Holds n [] := by
  unfold Holds EventFeed.drain
  rw [h]
  refine ⟨rfl, ?_⟩
  change (f.inboxes.modify n _)[n]? = _
  rw [List.getElem?_modify_eq, h]
  rfl

theorem Holds.drain_of_ne (h : f.Holds n waiting) {m : Nat} (hne : m ≠ n) :
    (f.drain m).2.Holds n waiting := by
  unfold EventFeed.drain
  split
  · split_ifs
    · exact h
    · change (f.inboxes.modify m _)[n]? = _
      rw [List.getElem?_modify_ne _ _ hne]
      exact h
  · exact h

end EventFeed

namespace Store

variable {s : Store} {n : Nat} {waiting : List Event}

def taken (s : Store) (n : Nat) : Operation → List Event
  | .drain m => if m = n then (s.feed.drain n).1.getD [] else []
  | _ => []

/-- The events that a subscriber is given: those taken out of its inbox in the course of the
operations, and those that wait there in the end. -/
def received (s : Store) (n : Nat) : List (World × Operation) → List Event
  | [] => (s.feed.drain n).1.getD []
  | (w, operation) :: rest => s.taken n operation ++ (s.perform w operation).store.received n rest

def quietRevisions (s : Store) : List (World × Operation) → List Nat
  | [] => []
  | (w, operation) :: rest =>
    let t := (s.perform w operation).store
    if operation.isQuiet ∧ t.revision ≠ s.revision then t.revision :: t.quietRevisions rest
    else t.quietRevisions rest

/-- An operation tells of nothing if it leaves the revision or is quiet, and otherwise of the
revision that it leads to. -/
def Tells (s s' : Store) (operation : Operation) (told : List Event) : Prop :=
  s'.revision = s.revision ∧ told = [] ∨
    s'.revision = s.revision + 1 ∧
      told.map Event.revision = if operation.isQuiet then [] else [s.revision + 1]

/-- An operation that takes nothing out of an inbox adds to it what it tells. -/
theorem Moves.tells {s' : Store} {operation : Operation} (h : s.Moves s' operation)
    (hdrain : ∀ m, operation ≠ .drain m) (hn : s.feed.Holds n waiting) :
    ∃ told, s'.feed.Holds n (waiting ++ told) ∧ s.Tells s' operation told := by
  cases h with
  | same h =>
    refine ⟨[], ?_, Or.inl ⟨congrArg Contents.revision h.contents, rfl⟩⟩
    rw [h.feed, List.append_nil]
    exact hn
  | declared c hc hsnapshots hrevision hholes h =>
    refine ⟨[], ?_, Or.inl ⟨(congrArg Contents.revision h.contents).trans hrevision, rfl⟩⟩
    rw [h.feed, List.append_nil]
    exact hn
  | changed c kind key hc hrevision h =>
    have hnext : s'.revision = s.revision + 1 := by
      unfold revision
      rw [h.contents, changed_contents, ← hrevision]
      rfl
    unfold Store.changed at h
    cases hquiet : operation.isQuiet with
    | true =>
      rw [hquiet] at h
      refine ⟨[], ?_, Or.inr ⟨hnext, by rw [if_pos hquiet]; rfl⟩⟩
      rw [h.feed, List.append_nil]
      exact hn
    | false =>
      rw [hquiet] at h
      refine ⟨[⟨c.bump.revision, kind, key⟩], ?_, Or.inr ⟨hnext, ?_⟩⟩
      · rw [h.feed]
        exact hn.emit _
      · rw [if_neg (by simp [hquiet])]
        exact congrArg (fun r => [r + 1]) hrevision
  | heard feed hfeed h =>
    rcases hfeed with ⟨-, rfl⟩ | ⟨m, rfl, -⟩
    · refine ⟨[], ?_, Or.inl ⟨congrArg Contents.revision h.contents, rfl⟩⟩
      rw [h.feed, List.append_nil]
      exact hn.subscribe
    · exact absurd rfl (hdrain m)

/-- What an operation takes out of an inbox and what it leaves there is what waited before and
what the operation tells. -/
theorem Sound.perform_tells (h : s.Sound) (w : World) (operation : Operation)
    (hn : s.feed.Holds n waiting) :
    ∃ waiting' told, (s.perform w operation).store.feed.Holds n waiting' ∧
      s.taken n operation ++ waiting' = waiting ++ told ∧
      s.Tells (s.perform w operation).store operation told := by
  by_cases hdrain : ∃ m, operation = .drain m
  · obtain ⟨m, rfl⟩ := hdrain
    have hsame : s.Tells (s.perform w (.drain m)).store (.drain m) [] := Or.inl ⟨rfl, rfl⟩
    by_cases hm : m = n
    · subst hm
      obtain ⟨htaken, hleft⟩ := hn.drain
      refine ⟨[], [], hleft, ?_, hsame⟩
      change (if m = m then (s.feed.drain m).1.getD [] else []) ++ [] = waiting ++ []
      rw [if_pos rfl, htaken, Option.getD_some]
    · refine ⟨waiting, [], hn.drain_of_ne hm, ?_, hsame⟩
      change (if m = n then (s.feed.drain n).1.getD [] else []) ++ waiting = waiting ++ []
      rw [if_neg hm, List.append_nil, List.nil_append]
  · have hnot : ∀ m, operation ≠ .drain m := fun m hm => hdrain ⟨m, hm⟩
    have htaken : s.taken n operation = [] := by
      cases operation with
      | drain m => exact absurd rfl (hnot m)
      | _ => rfl
    rw [htaken]
    rcases h.perform_cases w operation with ⟨order, filter, anew, rfl, views, halike⟩ | ⟨-, hmoves⟩
    · refine ⟨waiting, [], ?_, by simp, Or.inl ⟨congrArg Contents.revision halike.contents, rfl⟩⟩
      rw [halike.feed]
      exact hn
    · obtain ⟨told, hwaiting, htells⟩ := hmoves.tells hnot hn
      exact ⟨_, told, hwaiting, rfl, htells⟩

/-! ### Runs -/

theorem quietRevisions_cons (s : Store) (w : World) (operation : Operation)
    (rest : List (World × Operation)) :
    s.quietRevisions ((w, operation) :: rest) =
      if operation.isQuiet ∧ (s.perform w operation).store.revision ≠ s.revision then
        (s.perform w operation).store.revision :: (s.perform w operation).store.quietRevisions rest
      else (s.perform w operation).store.quietRevisions rest := rfl

theorem quietRevisions_of_loud (s : Store) {steps : List (World × Operation)}
    (hloud : ∀ step ∈ steps, step.2.isQuiet = false) : s.quietRevisions steps = [] := by
  induction steps generalizing s with
  | nil => rfl
  | cons step rest ih =>
    obtain ⟨hstep, hrest⟩ := List.forall_mem_cons.mp hloud
    rw [quietRevisions_cons, if_neg (by simp [hstep])]
    exact ih _ hrest

/-- Quiet writes lead to revisions of the run. -/
theorem Sound.quietRevisions_mem (h : s.Sound) (steps : List (World × Operation)) :
    ∀ r ∈ s.quietRevisions steps, s.revision < r ∧ r ≤ (s.after steps).revision := by
  induction steps generalizing s with
  | nil => exact fun r hr => absurd hr List.not_mem_nil
  | cons step rest ih =>
    obtain ⟨w, operation⟩ := step
    obtain ⟨hle, -⟩ := h.perform_revision w operation
    have hnext := h.perform w operation
    obtain ⟨hle', -⟩ := hnext.after_revision rest
    have hrest := ih hnext
    intro r hr
    change s.revision < r ∧ r ≤ ((s.perform w operation).store.after rest).revision
    rw [quietRevisions_cons] at hr
    split_ifs at hr with hquiet
    · rcases List.mem_cons.mp hr with rfl | hr
      · obtain ⟨-, hne⟩ := hquiet
        omega
      · obtain ⟨hlt, hbound⟩ := hrest r hr
        omega
    · obtain ⟨hlt, hbound⟩ := hrest r hr
      omega

/-- The numbers after `a` that are not quiet: the next one, if it is not, and those after it. -/
theorem filter_range'_succ {a : Nat} {quiet : List Nat} (hlater : ∀ r ∈ quiet, a + 1 < r)
    (count : Nat) :
    (List.range' (a + 1) (count + 1)).filter (· ∉ quiet) =
        (a + 1) :: (List.range' (a + 2) count).filter (· ∉ quiet) ∧
      (List.range' (a + 1) (count + 1)).filter (· ∉ (a + 1) :: quiet) =
        (List.range' (a + 2) count).filter (· ∉ quiet) := by
  have hnext : a + 1 ∉ quiet := fun hmem => absurd (hlater _ hmem) (lt_irrefl _)
  rw [List.range'_succ]
  constructor
  · rw [List.filter_cons_of_pos (by simpa using hnext)]
  · rw [List.filter_cons_of_neg (by simp)]
    apply List.filter_congr
    intro r hr
    have hne : r ≠ a + 1 := by
      have hbound := (List.mem_range'_1.mp hr).1
      omega
    simp [hne]

/-- What one operation tells and the revisions after it that are not quiet are the revisions from
the operation on that are not quiet. -/
theorem Tells.revisions {s' : Store} {operation : Operation} {told : List Event}
    (h : s.Tells s' operation told) {last : Nat} (hle : s'.revision ≤ last) {quiet : List Nat}
    (hlater : ∀ r ∈ quiet, s'.revision < r) :
    told.map Event.revision ++
        (List.range' (s'.revision + 1) (last - s'.revision)).filter (· ∉ quiet) =
      (List.range' (s.revision + 1) (last - s.revision)).filter
        (· ∉ if operation.isQuiet ∧ s'.revision ≠ s.revision then s'.revision :: quiet
          else quiet) := by
  rcases h with ⟨hsame, rfl⟩ | ⟨hmoved, htold⟩
  · rw [if_neg (fun hquiet => hquiet.2 hsame), hsame]
    rfl
  · rw [hmoved] at hle hlater
    obtain ⟨hloud, hquiet⟩ := filter_range'_succ hlater (last - (s.revision + 1))
    have hcount : last - s.revision = last - (s.revision + 1) + 1 := by omega
    rw [hcount, htold, hmoved]
    by_cases hop : operation.isQuiet = true
    · rw [if_pos hop, if_pos ⟨hop, by omega⟩, hquiet]
      rfl
    · rw [if_neg hop, if_neg (fun h => hop h.1), hloud]
      rfl

/-- A subscriber is given what waited for it and one event for each revision that the operations
lead to, except those that quiet writes lead to. -/
theorem Sound.received_eq (h : s.Sound) (hn : s.feed.Holds n waiting)
    (steps : List (World × Operation)) :
    (s.received n steps).map Event.revision = waiting.map Event.revision ++
      (List.range' (s.revision + 1) ((s.after steps).revision - s.revision)).filter
        (· ∉ s.quietRevisions steps) := by
  induction steps generalizing s waiting with
  | nil =>
    unfold received
    rw [hn.drain.1]
    change _ = _ ++ (List.range' (s.revision + 1) (s.revision - s.revision)).filter _
    rw [Nat.sub_self, List.range'_zero, List.filter_nil, List.append_nil]
    rfl
  | cons step rest ih =>
    obtain ⟨w, operation⟩ := step
    obtain ⟨waiting', told, hwaiting, hsplit, htells⟩ := h.perform_tells w operation hn
    have hnext := h.perform w operation
    obtain ⟨hle, -⟩ := hnext.after_revision rest
    have hlater : ∀ r ∈ (s.perform w operation).store.quietRevisions rest,
        (s.perform w operation).store.revision < r :=
      fun r hr => (hnext.quietRevisions_mem rest r hr).1
    have hrevisions := htells.revisions hle hlater
    change (s.taken n operation ++ _).map Event.revision =
      _ ++ (List.range' (s.revision + 1)
        (((s.perform w operation).store.after rest).revision - s.revision)).filter _
    rw [quietRevisions_cons, ← hrevisions, List.map_append, ih hnext hwaiting,
      ← List.append_assoc, ← List.map_append, hsplit, List.map_append, List.append_assoc]

/-- A store that has never been written to, with one subscriber. Whatever operations follow, the
events that the subscriber is given carry the revisions from one to the last, each once and in
order, without those that writes within batches of the caller's own lead to. So none is left out
exactly if there was no such write, and each such write leaves out its own. -/
theorem received_after_operations (hs : s.Fresh) (steps : List (World × Operation)) :
    let t := s.subscribe.2
    let revisions := (t.received s.subscribe.1 steps).map Event.revision
    let all := List.range' 1 (t.after steps).revision
    revisions = all.filter (· ∉ t.quietRevisions steps) ∧
    (∀ r ∈ t.quietRevisions steps, r ∈ all) ∧
    (revisions = all ↔ t.quietRevisions steps = []) ∧
    ((∀ step ∈ steps, step.2.isQuiet = false) → revisions = all) := by
  intro t revisions all
  have hsound : t.Sound := ⟨hs.sound.1.consistent, hs.sound.1.usable⟩
  have hzero : t.revision = 0 := hs.revision
  have hrevisions : revisions = all.filter (· ∉ t.quietRevisions steps) := by
    have heq := hsound.received_eq (EventFeed.holds_subscribe s.feed) steps
    rw [hzero] at heq
    exact heq
  have hmem : ∀ r ∈ t.quietRevisions steps, r ∈ all := by
    intro r hr
    obtain ⟨hlt, hle⟩ := hsound.quietRevisions_mem steps r hr
    apply List.mem_range'_1.mpr
    omega
  have hexact : revisions = all ↔ t.quietRevisions steps = [] := by
    rw [hrevisions, List.filter_eq_self]
    constructor
    · intro hall
      apply List.eq_nil_iff_forall_not_mem.mpr
      intro r hr
      have hloud := hall r (hmem r hr)
      exact absurd hr (of_decide_eq_true hloud)
    · intro hnone r _
      rw [hnone]
      simp
  exact ⟨hrevisions, hmem, hexact, fun hloud => hexact.mpr (quietRevisions_of_loud t hloud)⟩

def storedQuietly : List (World × Operation) :=
  [(.bare, .set (some "r") [] ⟨true, false⟩), (.bare, .set (some "t") [] ⟨false, false⟩)]

theorem received_after_storedQuietly :
    plain.Fresh ∧ (plain.subscribe.2.received plain.subscribe.1 storedQuietly).map Event.revision =
      [2] := by
  obtain ⟨hrevisions, -, -, -⟩ := received_after_operations plain_fresh storedQuietly
  have hrevision : (plain.subscribe.2.after storedQuietly).revision = 2 := rfl
  have hquiet : plain.subscribe.2.quietRevisions storedQuietly = [1] := rfl
  rw [hrevision, hquiet] at hrevisions
  exact ⟨plain_fresh, hrevisions⟩

/-- The write within a batch of the caller's own leads to the first revision, and the subscriber is
not told of it. -/
theorem received_misses_storedQuietly :
    let t := plain.subscribe.2
    plain.Fresh ∧ (t.after storedQuietly).revision = 2 ∧
      t.received plain.subscribe.1 storedQuietly = [⟨2, .created, some "t"⟩] ∧
      (t.received plain.subscribe.1 storedQuietly).map Event.revision ≠
        List.range' 1 (t.after storedQuietly).revision := by
  intro t
  have hreceived : t.received plain.subscribe.1 storedQuietly = [⟨2, .created, some "t"⟩] := rfl
  have hrevision : (t.after storedQuietly).revision = 2 := rfl
  refine ⟨plain_fresh, hrevision, hreceived, ?_⟩
  rw [hreceived, hrevision]
  decide

end Store
end IndexedStore
