import IndexedStore.Proofs.Ledger
import IndexedStore.Proofs.Notices

/-!
The events that operations tell of. What one operation tells of is read off the store before it and
the revision it leads to. The feed keeps the latest of all events told, and whoever has subscribed
is given each of them.
-/
namespace IndexedStore

namespace EventFeed

variable {f : EventFeed} {events : List Event}

/-- The feed keeps the latest of some events, as many as its limit allows. -/
def Keeps (f : EventFeed) (events : List Event) : Prop :=
  f.history = events.drop (events.length - f.historyLimit)

theorem keeps_empty (limit : Nat) : (empty limit).Keeps [] := List.drop_nil.symm

theorem Keeps.emit (h : f.Keeps events) (e : Event) : (f.emit e).Keeps (events ++ [e]) := by
  unfold Keeps at h ⊢
  unfold EventFeed.emit
  dsimp only
  have hlength : f.history.length = events.length - (events.length - f.historyLimit) := by
    rw [h, List.length_drop]
  have hkept : f.history ++ [e] = (events ++ [e]).drop (events.length - f.historyLimit) := by
    rw [h, List.drop_append_of_le_length (Nat.sub_le _ _)]
  rw [List.length_append, hlength, hkept, List.drop_drop, List.length_append]
  congr 1
  simp only [List.length_cons, List.length_nil]
  omega

theorem Keeps.emitAll (h : f.Keeps events) (later : List Event) :
    (later.foldl EventFeed.emit f).Keeps (events ++ later) := by
  induction later generalizing f events with
  | nil => simpa using h
  | cons e rest ih => simpa using ih (h.emit e)

theorem Holds.emitAll {n : Nat} {waiting : List Event} (h : f.Holds n waiting)
    (later : List Event) : (later.foldl EventFeed.emit f).Holds n (waiting ++ later) := by
  induction later generalizing f waiting with
  | nil => simpa using h
  | cons e rest ih => simpa using ih (h.emit e)

theorem historyLimit_emitAll (f : EventFeed) (later : List Event) :
    (later.foldl EventFeed.emit f).historyLimit = f.historyLimit := by
  induction later generalizing f with
  | nil => rfl
  | cons e rest ih => exact ih (f.emit e)

theorem drain_history (f : EventFeed) (n : Nat) :
    (f.drain n).2.history = f.history ∧ (f.drain n).2.historyLimit = f.historyLimit := by
  unfold drain
  split
  · split_ifs <;> exact ⟨rfl, rfl⟩
  · exact ⟨rfl, rfl⟩

end EventFeed

namespace Store

variable {s s' : Store} {w : World} {operation : Operation}

def storing (s : Store) (key : String) : EventKind := if key ∈ s.keys then .updated else .created

/-- The kind of the change that an operation makes when it makes one, and the record it concerns. -/
def change (s : Store) (w : World) : Operation → EventKind × Option String
  | .set given data _ =>
    let key := (s.chooseKey w.keys given data).1
    (s.storing key, some key)
  | .undo key _ => (s.storing key, some key)
  | .delete target _ => (.deleted, (s.contents.find? target).map (·.key))
  | .reindex => (.reindexed, none)
  | .clear => (.cleared, none)
  | _ => (.batch, none)

/-- The events that an operation tells of: one if it moves the revision, unless it is a write
within a batch of the caller's own. -/
def told (s : Store) (w : World) (operation : Operation) : List Event :=
  let revision := (s.perform w operation).store.revision
  if operation.isQuiet ∨ revision = s.revision then []
  else [⟨revision, (s.change w operation).1, (s.change w operation).2⟩]

def emitted (s : Store) : List (World × Operation) → List Event
  | [] => []
  | (w, operation) :: rest => s.told w operation ++ (s.perform w operation).store.emitted rest

def Spreads (s : Store) (w : World) (operation : Operation) : Prop :=
  (s.perform w operation).store.feed = (s.told w operation).foldl EventFeed.emit s.feed

theorem told_of_same (h : (s.perform w operation).store.revision = s.revision) :
    s.told w operation = [] := if_pos (Or.inr h)

theorem Spreads.of_alike (h : s.Alike (s.perform w operation).store) : s.Spreads w operation := by
  unfold Spreads
  rw [told_of_same (congrArg Contents.revision h.contents), h.feed]
  rfl

/-- A change that is not quiet is told with its kind and the record it concerns. -/
theorem told_of_changed {c : Contents} {quiet : Bool} {kind : EventKind} {key : Option String}
    (hrevision : c.revision = s.contents.revision)
    (hchange : operation.isQuiet = false → s.change w operation = (kind, key))
    (h : (s.changed c quiet kind key).Alike (s.perform w operation).store) :
    s.told w operation = if operation.isQuiet then [] else [⟨c.bump.revision, kind, key⟩] := by
  have hnext : (s.perform w operation).store.revision = c.bump.revision := by
    unfold revision
    rw [h.contents, changed_contents]
  have hmoved : c.bump.revision ≠ s.revision := by
    change c.revision + 1 ≠ s.contents.revision
    omega
  unfold told
  dsimp only
  rw [hnext]
  cases hquiet : operation.isQuiet with
  | true => rfl
  | false => rw [if_neg (by simp [hmoved]), if_neg Bool.false_ne_true, hchange hquiet]

theorem Spreads.of_changed {c : Contents} {kind : EventKind} {key : Option String}
    (hrevision : c.revision = s.contents.revision)
    (hchange : operation.isQuiet = false → s.change w operation = (kind, key))
    (h : (s.changed c operation.isQuiet kind key).Alike (s.perform w operation).store) :
    s.Spreads w operation := by
  unfold Spreads
  rw [told_of_changed hrevision hchange h, h.feed]
  unfold changed
  split_ifs <;> rfl

theorem storing_eq (h : s.contents.Consistent) (key : String) (data : Fields)
    (overwrite versioning : Bool) :
    s.storing key = (s.contents.upsert key data overwrite versioning).kind := by
  unfold storing Contents.upsert
  cases hr : s.contents.record? key with
  | some r =>
    obtain ⟨hat, rfl⟩ := h.record?_eq_some hr
    exact if_pos (List.mem_map.mpr ⟨r, (Contents.mem_live _ r).mpr ⟨_, hat⟩, rfl⟩)
  | none =>
    have hnot := h.not_mem_keys hr
    rw [← Contents.keys_eq_map_entries] at hnot
    exact if_neg hnot

theorem Sound.set_spreads (h : s.Sound) (key : Option String) (data : Fields)
    (options : SetOptions) : s.Spreads w (.set key data options) := by
  rcases set_cases (w := w) h.usable key data options with ⟨-, -, -, halike⟩ | ⟨_, rfl, -, halike⟩
  · exact .of_alike halike
  · refine .of_changed (Contents.upsert_revision _ _ _ _ _) (fun _ => ?_) halike
    exact Prod.ext (storing_eq h.consistent _ _ _ _) rfl

theorem Sound.undo_spreads (h : s.Sound) (key : String) (label : Option String) :
    s.Spreads w (.undo key label) := by
  rcases undo_cases (w := w) key label with ⟨-, -, halike⟩ | ⟨fields, -, hset⟩
  · exact .of_alike halike
  · have hstore : (s.perform w (.undo key label)).store =
        (s.perform w (.set (some key) fields ⟨false, true⟩)).store :=
      congrArg (fun o => (o.map Answer.snapshot).store) hset
    have hspreads := h.set_spreads (w := w) (some key) fields ⟨false, true⟩
    unfold Spreads told at hspreads ⊢
    rw [hstore]
    exact hspreads

theorem Sound.delete_spreads (h : s.Sound) (target : Target) (options : DeleteOptions) :
    s.Spreads w (.delete target options) := by
  rcases delete_cases (w := w) h.consistent h.usable target options with
    ⟨-, -, -, halike⟩ | ⟨r, c, hfound, hremoval, -, halike⟩
  · exact .of_alike halike
  · obtain ⟨-, hrevision, -⟩ := h.consistent.removal hremoval
    exact .of_changed hrevision (fun _ => by simp [change, hfound]) halike

theorem Sound.batch_spreads (h : s.Sound) {kind : BatchKind} {items : List Value} {replace : Bool}
    (hbatch : operation = .batch kind items replace ∨
      operation = .batchDetailed kind items replace) : s.Spreads w operation := by
  obtain ⟨c, hc, -, halike⟩ := batchKeyed_spec (w := w) h.consistent h.usable kind
    (items.map fun item => (none, item)) replace
  obtain ⟨-, hrevision, -, -⟩ := h.applied_reindexed replace _ hc
  rcases hbatch with rfl | rfl
  · exact .of_changed hrevision (fun _ => rfl) (halike.trans (batch_alike s w kind items replace))
  · exact .of_changed hrevision (fun _ => rfl) halike

theorem Sound.load_spreads (h : s.Sound) (payload : Value) : s.Spreads w (.load payload) := by
  rcases load_cases (w := w) h.consistent h.usable payload with
    ⟨-, -, halike⟩ | ⟨_, c, ⟨_, -, hc⟩, -, halike⟩
  · exact .of_alike halike
  · obtain ⟨-, hrevision, -, -⟩ := h.applied_reindexed true _ hc
    exact .of_changed hrevision (fun _ => rfl) halike

theorem Sound.sync_spreads (h : s.Sound) : s.Spreads w .sync := by
  rcases sync_cases (w := w) h.consistent h.usable with
    ⟨-, -, halike⟩ | ⟨_, _, _, c, -, -, ⟨_, -, hc⟩, -, halike⟩
  · exact .of_alike halike
  · obtain ⟨-, hrevision, -, -⟩ := h.applied_reindexed true _ hc
    exact .of_changed hrevision (fun _ => rfl) halike

theorem Sound.restore_spreads (h : s.Sound) : s.Spreads w .restore := by
  rcases restore_cases (w := w) h.usable with ⟨-, halike⟩ | ⟨_, _, c, -, -, -, -, halike⟩
  · exact .of_alike halike
  · exact .of_changed (c := { c with revision := s.revision }) rfl (fun _ => rfl) halike

theorem Sound.declareIndex_spreads (h : s.Sound) (fields : List String) :
    s.Spreads w (.declareIndex fields) := by
  rcases h.declareIndex_cases (w := w) fields with ⟨-, -, halike⟩ | ⟨_, c, hc, -, halike⟩
  · exact .of_alike halike
  · obtain ⟨-, -, -, hrevision, -⟩ := h.consistent.declareIndex hc
    have hsame : (s.perform w (.declareIndex fields)).store.revision = s.revision :=
      (congrArg Contents.revision halike.contents).trans hrevision
    unfold Spreads
    rw [told_of_same hsame]
    exact halike.feed

theorem Sound.sort_spreads (h : s.Sound) (order : SortOrder) (filter : Option Where)
    (anew : Bool) : s.Spreads w (.sort order filter anew) := by
  obtain ⟨views, halike⟩ := sort_alike (w := w) h.usable order filter anew
  have hsame : (s.perform w (.sort order filter anew)).store.revision = s.revision :=
    congrArg Contents.revision halike.contents
  unfold Spreads
  rw [told_of_same hsame]
  exact halike.feed

/-- Every operation that does not concern inboxes adds to the feed what it tells and nothing
else. -/
theorem Sound.perform_spreads (h : s.Sound) (w : World) (operation : Operation)
    (hsubscribe : operation ≠ .subscribe) (hdrain : ∀ n, operation ≠ .drain n) :
    s.Spreads w operation := by
  cases operation with
  | declareIndex fields => exact h.declareIndex_spreads fields
  | get selector => exact .of_alike (get_alike h.usable selector).2
  | record key => exact .of_alike (record_alike h.usable key)
  | set key data options => exact h.set_spreads key data options
  | delete target options => exact h.delete_spreads target options
  | undo key label => exact h.undo_spreads key label
  | reindex =>
    obtain ⟨c, hc, -, halike⟩ := reindex_spec (w := w) h.consistent h.usable
    exact .of_changed (h.consistent.of_reindex hc).2.1 (fun _ => rfl) halike
  | clear =>
    have halike : (s.changed s.contents.clear false .cleared none).Alike
        (s.perform w .clear).store := Alike.refl _
    have hrevision : s.contents.clear.revision = s.contents.revision := rfl
    exact .of_changed hrevision (fun _ => rfl) halike
  | select filter => exact .of_alike (select_spec h.usable filter).2
  | sort order filter anew => exact h.sort_spreads order filter anew
  | batch kind items replace => exact h.batch_spreads (Or.inl rfl)
  | batchDetailed kind items replace => exact h.batch_spreads (Or.inr rfl)
  | load payload => exact h.load_spreads payload
  | sync => exact h.sync_spreads
  | save name => cases name <;> exact .of_alike ⟨rfl, rfl, rfl, rfl, rfl, rfl⟩
  | restore => exact h.restore_spreads
  | purge => exact .of_alike ⟨rfl, rfl, rfl, rfl, rfl, rfl⟩
  | versions key => exact .of_alike (Alike.refl s)
  | unique field => exact .of_alike (Alike.refl s)
  | only field => exact .of_alike (Alike.refl s)
  | poll cursor limit => exact .of_alike (Alike.refl s)
  | subscribe => exact absurd rfl hsubscribe
  | drain inbox => exact absurd rfl (hdrain inbox)

/-! ### What the feed keeps -/

/-- The feed keeps on keeping the latest events. -/
theorem Sound.perform_feedKeeps (h : s.Sound) {events : List Event} (hkeeps : s.feed.Keeps events)
    (w : World) (operation : Operation) :
    (s.perform w operation).store.feed.Keeps (events ++ s.told w operation) ∧
      (s.perform w operation).store.feed.historyLimit = s.feed.historyLimit := by
  by_cases hsubscribe : operation = .subscribe
  · subst hsubscribe
    rw [told_of_same rfl, List.append_nil]
    exact ⟨hkeeps, rfl⟩
  by_cases hdrain : ∃ n, operation = .drain n
  · obtain ⟨n, rfl⟩ := hdrain
    obtain ⟨hhistory, hlimit⟩ := s.feed.drain_history n
    rw [told_of_same rfl, List.append_nil]
    unfold EventFeed.Keeps at hkeeps ⊢
    change (s.feed.drain n).2.history = events.drop (_ - (s.feed.drain n).2.historyLimit) ∧
      (s.feed.drain n).2.historyLimit = _
    rw [hhistory, hlimit]
    exact ⟨hkeeps, rfl⟩
  · rw [h.perform_spreads w operation hsubscribe fun n hn => hdrain ⟨n, hn⟩]
    exact ⟨hkeeps.emitAll _, EventFeed.historyLimit_emitAll _ _⟩

/-- An operation tells of no revision but the one that it leads to, which is a new one. -/
theorem Sound.told_revision (h : s.Sound) (w : World) (operation : Operation) :
    s.told w operation = [] ∨
      ∃ e, s.told w operation = [e] ∧ s.revision < e.revision ∧
        e.revision = (s.perform w operation).store.revision := by
  obtain ⟨hle, -⟩ := h.perform_revision w operation
  unfold told
  dsimp only
  split_ifs with hsilent
  · exact Or.inl rfl
  · rw [not_or] at hsilent
    exact Or.inr ⟨_, rfl, lt_of_le_of_ne hle (Ne.symm hsilent.2), rfl⟩

/-! ### Subscribers -/

/-- What an operation takes out of an inbox and what it leaves there is what waited before and
what the operation tells. -/
theorem Sound.perform_gives (h : s.Sound) (w : World) (operation : Operation) {n : Nat}
    {waiting : List Event} (hn : s.feed.Holds n waiting) :
    ∃ waiting', (s.perform w operation).store.feed.Holds n waiting' ∧
      s.taken n operation ++ waiting' = waiting ++ s.told w operation := by
  by_cases hsubscribe : operation = .subscribe
  · subst hsubscribe
    rw [told_of_same rfl, List.append_nil]
    exact ⟨waiting, hn.subscribe, rfl⟩
  by_cases hdrain : ∃ m, operation = .drain m
  · obtain ⟨m, rfl⟩ := hdrain
    rw [told_of_same rfl, List.append_nil]
    by_cases hm : m = n
    · subst hm
      obtain ⟨htaken, hleft⟩ := hn.drain
      refine ⟨[], hleft, ?_⟩
      change (if m = m then (s.feed.drain m).1.getD [] else []) ++ [] = waiting
      rw [if_pos rfl, htaken, Option.getD_some, List.append_nil]
    · refine ⟨waiting, hn.drain_of_ne hm, ?_⟩
      change (if m = n then (s.feed.drain n).1.getD [] else []) ++ waiting = waiting
      rw [if_neg hm, List.nil_append]
  · have hnot : ∀ m, operation ≠ .drain m := fun m hm => hdrain ⟨m, hm⟩
    have htaken : s.taken n operation = [] := by
      cases operation with
      | drain m => exact absurd rfl (hnot m)
      | _ => rfl
    rw [h.perform_spreads w operation hsubscribe hnot, htaken]
    exact ⟨_, hn.emitAll _, rfl⟩

/-- A subscriber is given what waited for it and every event that operations tell of from then
on. -/
theorem Sound.received_eq_emitted (h : s.Sound) {n : Nat} {waiting : List Event}
    (hn : s.feed.Holds n waiting) (steps : List (World × Operation)) :
    s.received n steps = waiting ++ s.emitted steps := by
  induction steps generalizing s waiting with
  | nil =>
    unfold received emitted
    rw [hn.drain.1, List.append_nil]
    rfl
  | cons step rest ih =>
    obtain ⟨w, operation⟩ := step
    obtain ⟨waiting', hwaiting, hsplit⟩ := h.perform_gives w operation hn
    have hrest := ih (h.perform w operation) hwaiting
    unfold received emitted
    rw [hrest, ← List.append_assoc, hsplit, List.append_assoc]

end Store
end IndexedStore
