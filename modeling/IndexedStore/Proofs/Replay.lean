import IndexedStore.Proofs.Emissions

/-!
Events replayed. Who knows the events of a store and nothing else knows its keys in their order, as
long as records are stored and deleted one at a time and nobody is kept in the dark.
-/
namespace IndexedStore

/-- Events that lead from a list of keys to another one. Each event stands where it can: a record
that is made was not there, and one that changes or goes was. -/
inductive Replays : List String → List Event → List String → Prop where
  | done (keys : List String) : Replays keys [] keys
  | created {keys last : List String} {revision : Nat} {key : String} {rest : List Event} :
      key ∉ keys → Replays (keys ++ [key]) rest last →
      Replays keys (⟨revision, .created, some key⟩ :: rest) last
  | updated {keys last : List String} {revision : Nat} {key : String} {rest : List Event} :
      key ∈ keys → Replays keys rest last →
      Replays keys (⟨revision, .updated, some key⟩ :: rest) last
  | deleted {keys last : List String} {revision : Nat} {key : String} {rest : List Event} :
      key ∈ keys → Replays (keys.erase key) rest last →
      Replays keys (⟨revision, .deleted, some key⟩ :: rest) last
  | reindexed {keys last : List String} {revision : Nat} {rest : List Event} :
      Replays keys rest last → Replays keys (⟨revision, .reindexed, none⟩ :: rest) last
  | cleared {keys last : List String} {revision : Nat} {rest : List Event} :
      Replays [] rest last → Replays keys (⟨revision, .cleared, none⟩ :: rest) last

theorem Replays.append {keys middle last : List String} {events later : List Event}
    (h : Replays keys events middle) (hlater : Replays middle later last) :
    Replays keys (events ++ later) last := by
  induction h with
  | done => exact hlater
  | created habsent _ ih => exact .created habsent (ih hlater)
  | updated hpresent _ ih => exact .updated hpresent (ih hlater)
  | deleted hpresent _ ih => exact .deleted hpresent (ih hlater)
  | reindexed _ ih => exact .reindexed (ih hlater)
  | cleared _ ih => exact .cleared (ih hlater)

def Operation.isSingle : Operation → Bool
  | .set _ _ options => !options.batch
  | .delete _ options => !options.batch
  | .batch .. | .batchDetailed .. | .load _ | .sync | .restore => false
  | _ => true

namespace Store

variable {s : Store} {w : World} {operation : Operation}

/-- What an operation tells of accounts for the keys: it leads from those before the operation to
those after it. -/
def Accounts (s : Store) (w : World) (operation : Operation) : Prop :=
  Replays s.keys (s.told w operation) (s.perform w operation).store.keys

theorem Accounts.of_same (hrevision : (s.perform w operation).store.revision = s.revision)
    (hkeys : (s.perform w operation).store.keys = s.keys) : s.Accounts w operation := by
  unfold Accounts
  rw [told_of_same hrevision, hkeys]
  exact .done _

theorem Accounts.of_alike (h : s.Alike (s.perform w operation).store) : s.Accounts w operation :=
  .of_same (congrArg Contents.revision h.contents) (congrArg Contents.keys h.contents)

theorem Accounts.of_changed {c : Contents} {quiet : Bool} {kind : EventKind}
    {key : Option String}
    (hrevision : c.revision = s.contents.revision) (hloud : operation.isQuiet = false)
    (hchange : s.change w operation = (kind, key))
    (h : (s.changed c quiet kind key).Alike (s.perform w operation).store)
    (hkeys : ∀ revision, Replays s.keys [⟨revision, kind, key⟩] c.keys) :
    s.Accounts w operation := by
  unfold Accounts keys
  rw [told_of_changed hrevision (fun _ => hchange) h, hloud, h.contents, changed_contents]
  exact hkeys _

/-- Storing a record tells whether it was there. -/
theorem replays_upsert (h : s.contents.Consistent) (key : String) (data : Fields)
    (overwrite versioning : Bool) (revision : Nat) :
    Replays s.keys [⟨revision, s.storing key, some key⟩]
      (s.contents.upsert key data overwrite versioning).contents.keys := by
  have hkeys : (s.contents.upsert key data overwrite versioning).contents.keys =
      if key ∈ s.keys then s.keys else s.keys ++ [key] := by
    unfold keys
    rw [Contents.keys_eq_map_entries, h.entries_upsert, Ledger.keys_put,
      ← Contents.keys_eq_map_entries]
  rw [hkeys]
  unfold storing
  split_ifs with hmem
  · exact .updated hmem (.done _)
  · exact .created hmem (.done _)

theorem Sound.set_accounts (h : s.Sound) (key : Option String) (data : Fields)
    (options : SetOptions) (hloud : options.batch = false) :
    s.Accounts w (.set key data options) := by
  rcases set_cases (w := w) h.usable key data options with ⟨-, -, -, halike⟩ | ⟨_, rfl, -, halike⟩
  · exact .of_alike halike
  · refine .of_changed (Contents.upsert_revision _ _ _ _ _) hloud ?_ halike fun revision => ?_
    · exact Prod.ext (storing_eq h.consistent _ _ _ _) rfl
    · rw [← storing_eq h.consistent]
      exact replays_upsert h.consistent _ _ _ _ revision

theorem Sound.undo_accounts (h : s.Sound) (key : String) (label : Option String) :
    s.Accounts w (.undo key label) := by
  rcases undo_cases (w := w) key label with ⟨-, -, halike⟩ | ⟨fields, -, hset⟩
  · exact .of_alike halike
  · have hstore : (s.perform w (.undo key label)).store =
        (s.perform w (.set (some key) fields ⟨false, true⟩)).store :=
      congrArg (fun o => (o.map Answer.snapshot).store) hset
    have haccounts := h.set_accounts (w := w) (some key) fields ⟨false, true⟩ rfl
    unfold Accounts told at haccounts ⊢
    rw [hstore]
    exact haccounts

theorem Sound.delete_accounts (h : s.Sound) (target : Target) (options : DeleteOptions)
    (hloud : options.batch = false) : s.Accounts w (.delete target options) := by
  rcases delete_cases (w := w) h.consistent h.usable target options with
    ⟨-, -, -, halike⟩ | ⟨r, c, hfound, hremoval, -, halike⟩
  · exact .of_alike halike
  · obtain ⟨-, hrevision, -⟩ := h.consistent.removal hremoval
    refine .of_changed hrevision hloud (by simp [change, hfound]) halike fun revision => ?_
    obtain ⟨p, hp⟩ := Contents.recordAt?_of_find? hfound
    have hmem : r.key ∈ s.keys := List.mem_map.mpr ⟨r, (Contents.mem_live _ r).mpr ⟨p, hp⟩, rfl⟩
    have hnodup := h.consistent.keys_nodup
    have hkeys : c.keys = s.keys.erase r.key := by
      unfold keys
      rw [Contents.keys_eq_map_entries] at hnodup ⊢
      rw [h.consistent.entries_removal hremoval, Ledger.keys_erase hnodup,
        Contents.keys_eq_map_entries]
    rw [hkeys]
    exact .deleted hmem (.done _)

theorem Sound.declareIndex_accounts (h : s.Sound) (fields : List String) :
    s.Accounts w (.declareIndex fields) := by
  rcases h.declareIndex_cases (w := w) fields with ⟨-, -, halike⟩ | ⟨_, c, hc, -, halike⟩
  · exact .of_alike halike
  · obtain ⟨-, ⟨f, hf, hslots⟩, -, hrevision, -⟩ := h.consistent.declareIndex hc
    refine .of_same ((congrArg Contents.revision halike.contents).trans hrevision) ?_
    refine (congrArg Contents.keys halike.contents).trans ?_
    change c.keys = s.contents.keys
    rw [Contents.keys_eq_map_entries, Contents.entries_eq_map_snapshots,
      Contents.declareIndex_entries hf hslots, ← Contents.entries_eq_map_snapshots,
      ← Contents.keys_eq_map_entries]

/-- Every single operation tells what becomes of the keys. -/
theorem Sound.perform_accounts (h : s.Sound) (w : World) (operation : Operation)
    (hsingle : operation.isSingle = true) : s.Accounts w operation := by
  have hread := h.contents_of_isRead w operation
  cases operation with
  | declareIndex fields => exact h.declareIndex_accounts fields
  | set key data options =>
    exact h.set_accounts key data options (by simpa [Operation.isSingle] using hsingle)
  | delete target options =>
    exact h.delete_accounts target options (by simpa [Operation.isSingle] using hsingle)
  | undo key label => exact h.undo_accounts key label
  | reindex =>
    obtain ⟨c, hc, -, halike⟩ := reindex_spec (w := w) h.consistent h.usable
    obtain ⟨-, hrevision, -, hentries⟩ := h.consistent.of_reindex hc
    have hkeys : c.keys = s.keys := by
      unfold keys
      rw [Contents.keys_eq_map_entries, hentries, ← Contents.keys_eq_map_entries]
    refine .of_changed hrevision rfl rfl halike fun revision => ?_
    rw [hkeys]
    exact .reindexed (.done _)
  | clear =>
    have halike : (s.changed s.contents.clear false .cleared none).Alike
        (s.perform w .clear).store := Alike.refl _
    have hrevision : s.contents.clear.revision = s.contents.revision := rfl
    exact .of_changed hrevision rfl rfl halike fun revision => .cleared (.done _)
  | batch kind items replace => exact absurd hsingle Bool.false_ne_true
  | batchDetailed kind items replace => exact absurd hsingle Bool.false_ne_true
  | load payload => exact absurd hsingle Bool.false_ne_true
  | sync => exact absurd hsingle Bool.false_ne_true
  | restore => exact absurd hsingle Bool.false_ne_true
  | _ =>
    exact .of_same (congrArg Contents.revision (hread rfl)) (congrArg Contents.keys (hread rfl))

theorem Sound.replays_emitted (h : s.Sound) {steps : List (World × Operation)}
    (hsingle : ∀ step ∈ steps, step.2.isSingle = true) :
    Replays s.keys (s.emitted steps) (s.after steps).keys := by
  induction steps generalizing s with
  | nil => exact .done _
  | cons step rest ih =>
    obtain ⟨w, operation⟩ := step
    obtain ⟨hstep, hrest⟩ := List.forall_mem_cons.mp hsingle
    exact (h.perform_accounts w operation hstep).append (ih (h.perform w operation) hrest)

theorem emitted_append (s : Store) (steps steps' : List (World × Operation)) :
    s.emitted (steps ++ steps') = s.emitted steps ++ (s.after steps).emitted steps' := by
  induction steps generalizing s with
  | nil => rfl
  | cons step rest ih =>
    obtain ⟨w, operation⟩ := step
    change s.told w operation ++ (s.perform w operation).store.emitted (rest ++ steps') = _
    rw [ih, ← List.append_assoc]
    rfl

/-- A new store on which records are stored and deleted one at a time tells of its keys: its events
lead from no keys at all to the keys that it has, in their order, each event standing where it can.
Whoever subscribes in the course of the operations is given just the events from then on, so a
subscriber from the beginning is given them all. -/
theorem replayed_after_operations (hs : s.Fresh) (steps : List (World × Operation))
    (hsingle : ∀ step ∈ steps, step.2.isSingle = true) :
    Replays [] (s.emitted steps) (s.after steps).keys ∧
    ∀ before w later, steps = before ++ (w, .subscribe) :: later →
      let t := s.after before
      s.emitted steps = s.emitted before ++ t.subscribe.2.received t.subscribe.1 later := by
  obtain ⟨hsound, -, hsnapshots⟩ := hs.sound
  constructor
  · have hkeys : s.keys = [] := by
      unfold keys
      rw [Contents.keys_eq_map_entries, Contents.entries_eq_map_snapshots, hsnapshots]
      rfl
    rw [← hkeys]
    exact hsound.replays_emitted hsingle
  · rintro before w later rfl t
    have ht : t.Sound := hsound.after before
    have hlater : t.subscribe.2.Sound := ht.perform w .subscribe
    have hgiven := hlater.received_eq_emitted (EventFeed.holds_subscribe t.feed) later
    have hsubscribe : t.emitted ((w, .subscribe) :: later) = t.subscribe.2.emitted later := by
      change t.told w .subscribe ++ t.subscribe.2.emitted later = _
      rw [told_of_same rfl, List.nil_append]
    rw [emitted_append, hsubscribe]
    exact congrArg (s.emitted before ++ ·) hgiven.symm

def broughtBack : List (World × Operation) :=
  [(.bare, .subscribe), (.bare, .set (some "a") [] ⟨false, false⟩),
    (.bare, .set (some "b") [] ⟨false, false⟩),
    (.bare, .set (some "b") [("x", .null)] ⟨false, false⟩),
    (.bare, .delete (.position 0) ⟨false, false⟩), (.bare, .reindex),
    (.bare, .undo "b" none)]

theorem replayed_after_broughtBack :
    plain.Fresh ∧ (∀ step ∈ broughtBack, step.2.isSingle = true) ∧
      Replays [] [⟨1, .created, some "a"⟩, ⟨2, .created, some "b"⟩, ⟨3, .updated, some "b"⟩,
        ⟨4, .deleted, some "a"⟩, ⟨5, .reindexed, none⟩, ⟨6, .updated, some "b"⟩] ["b"] ∧
      plain.emitted broughtBack =
        plain.subscribe.2.received plain.subscribe.1 broughtBack.tail := by
  have hsingle : ∀ step ∈ broughtBack, step.2.isSingle = true := by
    simp [broughtBack, Operation.isSingle]
  obtain ⟨hreplays, hgiven⟩ := replayed_after_operations plain_fresh broughtBack hsingle
  exact ⟨plain_fresh, hsingle, hreplays, hgiven [] .bare broughtBack.tail rfl⟩

end Store
end IndexedStore
