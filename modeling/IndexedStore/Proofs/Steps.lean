import IndexedStore.Proofs.Queries
import IndexedStore.Proofs.Exactness

/-!
Runs of a store. Whatever operations are performed, each in whatever world, the contents stay
consistent and the store stays usable, so the indexes of a store are exact at every moment.
-/
namespace IndexedStore

namespace Contents

variable {c : Contents}

theorem Consistent.bump (h : c.Consistent) : c.bump.Consistent := ⟨h.reflects, h.counted⟩

theorem Consistent.withRevision (h : c.Consistent) (revision : Nat) :
    ({ c with revision := revision } : Contents).Consistent := ⟨h.reflects, h.counted⟩

/-- Contents whose slots a reindex has closed. -/
theorem Consistent.of_reindex {c c' : Contents} (h : c.Consistent) (hc : c.reindex = .ok c') :
    c'.Consistent ∧ c'.revision = c.revision ∧ c'.holes = 0 ∧ c'.entries = c.entries := by
  obtain ⟨d, hd, hconsistent, hholes, hentries, -, -, hrevision⟩ := h.exists_reindex
  obtain rfl := Except.ok.inj (hc.symm.trans hd)
  exact ⟨hconsistent, hrevision, hholes, hentries⟩

end Contents

/-- A world in which made-up keys are numbers, the remote side finds nothing, and nothing has been
saved. -/
def World.bare : World :=
  ⟨⟨fun n => toString n, 0⟩, ⟨fun _ _ => .ok ⟨404, [], .null⟩, []⟩, .memory [], .fresh, 0⟩

/-- Whether an operation writes within a batch of the caller's own, of which nobody is told. -/
def Operation.isQuiet : Operation → Bool
  | .set _ _ options => options.batch
  | .delete _ options => options.batch
  | _ => false

def Operation.isRead : Operation → Bool
  | .get _ | .record _ | .select _ | .sort .. | .save _ | .purge => true
  | .versions _ | .unique _ | .only _ | .poll .. | .subscribe | .drain _ => true
  | _ => false

namespace Store

variable {s s' : Store} {w : World} {operation : Operation}

@[simp] theorem changed_contents (s : Store) (c : Contents) (quiet : Bool) (kind : EventKind)
    (key : Option String) : (s.changed c quiet kind key).contents = c.bump := by
  unfold changed
  split_ifs <;> rfl

@[simp] theorem changed_poisoned (s : Store) (c : Contents) (quiet : Bool) (kind : EventKind)
    (key : Option String) : (s.changed c quiet kind key).poisoned = s.poisoned := by
  unfold changed
  split_ifs <;> rfl

@[simp] theorem changed_remote (s : Store) (c : Contents) (quiet : Bool) (kind : EventKind)
    (key : Option String) : (s.changed c quiet kind key).remote = s.remote := by
  unfold changed
  split_ifs <;> rfl

@[simp] theorem changed_config (s : Store) (c : Contents) (quiet : Bool) (kind : EventKind)
    (key : Option String) : (s.changed c quiet kind key).config = s.config := by
  unfold changed
  split_ifs <;> rfl

/-- What an operation other than a sort does to a usable store with consistent contents. -/
inductive Moves (s s' : Store) (operation : Operation) : Prop where
  | same (h : s.Alike s')
  | declared (c : Contents) (hc : c.Consistent) (hsnapshots : c.snapshots = s.contents.snapshots)
      (hrevision : c.revision = s.contents.revision) (hholes : c.holes = s.contents.holes)
      (h : ({ s with contents := c } : Store).Alike s')
  | changed (c : Contents) (kind : EventKind) (key : Option String)
      (hc : c.Consistent) (hrevision : c.revision = s.contents.revision)
      (h : (s.changed c operation.isQuiet kind key).Alike s')
  | heard (feed : EventFeed)
      (hfeed : operation = .subscribe ∧ feed = s.feed.subscribe.2 ∨
        ∃ n, operation = .drain n ∧ feed = (s.feed.drain n).2)
      (h : ({ s with feed := feed } : Store).Alike s')

/-- The contents are consistent and no reindex has failed. -/
structure Sound (s : Store) : Prop where
  consistent : s.contents.Consistent
  usable : s.poisoned = false

theorem Sound.declareIndex_cases (h : s.Sound) (fields : List String) :
    (∃ e, (s.declareIndex w fields).result = .error e ∧
      s.Alike (s.declareIndex w fields).store) ∨
    ∃ signature c, s.contents.declareIndex fields = .ok (signature, c) ∧
      (s.declareIndex w fields).result = .ok signature ∧
      ({ s with contents := c } : Store).Alike (s.declareIndex w fields).store := by
  unfold declareIndex
  rw [usable_eq h.usable, tracked_result]
  cases hc : s.contents.declareIndex fields with
  | error fault => exact Or.inl ⟨_, rfl, tracked_alike (⟨.error _, s, w⟩ : Outcome String)⟩
  | ok declared =>
    exact Or.inr ⟨declared.1, declared.2, rfl, rfl,
      tracked_alike (⟨.ok declared.1, _, w⟩ : Outcome String)⟩

theorem Sound.set_moves (h : s.Sound) (key : Option String) (data : Fields)
    (options : SetOptions) (hquiet : operation.isQuiet = options.batch) :
    s.Moves (s.set w key data options).store operation := by
  rcases set_cases (w := w) h.usable key data options with ⟨-, -, -, halike⟩ | ⟨_, rfl, -, halike⟩
  · exact .same halike
  · rw [← hquiet] at halike
    exact .changed _ _ _ (h.consistent.upsert _ _ _ _) (Contents.upsert_revision _ _ _ _ _) halike

theorem Sound.delete_moves (h : s.Sound) (target : Target) (options : DeleteOptions) :
    s.Moves (s.delete w target options).store (.delete target options) := by
  rcases delete_cases (w := w) h.consistent h.usable target options with
    ⟨-, -, -, halike⟩ | ⟨r, c, -, hremoval, -, halike⟩
  · exact .same halike
  · obtain ⟨hconsistent, hrevision, -⟩ := h.consistent.removal hremoval
    exact .changed c _ _ hconsistent hrevision halike

theorem Sound.undo_moves (h : s.Sound) (key : String) (label : Option String) :
    s.Moves (s.undo w key label).store (.undo key label) := by
  rcases undo_cases (w := w) key label with ⟨-, -, halike⟩ | ⟨fields, -, hset⟩
  · exact .same halike
  · rw [hset]
    exact h.set_moves _ _ _ rfl

theorem Sound.declareIndex_moves (h : s.Sound) (fields : List String) :
    s.Moves (s.declareIndex w fields).store (.declareIndex fields) := by
  rcases h.declareIndex_cases (w := w) fields with ⟨-, -, halike⟩ | ⟨_, c, hc, -, halike⟩
  · exact .same halike
  · obtain ⟨hconsistent, ⟨f, hf, hslots⟩, -, hrevision, hholes⟩ := h.consistent.declareIndex hc
    exact .declared c hconsistent (Contents.declareIndex_entries hf hslots) hrevision hholes halike

theorem Sound.reindex_moves (h : s.Sound) : s.Moves (s.reindex w).store .reindex := by
  obtain ⟨c, hc, -, halike⟩ := reindex_spec (w := w) h.consistent h.usable
  obtain ⟨hconsistent, hrevision, -, -⟩ := h.consistent.of_reindex hc
  exact .changed c _ _ hconsistent hrevision halike

theorem Sound.clear_moves (h : s.Sound) : s.Moves s.clear .clear :=
  .changed s.contents.clear .cleared none h.consistent.clear rfl (Alike.refl _)

/-- Contents with items applied to them and their slots closed are consistent. -/
theorem Sound.applied_reindexed (h : s.Sound) (replace : Bool)
    (ready : List (Except StoreError BatchItem)) {c : Contents}
    (hc : ((s.batchBase replace).itemsApplied s.config.versioning ready).reindex = .ok c) :
    c.Consistent ∧ c.revision = s.contents.revision ∧ c.holes = 0 ∧
      c.entries = ((s.batchBase replace).itemsApplied s.config.versioning ready).entries := by
  have hbase : (s.batchBase replace).revision = s.contents.revision := by
    cases replace <;> rfl
  obtain ⟨happlied, hsame⟩ :=
    (consistent_batchBase h.consistent replace).itemsApplied s.config.versioning ready
  obtain ⟨hconsistent, hrevision, hholes, hentries⟩ := happlied.of_reindex hc
  exact ⟨hconsistent, (hrevision.trans hsame).trans hbase, hholes, hentries⟩

theorem Sound.batchDetailed_moves (h : s.Sound) (kind : BatchKind) (items : List Value)
    (replace : Bool) (hquiet : operation.isQuiet = false) :
    s.Moves (s.batchDetailed w kind items replace).store operation := by
  obtain ⟨c, hc, -, halike⟩ := batchKeyed_spec (w := w) h.consistent h.usable kind
    (items.map fun item => (none, item)) replace
  obtain ⟨hconsistent, hrevision, -, -⟩ := h.applied_reindexed replace _ hc
  rw [← hquiet] at halike
  exact .changed c _ _ hconsistent hrevision halike

/-- A batch reports items that failed as a failure, and leaves the same behind. -/
theorem batch_alike (s : Store) (w : World) (kind : BatchKind) (items : List Value)
    (replace : Bool) :
    (s.batchDetailed w kind items replace).store.Alike (s.batch w kind items replace).store := by
  unfold batch
  dsimp only
  split
  · exact Alike.refl _
  · split_ifs
    · exact Alike.refl _
    · exact tracked_alike (⟨.error _, _, _⟩ : Outcome BatchReport)

theorem Moves.trans_alike {t : Store} (h : s.Moves s' operation) (h' : s'.Alike t) :
    s.Moves t operation := by
  cases h with
  | same h => exact .same (h.trans h')
  | declared c hc hsnapshots hrevision hholes h =>
    exact .declared c hc hsnapshots hrevision hholes (h.trans h')
  | changed c kind key hc hrevision h => exact .changed c kind key hc hrevision (h.trans h')
  | heard feed hfeed h => exact .heard feed hfeed (h.trans h')

theorem Sound.load_moves (h : s.Sound) (payload : Value) :
    s.Moves (s.load w payload).store (.load payload) := by
  rcases load_cases (w := w) h.consistent h.usable payload with
    ⟨-, -, halike⟩ | ⟨_, c, ⟨_, -, hc⟩, -, halike⟩
  · exact .same halike
  · obtain ⟨hconsistent, hrevision, -, -⟩ := h.applied_reindexed true _ hc
    exact .changed c _ _ hconsistent hrevision halike

theorem Sound.sync_moves (h : s.Sound) : s.Moves (s.sync w).store .sync := by
  rcases sync_cases (w := w) h.consistent h.usable with
    ⟨-, -, halike⟩ | ⟨_, _, _, c, -, -, ⟨_, -, hc⟩, -, halike⟩
  · exact .same halike
  · obtain ⟨hconsistent, hrevision, -, -⟩ := h.applied_reindexed true _ hc
    exact .changed c _ _ hconsistent hrevision halike

theorem Sound.restore_moves (h : s.Sound) : s.Moves (s.restore w).store .restore := by
  rcases restore_cases (w := w) h.usable with ⟨-, halike⟩ | ⟨_, _, c, -, -, hc, -, halike⟩
  · exact .same halike
  · exact .changed _ _ _ ((unpacked_consistent hc).1.withRevision _) rfl halike

/-- Every operation that does not sort leaves the store as it was, takes in an index, changes the
contents at the next revision, or concerns inboxes. -/
theorem Sound.perform_moves (h : s.Sound) (w : World) (operation : Operation)
    (hsort : ∀ order filter anew, operation ≠ .sort order filter anew) :
    s.Moves (s.perform w operation).store operation := by
  cases operation with
  | declareIndex fields => exact h.declareIndex_moves fields
  | get selector => exact .same (get_alike h.usable selector).2
  | record key => exact .same (record_alike h.usable key)
  | set key data options => exact h.set_moves key data options rfl
  | delete target options => exact h.delete_moves target options
  | undo key label => exact h.undo_moves key label
  | reindex => exact h.reindex_moves
  | clear => exact h.clear_moves
  | select filter => exact .same (select_spec h.usable filter).2
  | sort order filter anew => exact absurd rfl (hsort order filter anew)
  | batch kind items replace =>
    exact (h.batchDetailed_moves kind items replace rfl).trans_alike
      (batch_alike s w kind items replace)
  | batchDetailed kind items replace => exact h.batchDetailed_moves kind items replace rfl
  | load payload => exact h.load_moves payload
  | sync => exact h.sync_moves
  | save name =>
    cases name with
    | some name => exact .same ⟨rfl, rfl, rfl, rfl, rfl, rfl⟩
    | none => exact .same ⟨rfl, rfl, rfl, rfl, rfl, rfl⟩
  | restore => exact h.restore_moves
  | purge => exact .same ⟨rfl, rfl, rfl, rfl, rfl, rfl⟩
  | versions key => exact .same (Alike.refl s)
  | unique field => exact .same (Alike.refl s)
  | only field => exact .same (Alike.refl s)
  | poll cursor limit => exact .same (Alike.refl s)
  | subscribe => exact .heard s.feed.subscribe.2 (Or.inl ⟨rfl, rfl⟩) (Alike.refl _)
  | drain inbox => exact .heard (s.feed.drain inbox).2 (Or.inr ⟨inbox, rfl, rfl⟩) (Alike.refl _)

theorem sort_alike (hs : s.poisoned = false) (order : SortOrder) (filter : Option Where)
    (anew : Bool) :
    ∃ views, ({ s with views := views } : Store).Alike (s.sort w order filter anew).store := by
  rcases sort_cases (w := w) hs order filter anew with
    ⟨_, _, -, -, -, -, halike⟩ | ⟨-, -, ⟨halike, -⟩ | ⟨_, _, -, -, -, halike⟩⟩
  · exact ⟨s.views, halike⟩
  · exact ⟨_, halike⟩
  · exact ⟨_, halike⟩

/-- What only reads leaves the contents as they are, whatever it does to views and inboxes. -/
theorem Sound.contents_of_isRead (h : s.Sound) (w : World) (operation : Operation)
    (hread : operation.isRead = true) : (s.perform w operation).store.contents = s.contents := by
  cases operation with
  | get selector => exact (get_alike h.usable selector).2.contents
  | record key => exact (record_alike h.usable key).contents
  | select filter => exact (select_spec h.usable filter).2.contents
  | sort order filter anew =>
    obtain ⟨views, halike⟩ := sort_alike (w := w) h.usable order filter anew
    exact halike.contents
  | save name => cases name <;> rfl
  | purge | versions | unique | only | poll | subscribe | drain => rfl
  | _ => exact absurd hread Bool.false_ne_true

theorem Sound.of_alike (h : s.Sound) (halike : s.Alike s') : s'.Sound :=
  ⟨halike.contents ▸ h.consistent, halike.poisoned.trans h.usable⟩

theorem Sound.moved (h : s.Sound) (hmoves : s.Moves s' operation) : s'.Sound := by
  cases hmoves with
  | same halike => exact h.of_alike halike
  | declared c hc _ _ _ halike =>
    have hdeclared : ({ s with contents := c } : Store).Sound := ⟨hc, h.usable⟩
    exact hdeclared.of_alike halike
  | changed c kind key hc _ halike =>
    have hchanged : (s.changed c operation.isQuiet kind key).Sound :=
      ⟨by rw [changed_contents]; exact hc.bump, by rw [changed_poisoned]; exact h.usable⟩
    exact hchanged.of_alike halike
  | heard feed _ halike =>
    have hheard : ({ s with feed := feed } : Store).Sound := ⟨h.consistent, h.usable⟩
    exact hheard.of_alike halike

/-- An operation is a sort, which changes the views only, or one that moves the store. -/
theorem Sound.perform_cases (h : s.Sound) (w : World) (operation : Operation) :
    (∃ order filter anew, operation = .sort order filter anew ∧
      ∃ views, ({ s with views := views } : Store).Alike (s.perform w operation).store) ∨
    ((∀ order filter anew, operation ≠ .sort order filter anew) ∧
      s.Moves (s.perform w operation).store operation) := by
  by_cases hsort : ∃ order filter anew, operation = .sort order filter anew
  · obtain ⟨order, filter, anew, rfl⟩ := hsort
    exact Or.inl ⟨order, filter, anew, rfl, sort_alike (w := w) h.usable order filter anew⟩
  · have hnot : ∀ order filter anew, operation ≠ .sort order filter anew :=
      fun order filter anew heq => hsort ⟨order, filter, anew, heq⟩
    exact Or.inr ⟨hnot, h.perform_moves w operation hnot⟩

/-- Every operation keeps the contents consistent and the store usable. -/
theorem Sound.perform (h : s.Sound) (w : World) (operation : Operation) :
    (s.perform w operation).store.Sound := by
  rcases h.perform_cases w operation with ⟨_, _, _, -, views, halike⟩ | ⟨-, hmoves⟩
  · have hviews : ({ s with views := views } : Store).Sound := ⟨h.consistent, h.usable⟩
    exact hviews.of_alike halike
  · exact h.moved hmoves

theorem Moves.config (h : s.Moves s' operation) : s'.config = s.config := by
  cases h with
  | same h => exact h.config
  | declared c _ _ _ _ h => exact h.config
  | changed c kind key _ _ h => rw [h.config, changed_config]
  | heard feed _ h => exact h.config

theorem Sound.perform_config (h : s.Sound) (w : World) (operation : Operation) :
    (s.perform w operation).store.config = s.config := by
  rcases h.perform_cases w operation with ⟨_, _, _, -, _, halike⟩ | ⟨-, hmoves⟩
  · exact halike.config
  · exact hmoves.config

theorem Moves.remote (h : s.Moves s' operation) : s'.remote.isSome = s.remote.isSome := by
  cases h with
  | same h => exact h.remote
  | declared c _ _ _ _ h => exact h.remote
  | changed c kind key _ _ h => rw [h.remote, changed_remote]
  | heard feed _ h => exact h.remote

theorem Sound.perform_remote (h : s.Sound) (w : World) (operation : Operation) :
    (s.perform w operation).store.remote.isSome = s.remote.isSome := by
  rcases h.perform_cases w operation with ⟨_, _, _, -, _, halike⟩ | ⟨-, hmoves⟩
  · exact halike.remote
  · exact hmoves.remote

/-! ### Runs -/

/-- A store that has just been made, on its own or with a remote side. -/
def Fresh (s : Store) : Prop :=
  ∃ config w, (create config w).1 = .ok s ∨ (createRemote config w).1 = .ok s

def after (s : Store) : List (World × Operation) → Store
  | [] => s
  | (w, operation) :: rest => (s.perform w operation).store.after rest

def plain : Store :=
  ⟨.standard, .empty 100, .empty, .empty 10000, .zero, true, none, false⟩

theorem create_plain : (create .standard .bare).1 = .ok plain := rfl

theorem plain_fresh : plain.Fresh := ⟨.standard, .bare, Or.inl create_plain⟩

theorem build_cases {config : Config} {remote : Option Http.Collection}
    (h : (build config remote w).1 = .ok s) :
    ∃ c, (Contents.empty config.versionLimit).declareIndexes config.indexes = .ok c ∧
      s.config = config ∧ s.contents = c ∧ s.views = .empty ∧
      s.feed = .empty config.eventHistory ∧ s.remote = remote ∧ s.poisoned = false := by
  unfold build at h
  cases hc : (Contents.empty config.versionLimit).declareIndexes config.indexes with
  | error fault =>
    rw [hc] at h
    exact absurd h (by simp)
  | ok c =>
    rw [hc] at h
    obtain rfl := Except.ok.inj h
    exact ⟨c, rfl, rfl, rfl, rfl, rfl, rfl, rfl⟩

theorem Fresh.exists_build (h : s.Fresh) :
    ∃ config remote w, (build config remote w).1 = .ok s := by
  obtain ⟨config, w, hcreate | hcreate⟩ := h
  · exact ⟨config, none, w, hcreate⟩
  · unfold createRemote at hcreate
    split at hcreate
    · exact absurd hcreate (by simp)
    · exact ⟨config, _, w, hcreate⟩

theorem Fresh.sound (h : s.Fresh) : s.Sound ∧ s.contents.holes = 0 ∧ s.contents.snapshots = [] := by
  obtain ⟨config, remote, w, hbuild⟩ := h.exists_build
  obtain ⟨c, hc, -, rfl, -, -, -, husable⟩ := build_cases hbuild
  obtain ⟨hconsistent, hsnapshots, -, -, hholes⟩ :=
    (Contents.consistent_empty config.versionLimit).declareIndexes hc
  exact ⟨⟨hconsistent, husable⟩, hholes, hsnapshots⟩

theorem Fresh.revision (h : s.Fresh) : s.revision = 0 := by
  obtain ⟨config, remote, w, hbuild⟩ := h.exists_build
  obtain ⟨c, hc, -, rfl, -⟩ := build_cases hbuild
  obtain ⟨-, -, -, hrevision, -⟩ :=
    (Contents.consistent_empty config.versionLimit).declareIndexes hc
  exact hrevision

theorem after_append (s : Store) (steps steps' : List (World × Operation)) :
    s.after (steps ++ steps') = (s.after steps).after steps' := by
  induction steps generalizing s with
  | nil => rfl
  | cons step rest ih => exact ih _

theorem Sound.after (h : s.Sound) (steps : List (World × Operation)) : (s.after steps).Sound := by
  induction steps generalizing s with
  | nil => exact h
  | cons step rest ih => exact ih (h.perform step.1 step.2)

theorem Sound.after_config (h : s.Sound) (steps : List (World × Operation)) :
    (s.after steps).config = s.config := by
  induction steps generalizing s with
  | nil => rfl
  | cons step rest ih =>
    exact (ih (h.perform step.1 step.2)).trans (h.perform_config step.1 step.2)

theorem Sound.after_remote (h : s.Sound) (steps : List (World × Operation)) :
    (s.after steps).remote.isSome = s.remote.isSome := by
  induction steps generalizing s with
  | nil => rfl
  | cons step rest ih =>
    exact (ih (h.perform step.1 step.2)).trans (h.perform_remote step.1 step.2)

end Store
end IndexedStore
