import IndexedStore.Proofs.VersionChanges

/-!
The course that the contents of a store take. Whatever the operation, contents change step by step:
fields are stored under a key, a record is taken out, records are arranged anew, or the versions of
all records are dropped. The storings on the way are listed with the contents right before them, so
those within a batch are as well.
-/
namespace IndexedStore

namespace Contents

/-- Fields that are stored under a key, with the contents right before. -/
structure Storing where
  before : Contents
  key : String

def itemStorings (versioning : Bool) (c : Contents) : List BatchItem → List Storing
  | [] => []
  | .store key data :: rest =>
    ⟨c, key⟩ :: (c.itemApplied versioning (.store key data)).itemStorings versioning rest
  | .remove key :: rest => (c.itemApplied versioning (.remove key)).itemStorings versioning rest

/-- Contents that others lead to, and the storings on the way. -/
inductive Course (versioning : Bool) (c : Contents) : List Storing → Contents → Prop where
  | start : Course versioning c [] c
  | stored {storings : List Storing} {d : Contents} (h : Course versioning c storings d)
      (key : String) (data : Fields) (overwrite : Bool) :
      Course versioning c (storings ++ [⟨d, key⟩]) (d.upsert key data overwrite versioning).contents
  | removed {storings : List Storing} {d d' : Contents} (h : Course versioning c storings d)
      {r : Record} {options : DeleteOptions} (hremoval : d.Removal r options d') :
      Course versioning c storings d'
  | arranged {storings : List Storing} {d d' : Contents} (h : Course versioning c storings d)
      (hconsistent : d'.Consistent) (hentries : d'.entries = d.entries)
      (hversions : d'.versions = d.versions) : Course versioning c storings d'
  | dropped {storings : List Storing} {d d' : Contents} (h : Course versioning c storings d)
      (hconsistent : d'.Consistent)
      (hversions : d'.versions = d.versions.clear ∨ ∃ limit, d'.versions = .empty limit) :
      Course versioning c storings d'

variable {versioning : Bool} {c d e : Contents} {storings later : List Storing}

theorem Course.consistent (h : Course versioning c storings d) (hc : c.Consistent) :
    d.Consistent := by
  induction h with
  | start => exact hc
  | stored _ key data overwrite ih => exact ih.upsert key data overwrite versioning
  | removed _ hremoval ih => exact (ih.removal hremoval).1
  | arranged _ hconsistent _ _ _ => exact hconsistent
  | dropped _ hconsistent _ _ => exact hconsistent

theorem Course.trans (h : Course versioning c storings d) (h' : Course versioning d later e) :
    Course versioning c (storings ++ later) e := by
  induction h' with
  | start =>
    rw [List.append_nil]
    exact h
  | stored _ key data overwrite ih =>
    rw [← List.append_assoc]
    exact ih.stored key data overwrite
  | removed _ hremoval ih => exact ih.removed hremoval
  | arranged _ hconsistent hentries hversions ih => exact ih.arranged hconsistent hentries hversions
  | dropped _ hconsistent hversions ih => exact ih.dropped hconsistent hversions

theorem Course.bumped (h : Course versioning c storings d) (hd : d.Consistent) :
    Course versioning c storings d.bump := h.arranged hd.bump rfl rfl

/-- Items of a batch are applied one after another. -/
theorem Consistent.course_items (h : c.Consistent) (versioning : Bool) (items : List BatchItem) :
    Course versioning c (c.itemStorings versioning items)
      (items.foldl (Contents.itemApplied versioning) c) := by
  induction items generalizing c with
  | nil => exact .start
  | cons item rest ih =>
    have hrest := ih (h.itemApplied versioning item).1
    cases item with
    | store key data =>
      have hfirst : Course versioning c [⟨c, key⟩] _ := Course.start.stored key data false
      exact hfirst.trans hrest
    | remove key =>
      suffices hfirst : Course versioning c [] (c.itemApplied versioning (.remove key)) from
        hfirst.trans hrest
      unfold Contents.itemApplied
      dsimp only
      rcases h.hollow_cases key with ⟨-, hbind⟩ | ⟨r, c', -, -, hbind, hremoval⟩
      · rw [hbind]
        exact .start
      · rw [hbind]
        exact Course.start.removed hremoval

/-- The items of a batch that could be made ready are applied, and the slots closed. -/
theorem Consistent.course_reindexed (h : c.Consistent)
    {ready : List (Except StoreError BatchItem)}
    (hd : (c.itemsApplied versioning ready).reindex = .ok d) :
    Course versioning c (c.itemStorings versioning (ready.filterMap Except.toOption)) d := by
  have happlied := (h.itemsApplied versioning ready).1
  obtain ⟨hconsistent, -, -, hentries⟩ := happlied.of_reindex hd
  exact (h.course_items versioning _).arranged hconsistent hentries (versions_reindex hd)

end Contents

namespace Store

open Contents (Course Storing)

variable {s s' : Store} {w : World}

def batchStorings (s : Store) (keys : KeySupply) (kind : BatchKind)
    (items : List (Option String × Value)) (replace : Bool) : List Storing :=
  (s.batchBase replace).itemStorings s.config.versioning
    ((s.preparedAll keys kind items).1.filterMap Except.toOption)

def storingOf (s : Store) (result : Except StoreError Snapshot) : List Storing :=
  match result with
  | .ok r => [⟨s.contents, r.key⟩]
  | .error _ => []

def storings (s : Store) (w : World) : Operation → List Storing
  | .set given data options => s.storingOf (s.set w given data options).result
  | .undo key label => s.storingOf (s.undo w key label).result
  | .batch kind items replace | .batchDetailed kind items replace =>
    s.batchStorings w.keys kind (items.map fun item => (none, item)) replace
  | .load payload =>
    match (s.load w payload).result, s.payloadItems payload with
    | .ok _, .ok items => s.batchStorings w.keys .set items true
    | _, _ => []
  | _ => []

def storingsIn (s : Store) : List (World × Operation) → List Storing
  | [] => []
  | (w, operation) :: rest =>
    s.storings w operation ++ (s.perform w operation).store.storingsIn rest

abbrev Leads (s : Store) (storings : List Storing) (s' : Store) : Prop :=
  Course s.config.versioning s.contents storings s'.contents

variable {storings : List Storing}

theorem leads_of_alike (halike : s.Alike s') : s.Leads [] s' := by
  unfold Leads
  rw [halike.contents]
  exact .start

theorem leads_of_changed {c : Contents} {quiet : Bool} {kind : EventKind} {key : Option String}
    (h : Course s.config.versioning s.contents storings c) (hc : c.Consistent)
    (halike : (s.changed c quiet kind key).Alike s') : s.Leads storings s' := by
  unfold Leads
  rw [halike.contents, changed_contents]
  exact h.bumped hc

theorem Sound.leads_set (h : s.Sound) (given : Option String) (data : Fields)
    (options : SetOptions) :
    s.Leads (s.storingOf (s.set w given data options).result)
      (s.set w given data options).store := by
  rcases set_cases (w := w) h.usable given data options with
    ⟨e, -, he, halike⟩ | ⟨stored, rfl, hr, halike⟩
  · rw [he]
    exact leads_of_alike halike
  · rw [hr]
    unfold storingOf
    dsimp only
    rw [h.consistent.snapshot_upsert]
    exact leads_of_changed (Course.start.stored _ data options.overwrite)
      (h.consistent.upsert _ _ _ _) halike

theorem Sound.leads_undo (h : s.Sound) (key : String) (label : Option String) :
    s.Leads (s.storingOf (s.undo w key label).result) (s.undo w key label).store := by
  rcases undo_cases (s := s) (w := w) key label with ⟨-, he, halike⟩ | ⟨fields, -, hset⟩
  · rw [he]
    exact leads_of_alike halike
  · rw [hset]
    exact h.leads_set (some key) fields ⟨false, true⟩

theorem Sound.leads_delete (h : s.Sound) (target : Target) (options : DeleteOptions) :
    s.Leads [] (s.delete w target options).store := by
  rcases delete_cases (w := w) h.consistent h.usable target options with
    ⟨e, -, he, halike⟩ | ⟨r, c, -, hremoval, hr, halike⟩
  · exact leads_of_alike halike
  · exact leads_of_changed (Course.start.removed hremoval) (h.consistent.removal hremoval).1 halike

theorem Sound.leads_declareIndex (h : s.Sound) (fields : List String) :
    s.Leads [] (s.declareIndex w fields).store := by
  rcases h.declareIndex_cases (w := w) fields with ⟨-, -, halike⟩ | ⟨_, c, hc, -, halike⟩
  · exact leads_of_alike halike
  · obtain ⟨hconsistent, ⟨f, hf, hslots⟩, hversions, -⟩ := h.consistent.declareIndex hc
    have hentries : c.entries = s.contents.entries := by
      rw [Contents.entries_eq_map_snapshots, Contents.declareIndex_entries hf hslots,
        Contents.entries_eq_map_snapshots]
    unfold Leads
    rw [halike.contents]
    exact Course.start.arranged hconsistent hentries hversions

/-- A batch that replaces all records drops them first. -/
theorem Sound.course_batch (h : s.Sound) (keys : KeySupply) (kind : BatchKind)
    (items : List (Option String × Value)) (replace : Bool) {c : Contents}
    (hc : ((s.batchBase replace).itemsApplied s.config.versioning
      (s.preparedAll keys kind items).1).reindex = .ok c) :
    Course s.config.versioning s.contents (s.batchStorings keys kind items replace) c := by
  have hbase : Course s.config.versioning s.contents [] (s.batchBase replace) := by
    cases replace with
    | true => exact Course.start.dropped h.consistent.clear (Or.inl rfl)
    | false => exact .start
  exact hbase.trans ((consistent_batchBase h.consistent replace).course_reindexed hc)

theorem Sound.leads_batchDetailed (h : s.Sound) (kind : BatchKind) (items : List Value)
    (replace : Bool) :
    s.Leads (s.batchStorings w.keys kind (items.map fun item => (none, item)) replace)
      (s.batchDetailed w kind items replace).store := by
  obtain ⟨c, hc, -, halike⟩ := batchKeyed_spec (w := w) h.consistent h.usable kind
    (items.map fun item => (none, item)) replace
  exact leads_of_changed (h.course_batch w.keys kind _ replace hc)
    (h.applied_reindexed replace _ hc).1 halike

theorem Sound.leads_load (h : s.Sound) (payload : Value) :
    s.Leads (s.storings w (.load payload)) (s.load w payload).store := by
  rcases load_cases (w := w) h.consistent h.usable payload with
    ⟨e, he, halike⟩ | ⟨keys, c, ⟨items, hitems, hc⟩, hresult, halike⟩
  · unfold Store.storings
    dsimp only
    rw [he]
    exact leads_of_alike halike
  · unfold Store.storings
    dsimp only
    rw [hresult, hitems]
    exact leads_of_changed (h.course_batch w.keys .set items true hc)
      (h.applied_reindexed true _ hc).1 halike

theorem Sound.leads_restore (h : s.Sound) : s.Leads [] (s.restore w).store := by
  rcases restore_cases (w := w) h.usable with ⟨-, halike⟩ | ⟨_, _, c, -, -, hc, -, halike⟩
  · exact leads_of_alike halike
  · have hconsistent := (unpacked_consistent hc).1.withRevision s.revision
    have hversions : c.versions = .empty s.config.versionLimit := versions_unpacked hc
    exact leads_of_changed (Course.start.dropped hconsistent (Or.inr ⟨_, hversions⟩)) hconsistent
      halike

/-- The contents of a store of its own take a course with the storings of the operation. -/
theorem Sound.leads_perform (h : s.Sound) (hlocal : s.remote.isSome = false) (w : World)
    (operation : Operation) :
    s.Leads (s.storings w operation) (s.perform w operation).store := by
  have hread := h.contents_of_isRead w operation
  cases operation with
  | set given data options => exact h.leads_set given data options
  | undo key label => exact h.leads_undo key label
  | delete target options => exact h.leads_delete target options
  | clear =>
    have halike : (s.changed s.contents.clear false .cleared none).Alike s.clear := Alike.refl _
    exact leads_of_changed (Course.start.dropped h.consistent.clear (Or.inl rfl))
      h.consistent.clear halike
  | batch kind items replace =>
    have hdetailed := h.leads_batchDetailed (w := w) kind items replace
    unfold Leads at hdetailed
    rw [← (batch_alike s w kind items replace).contents] at hdetailed
    exact hdetailed
  | batchDetailed kind items replace => exact h.leads_batchDetailed kind items replace
  | load payload => exact h.leads_load payload
  | sync =>
    rcases sync_cases (w := w) h.consistent h.usable with
      ⟨-, -, halike⟩ | ⟨_, _, _, _, hremote, -, -, -, -⟩
    · exact leads_of_alike halike
    · rw [hremote] at hlocal
      exact Bool.noConfusion hlocal
  | restore => exact h.leads_restore
  | declareIndex fields => exact h.leads_declareIndex fields
  | reindex =>
    obtain ⟨c, hc, -, halike⟩ := reindex_spec (w := w) h.consistent h.usable
    obtain ⟨hconsistent, -, -, hentries⟩ := h.consistent.of_reindex hc
    exact leads_of_changed
      (Course.start.arranged hconsistent hentries (Contents.versions_reindex hc)) hconsistent halike
  | _ =>
    unfold Leads
    rw [hread rfl]
    exact .start

/-- The contents of a store of its own take a course with the storings of all operations. -/
theorem Sound.leads_after (h : s.Sound) (hlocal : s.remote.isSome = false)
    (steps : List (World × Operation)) : s.Leads (s.storingsIn steps) (s.after steps) := by
  induction steps generalizing s with
  | nil => exact .start
  | cons step rest ih =>
    obtain ⟨w, operation⟩ := step
    have hrest := ih (h.perform w operation) ((h.perform_remote w operation).trans hlocal)
    unfold Leads at hrest
    rw [h.perform_config] at hrest
    exact (h.leads_perform hlocal w operation).trans hrest

end Store
end IndexedStore
