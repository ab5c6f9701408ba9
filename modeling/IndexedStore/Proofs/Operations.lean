import IndexedStore.Proofs.Rebuilding
import IndexedStore.Store.Operation

/-!
What each operation of a store comes to. An operation either leaves everything but the counts
and the remote side as it was, or puts changed contents in place and moves the revision by one;
a change is told to subscribers and drops the sorted views, unless it is part of a batch of the
caller's own. Stores are usable here and their contents consistent.
-/
namespace IndexedStore

namespace Contents

inductive Removal (c : Contents) (r : Record) (options : DeleteOptions) : Contents → Prop where
  | hollowed {c' : Contents} : options.batch = true → c.hollow r.position = some (r, c') →
      Removal c r options c'
  | rebuilt {c' cut : Contents} : options.batch = false → options.reindex = true →
      c.cut r.position = some (r, cut) → cut.reindex = .ok c' → Removal c r options c'
  | closed {cut : Contents} : options.batch = false → options.reindex = false →
      c.cut r.position = some (r, cut) → Removal c r options (cut.compactFrom r.position)

variable {c : Contents}

theorem exists_hollow {p : Nat} {r : Record} (hr : c.recordAt? p = some r) :
    ∃ c', c.hollow p = some (r, c') := by
  unfold hollow
  rw [hr]
  exact ⟨_, rfl⟩

theorem exists_cut {p : Nat} {r : Record} (hr : c.recordAt? p = some r) :
    ∃ c', c.cut p = some (r, c') := by
  unfold cut
  rw [hr]
  exact ⟨_, rfl⟩

/-- A reindex succeeds as well while the positions behind a cut slot are not yet moved. -/
theorem Consistent.exists_reindex_cut (h : c.Consistent) {p : Nat} {r : Record}
    (hr : c.recordAt? p = some r) {cut : Contents} (hc : c.cut p = some (r, cut)) :
    ∃ c', cut.reindex = .ok c' ∧ c'.Consistent ∧ c'.holes = 0 ∧ c'.entries = cut.entries ∧
      c'.revision = cut.revision := by
  unfold Contents.cut at hc
  rw [hr] at hc
  obtain ⟨-, rfl⟩ := Prod.mk.inj (Option.some.inj hc)
  have hdeclared : ({ c with slots := c.slots.eraseIdx p }.forget r).catalog.WellDeclared :=
    (h.forget hr).files.declared
  have hkeys : ({ c with slots := c.slots.eraseIdx p }.forget r).keys.Nodup :=
    h.keys_nodup.sublist (((List.eraseIdx_sublist c.slots p).filterMap id).map _)
  obtain ⟨c', hc', hconsistent, hholes, hentries, -, -, hrevision⟩ :=
    Contents.exists_reindex hdeclared hkeys
  exact ⟨c', hc', hconsistent, hholes, hentries, hrevision⟩

theorem revision_hollow {p : Nat} {r : Record} {c' : Contents} (h : c.hollow p = some (r, c')) :
    c'.revision = c.revision ∧ c'.holes = c.holes + 1 := by
  unfold hollow at h
  obtain ⟨s, -, heq⟩ := Option.map_eq_some_iff.mp h
  obtain ⟨-, rfl⟩ := Prod.mk.inj heq
  exact ⟨rfl, rfl⟩

theorem revision_cut {p : Nat} {r : Record} {c' : Contents} (h : c.cut p = some (r, c')) :
    c'.revision = c.revision ∧ c'.holes = c.holes := by
  unfold cut at h
  obtain ⟨s, -, heq⟩ := Option.map_eq_some_iff.mp h
  obtain ⟨-, rfl⟩ := Prod.mk.inj heq
  exact ⟨rfl, rfl⟩

theorem recordAt?_of_cut {p : Nat} {r : Record} {c' : Contents} (h : c.cut p = some (r, c')) :
    c.recordAt? p = some r := by
  unfold cut at h
  obtain ⟨s, hs, heq⟩ := Option.map_eq_some_iff.mp h
  obtain ⟨rfl, -⟩ := Prod.mk.inj heq
  exact hs

/-- A deletion leaves consistent contents at the same revision. It closes all slots when it is
told to reindex, and only a deletion within a batch of the caller's own adds an empty one. -/
theorem Consistent.removal (h : c.Consistent) {r : Record} {options : DeleteOptions}
    {c' : Contents} (hc : c.Removal r options c') :
    c'.Consistent ∧ c'.revision = c.revision ∧
      c'.holes = if options.batch then c.holes + 1 else if options.reindex then 0 else c.holes := by
  cases hc with
  | hollowed hbatch hhollow =>
    obtain ⟨hrevision, hholes⟩ := revision_hollow hhollow
    rw [if_pos hbatch]
    exact ⟨h.hollow hhollow, hrevision, hholes⟩
  | rebuilt hbatch hreindex hcut hbuilt =>
    obtain ⟨d, hd, hconsistent, hholes, -, hrevision⟩ :=
      h.exists_reindex_cut (recordAt?_of_cut hcut) hcut
    obtain rfl := Except.ok.inj (hbuilt.symm.trans hd)
    rw [hbatch, hreindex]
    exact ⟨hconsistent, hrevision.trans (revision_cut hcut).1, hholes⟩
  | closed hbatch hreindex hcut =>
    rw [hbatch, hreindex]
    exact ⟨h.cut hcut, (revision_cut hcut).1, (revision_cut hcut).2⟩

theorem recordAt?_of_find? {target : Target} {r : Record} (hr : c.find? target = some r) :
    ∃ p, c.recordAt? p = some r := by
  unfold find? at hr
  obtain ⟨p, -, hp⟩ := Option.bind_eq_some_iff.mp hr
  exact ⟨p, hp⟩

def itemApplied (versioning : Bool) (c : Contents) : BatchItem → Contents
  | .store key data => (c.upsert key data false versioning).contents
  | .remove key => (((c.catalog.position? key).bind c.hollow).map Prod.snd).getD c

end Contents

namespace Store

/-- Stores that differ at most in their counts and in what they know of the remote side. -/
structure Alike (s s' : Store) : Prop where
  config : s'.config = s.config
  contents : s'.contents = s.contents
  views : s'.views = s.views
  feed : s'.feed = s.feed
  poisoned : s'.poisoned = s.poisoned
  remote : s'.remote.isSome = s.remote.isSome

/-- The store with changed contents; a quiet change is told to nobody. -/
def changed (s : Store) (c : Contents) (quiet : Bool) (kind : EventKind) (key : Option String) :
    Store :=
  if quiet then { s with contents := c.bump }
  else ({ s with contents := c }.announce kind key).dropViews

variable {α : Type} {s s' s'' : Store} {w : World}

theorem Alike.refl (s : Store) : s.Alike s := ⟨rfl, rfl, rfl, rfl, rfl, rfl⟩

theorem Alike.trans (h : s.Alike s') (h' : s'.Alike s'') : s.Alike s'' :=
  ⟨h'.config.trans h.config, h'.contents.trans h.contents, h'.views.trans h.views,
    h'.feed.trans h.feed, h'.poisoned.trans h.poisoned, h'.remote.trans h.remote⟩

theorem Alike.changed (h : s.Alike s') (c : Contents) (quiet : Bool) (kind : EventKind)
    (key : Option String) : (s.changed c quiet kind key).Alike (s'.changed c quiet kind key) := by
  unfold Store.changed
  cases quiet with
  | true => exact ⟨h.config, rfl, h.views, h.feed, h.poisoned, h.remote⟩
  | false =>
    have hfeed : (s'.feed.emit ⟨c.bump.revision, kind, key⟩) =
        s.feed.emit ⟨c.bump.revision, kind, key⟩ := by rw [h.feed]
    exact ⟨h.config, rfl, rfl, hfeed, h.poisoned, h.remote⟩

theorem tracked_alike (o : Outcome α) : o.store.Alike (tracked o).store := by
  unfold tracked
  cases o.result with
  | ok _ => exact Alike.refl _
  | error _ => exact ⟨rfl, rfl, rfl, rfl, rfl, rfl⟩

@[simp] theorem tracked_result (o : Outcome α) : (tracked o).result = o.result := by
  unfold tracked
  split <;> rfl

theorem usable_eq (hs : s.poisoned = false) (run : Outcome α) : s.usable w run = run := by
  unfold usable
  rw [hs]
  rfl

theorem remotely_alike (s : Store) (w : World)
    (exchange : Http.Collection → Http.Client → Nat → Http.Exchange Unit) :
    s.Alike (s.remotely w exchange).store := by
  unfold remotely
  cases hr : s.remote with
  | none => exact Alike.refl s
  | some remote => exact ⟨rfl, rfl, rfl, rfl, rfl, by rw [hr]; rfl⟩

/-- Only a store with a remote side can be refused anything by it. -/
theorem isSome_remote_of_error {e : StoreError}
    {exchange : Http.Collection → Http.Client → Nat → Http.Exchange Unit}
    (he : (s.remotely w exchange).result = .error e) : s.remote.isSome := by
  unfold remotely at he
  cases hr : s.remote with
  | none =>
    rw [hr] at he
    exact absurd he (by simp)
  | some remote => rfl

/-! ### Storing and deleting -/

theorem storeLocally_eq (s : Store) (key : String) (data : Fields) (options : SetOptions) :
    (s.storeLocally key data options).1 =
        (s.contents.upsert key data options.overwrite s.config.versioning).snapshot ∧
      (s.changed (s.contents.upsert key data options.overwrite s.config.versioning).contents
        options.batch (s.contents.upsert key data options.overwrite s.config.versioning).kind
        (some key)).Alike (s.storeLocally key data options).2 := by
  unfold storeLocally changed
  cases options.batch with
  | true => exact ⟨rfl, ⟨rfl, rfl, rfl, rfl, rfl, rfl⟩⟩
  | false => exact ⟨rfl, ⟨rfl, rfl, rfl, rfl, rfl, rfl⟩⟩

theorem deleted_alike (s : Store) (c : Contents) (stats : Stats) (key : String)
    (options : DeleteOptions) :
    (s.changed c options.batch .deleted (some key)).Alike
      ({ s with contents := c, stats := stats }.deleted key options) := by
  unfold deleted changed
  cases options.batch with
  | true => exact ⟨rfl, rfl, rfl, rfl, rfl, rfl⟩
  | false => exact ⟨rfl, rfl, rfl, rfl, rfl, rfl⟩

/-- Storing fields is refused by the remote side or done under the chosen key. -/
theorem set_cases (hs : s.poisoned = false) (given : Option String) (data : Fields)
    (options : SetOptions) :
    (∃ e, s.remote.isSome ∧ (s.set w given data options).result = .error e ∧
      s.Alike (s.set w given data options).store) ∨
    ∃ stored, stored = s.contents.upsert (s.chooseKey w.keys given data).1 data options.overwrite
        s.config.versioning ∧
      (s.set w given data options).result = .ok stored.snapshot ∧
      (s.changed stored.contents options.batch stored.kind
        (some (s.chooseKey w.keys given data).1)).Alike (s.set w given data options).store := by
  unfold set
  rw [usable_eq hs, tracked_result]
  dsimp only
  generalize hkey : (s.chooseKey w.keys given data).1 = key
  generalize hsent : (if options.batch = true then
    (⟨.ok (), s, { w with keys := (s.chooseKey w.keys given data).2 }⟩ : Outcome Unit)
    else s.remotely { w with keys := (s.chooseKey w.keys given data).2 }
      (s.remoteSet key data options.overwrite)) = sent
  have halike : s.Alike sent.store := by
    rw [← hsent]
    split_ifs
    · exact Alike.refl s
    · exact remotely_alike s _ _
  cases hresult : sent.result with
  | error e =>
    left
    have hremote : s.remote.isSome := by
      rw [← hsent] at hresult
      split_ifs at hresult
      exact isSome_remote_of_error hresult
    exact ⟨e, hremote, rfl, halike.trans (tracked_alike (⟨.error e, sent.store, sent.world⟩ :
      Outcome Snapshot))⟩
  | ok _ =>
    right
    obtain ⟨hsnapshot, hstore⟩ := storeLocally_eq sent.store key data options
    rw [halike.contents, halike.config] at hsnapshot hstore
    refine ⟨_, rfl, congrArg Except.ok hsnapshot, ?_⟩
    exact ((halike.changed _ _ _ _).trans hstore).trans (tracked_alike
      (⟨.ok _, _, sent.world⟩ : Outcome Snapshot))

/-- With consistent contents, a deletion of a record that is there succeeds. -/
theorem deleteLocally_cases (h : s.contents.Consistent) {p : Nat} {r : Record}
    (hr : s.contents.recordAt? p = some r) (options : DeleteOptions) :
    ∃ c, s.contents.Removal r options c ∧
      (s.deleteLocally r.key options).1 = .ok r.snapshot ∧
      (s.changed c options.batch .deleted (some r.key)).Alike
        (s.deleteLocally r.key options).2 := by
  obtain rfl := h.reflects.files.position p r hr
  unfold deleteLocally
  rw [h.reflects.keys.position?_eq hr]
  cases hbatch : options.batch with
  | true =>
    obtain ⟨c, hc⟩ := Contents.exists_hollow hr
    refine ⟨c, .hollowed hbatch hc, ?_⟩
    simp only [↓reduceIte, hc]
    exact ⟨trivial, hbatch ▸ deleted_alike s c s.stats r.key options⟩
  | false =>
    obtain ⟨cut, hcut⟩ := Contents.exists_cut hr
    simp only [Bool.false_eq_true, ↓reduceIte, hcut]
    cases hreindex : options.reindex with
    | true =>
      obtain ⟨c, hc, -⟩ := h.exists_reindex_cut hr hcut
      refine ⟨c, .rebuilt hbatch hreindex hcut hc, ?_⟩
      simp only [hc, ↓reduceIte]
      exact ⟨trivial, hbatch ▸ deleted_alike s c _ r.key options⟩
    | false =>
      refine ⟨_, .closed hbatch hreindex hcut, ?_⟩
      simp only [Bool.false_eq_true, ↓reduceIte]
      exact ⟨trivial, hbatch ▸ deleted_alike s _ s.stats r.key options⟩

/-- Deleting is refused, by the store or by the remote side, or takes out the record named. -/
theorem delete_cases (h : s.contents.Consistent) (hs : s.poisoned = false) (target : Target)
    (options : DeleteOptions) :
    (∃ e, (s.contents.find? target = none ∨ s.remote.isSome) ∧
      (s.delete w target options).result = .error e ∧
      s.Alike (s.delete w target options).store) ∨
    ∃ r c, s.contents.find? target = some r ∧ s.contents.Removal r options c ∧
      (s.delete w target options).result = .ok r.snapshot ∧
      (s.changed c options.batch .deleted (some r.key)).Alike
        (s.delete w target options).store := by
  unfold delete
  rw [usable_eq hs, tracked_result]
  cases hfound : s.contents.find? target with
  | none =>
    exact Or.inl ⟨_, Or.inl rfl, rfl, tracked_alike (⟨.error _, s, w⟩ : Outcome Snapshot)⟩
  | some r =>
    dsimp only
    generalize hsent : (if options.batch = true then (⟨.ok (), s, w⟩ : Outcome Unit)
      else s.remotely w fun remote client now => remote.delete client now r.key) = sent
    have halike : s.Alike sent.store := by
      rw [← hsent]
      split_ifs
      · exact Alike.refl s
      · exact remotely_alike s _ _
    cases hresult : sent.result with
    | error e =>
      left
      have hremote : s.remote.isSome := by
        rw [← hsent] at hresult
        split_ifs at hresult
        exact isSome_remote_of_error hresult
      exact ⟨e, Or.inr hremote, rfl, halike.trans (tracked_alike
        (⟨.error e, sent.store, sent.world⟩ : Outcome Snapshot))⟩
    | ok _ =>
      right
      obtain ⟨p, hp⟩ := Contents.recordAt?_of_find? hfound
      have hsame := halike.contents
      obtain ⟨c, hremoval, hdone, hstore⟩ := deleteLocally_cases (hsame ▸ h)
        (hsame ▸ hp : sent.store.contents.recordAt? p = some r) options
      refine ⟨r, c, rfl, hsame ▸ hremoval, hdone, ?_⟩
      exact ((halike.changed c _ _ _).trans hstore).trans (tracked_alike
        (⟨_, _, sent.world⟩ : Outcome Snapshot))

/-- An undo has nothing to go back to, or stores the earlier fields whole. -/
theorem undo_cases (key : String) (label : Option String) :
    (s.undoFields? key label = none ∧
      (s.undo w key label).result = .error (.noPreviousVersion key) ∧
      s.Alike (s.undo w key label).store) ∨
    ∃ fields, s.undoFields? key label = some fields ∧
      s.undo w key label = s.set w (some key) fields ⟨false, true⟩ := by
  unfold undo
  cases hfields : s.undoFields? key label with
  | none =>
    exact Or.inl ⟨rfl, rfl, tracked_alike (⟨.error _, s, w⟩ : Outcome Snapshot)⟩
  | some fields => exact Or.inr ⟨fields, rfl, rfl⟩

/-! ### Reindexing and dropping all records -/

theorem reindex_spec (h : s.contents.Consistent) (hs : s.poisoned = false) :
    ∃ c, s.contents.reindex = .ok c ∧ (s.reindex w).result = .ok () ∧
      (s.changed c false .reindexed none).Alike (s.reindex w).store := by
  obtain ⟨c, hc, -⟩ := h.exists_reindex
  refine ⟨c, hc, ?_⟩
  unfold reindex
  rw [usable_eq hs, hc]
  exact ⟨rfl, rfl, rfl, rfl, rfl, rfl, rfl⟩

end Store
end IndexedStore
