import IndexedStore.Proofs.Batches
import IndexedStore.Proofs.Selection

/-!
Building the indexes anew as a normal form. Contents with the same records in the same order and
the same declared signatures come to the same slots, memberships and indexes, whatever has been
done to them before; contents without empty slots are in that form already. So a deletion that
closes its slot by moving the later records one by one ends where one that builds everything anew
does.
-/
namespace IndexedStore

namespace Catalog

variable {c c' : Catalog}

/-- The fields of an index are known from its signature. -/
theorem WellDeclared.fields_eq (h : c.WellDeclared) (h' : c'.WellDeclared) {k : String}
    {ix ix' : SecondaryIndex} (hix : SortedMap.get? c.secondary k = some ix)
    (hix' : SortedMap.get? c'.secondary k = some ix') : ix'.fields = ix.fields := by
  obtain ⟨hsignature, hcanonical⟩ := h.declared (k, ix) (SortedMap.mem_of_get? hix)
  obtain ⟨hsignature', hcanonical'⟩ := h'.declared (k, ix') (SortedMap.mem_of_get? hix')
  apply Bucket.signature_inj hcanonical'.ne_nil hcanonical.ne_nil
  · exact fun name hname => (hcanonical'.plain name hname).2
  · exact fun name hname => (hcanonical.plain name hname).2
  · exact hsignature'.symm.trans hsignature

/-- Declarations are determined by their signatures. -/
theorem WellDeclared.declared_eq (h : c.WellDeclared) (h' : c'.WellDeclared)
    (hsignatures : ∀ k, k ∈ c'.signatures ↔ k ∈ c.signatures) : c'.declared = c.declared := by
  apply SortedMap.ext_get? (SortedMap.sorted_map (fun _ ix => ix.fields) h'.sorted)
    (SortedMap.sorted_map (fun _ ix => ix.fields) h.sorted)
  intro k
  change SortedMap.get? c'.declared k = SortedMap.get? c.declared k
  rw [get?_declared, get?_declared]
  have hboth := hsignatures k
  unfold signatures at hboth
  rw [SortedMap.mem_names, SortedMap.mem_names] at hboth
  cases hix : SortedMap.get? c.secondary k with
  | none =>
    cases hix' : SortedMap.get? c'.secondary k with
    | none => rfl
    | some ix' => simp [hix, hix'] at hboth
  | some ix =>
    cases hix' : SortedMap.get? c'.secondary k with
    | none => simp [hix, hix'] at hboth
    | some ix' =>
      rw [Option.map_some, Option.map_some, h.fields_eq h' hix hix']

end Catalog

namespace Contents

variable {c c' d d' : Contents}

theorem Agrees.refl (c : Contents) : c.Agrees c := ⟨rfl, rfl, rfl⟩

theorem Agrees.symm (h : c.Agrees d) : d.Agrees c :=
  ⟨h.entries.symm, h.declared.symm, h.versions.symm⟩

theorem Agrees.trans (h : c.Agrees c') (h' : c'.Agrees d) : c.Agrees d :=
  ⟨h'.entries.trans h.entries, h'.declared.trans h.declared, h'.versions.trans h.versions⟩

/-- Contents without empty slots are equal when they agree and are at the same revision. -/
theorem Agrees.eq (h : c.Agrees d) (hc : c.Consistent) (hd : d.Consistent) (hholes : c.holes = 0)
    (hholes' : d.holes = 0) (hrevision : d.revision = c.revision) : d = c := by
  obtain ⟨hslots, hcatalog⟩ := hc.determined hd hholes hholes' h.entries h.declared
  have hversions := h.versions
  cases c
  cases d
  dsimp only at hslots hcatalog hversions hrevision hholes hholes'
  subst hslots hcatalog hversions hrevision hholes hholes'
  rfl

/-- A reindex keeps the records, the declarations and the versions. -/
theorem Consistent.agrees_reindex (h : c.Consistent) (hc : c.reindex = .ok c') : c.Agrees c' :=
  ⟨(h.of_reindex hc).2.2.2, declared_reindex hc, versions_reindex hc⟩

/-- What a reindex leads to is determined by the records and the declarations. -/
theorem Consistent.reindex_determined (h : c.Consistent) (h' : d.Consistent)
    (hentries : d.entries = c.entries) (hdeclared : d.declared = c.declared)
    (hc : c.reindex = .ok c') (hd : d.reindex = .ok d') :
    d'.slots = c'.slots ∧ d'.catalog = c'.catalog := by
  obtain ⟨hconsistent, -, hfilled, -⟩ := h.of_reindex hc
  obtain ⟨hconsistent', -, hfilled', -⟩ := h'.of_reindex hd
  have hagrees := h.agrees_reindex hc
  have hagrees' := h'.agrees_reindex hd
  apply hconsistent.determined hconsistent' hfilled hfilled'
  · rw [hagrees.entries, hagrees'.entries, hentries]
  · rw [hagrees.declared, hagrees'.declared, hdeclared]

/-- A reindex has nothing to do where no slot is empty. -/
theorem Consistent.reindex_of_filled (h : c.Consistent) (hholes : c.holes = 0)
    (hc : c.reindex = .ok c') : c' = c := by
  obtain ⟨hconsistent, hrevision, hfilled, -⟩ := h.of_reindex hc
  exact (h.agrees_reindex hc).eq h hconsistent hholes hfilled hrevision

/-- Closing the slot of a deleted record leads to the contents that building everything anew leads
to, at once if no other slot is empty, and else with a reindex. -/
theorem Consistent.closed_eq_rebuilt (h : c.Consistent) {r : Record} {closed rebuilt : Contents}
    (hclosed : c.Removal r ⟨false, false⟩ closed) (hrebuilt : c.Removal r ⟨false, true⟩ rebuilt) :
    (c.holes = 0 → closed = rebuilt) ∧
      ∀ c', closed.bump.reindex = .ok c' → c' = rebuilt.bump := by
  obtain ⟨hconsistent, hrevision, hholes⟩ := h.removal hclosed
  obtain ⟨hconsistent', hrevision', hholes'⟩ := h.removal hrebuilt
  have hagrees := (Agrees.refl c).removal h h rfl hclosed hrebuilt
  have hsame : closed.revision = rebuilt.revision := hrevision.trans hrevision'.symm
  constructor
  · exact fun hfilled =>
      hagrees.symm.eq hconsistent' hconsistent hholes' (hholes.trans hfilled) hsame
  · intro c' hc
    obtain ⟨hconsistentNew, hrevisionNew, hfilled, -⟩ := hconsistent.bump.of_reindex hc
    have hagreesBump : rebuilt.bump.Agrees closed.bump :=
      ⟨hagrees.entries.symm, hagrees.declared.symm, hagrees.versions.symm⟩
    exact (hagreesBump.trans (hconsistent.bump.agrees_reindex hc)).eq hconsistent'.bump
      hconsistentNew hholes' hfilled (hrevisionNew.trans (congrArg (· + 1) hsame))

end Contents

namespace Store

variable {s s' : Store} {w : World}

/-! ### Deleting in two ways -/

/-- Whether slots are closed one by one or all is built anew has no part in the answer. -/
theorem Sound.delete_result (h : s.Sound) (target : Target) (batch reindex reindex' : Bool) :
    (s.delete w target ⟨batch, reindex⟩).result = (s.delete w target ⟨batch, reindex'⟩).result := by
  unfold delete
  rw [usable_eq h.usable, usable_eq h.usable, tracked_result, tracked_result]
  cases hfound : s.contents.find? target with
  | none => rfl
  | some r =>
    dsimp only
    generalize hsent : (if batch = true then (⟨.ok (), s, w⟩ : Outcome Unit)
      else s.remotely w fun remote client now => remote.delete client now r.key) = sent
    have hcontents : sent.store.contents = s.contents := by
      rw [← hsent]
      split_ifs
      · rfl
      · exact (remotely_alike s _ _).contents
    cases hresult : sent.result with
    | error e => rfl
    | ok _ =>
      obtain ⟨p, hp⟩ := Contents.recordAt?_of_find? hfound
      rw [← hcontents] at hp
      obtain ⟨_, -, hdone, -⟩ := deleteLocally_cases (hcontents ▸ h.consistent) hp ⟨batch, reindex⟩
      obtain ⟨_, -, hdone', -⟩ :=
        deleteLocally_cases (hcontents ▸ h.consistent) hp ⟨batch, reindex'⟩
      exact hdone.trans hdone'.symm

/-- Both ways of deleting are refused and leave the store alone, or delete the same record. -/
theorem Sound.delete_both_cases (h : s.Sound) (target : Target) :
    (∃ e, (s.delete w target ⟨false, false⟩).result = .error e ∧
      s.Alike (s.delete w target ⟨false, false⟩).store ∧
      s.Alike (s.delete w target ⟨false, true⟩).store) ∨
    ∃ r closed rebuilt, (s.delete w target ⟨false, false⟩).result = .ok r.snapshot ∧
      s.contents.find? target = some r ∧
      s.contents.Removal r ⟨false, false⟩ closed ∧ s.contents.Removal r ⟨false, true⟩ rebuilt ∧
      (s.changed closed false .deleted (some r.key)).Alike
        (s.delete w target ⟨false, false⟩).store ∧
      (s.changed rebuilt false .deleted (some r.key)).Alike
        (s.delete w target ⟨false, true⟩).store := by
  have hsame := h.delete_result (w := w) target false false true
  rcases delete_cases (w := w) h.consistent h.usable target ⟨false, false⟩ with
    ⟨e, -, he, halike⟩ | ⟨r, closed, hr, hclosed, hdone, halike⟩
  · rcases delete_cases (w := w) h.consistent h.usable target ⟨false, true⟩ with
      ⟨-, -, -, halike'⟩ | ⟨_, _, -, -, hdone', -⟩
    · exact Or.inl ⟨e, he, halike, halike'⟩
    · exact absurd (he.symm.trans (hsame.trans hdone')) (by simp)
  · rcases delete_cases (w := w) h.consistent h.usable target ⟨false, true⟩ with
      ⟨e, -, he, -⟩ | ⟨r', rebuilt, hr', hrebuilt, -, halike'⟩
    · exact absurd (hdone.symm.trans (hsame.trans he)) (by simp)
    · obtain rfl := Option.some.inj (hr.symm.trans hr')
      exact Or.inr ⟨r, closed, rebuilt, hdone, hr, hclosed, hrebuilt, halike, halike'⟩

theorem Alike.symm (h : s.Alike s') : s'.Alike s :=
  ⟨h.config.symm, h.contents.symm, h.views.symm, h.feed.symm, h.poisoned.symm, h.remote.symm⟩

/-- After any operations, deleting a record with its slot and moving the later records one by one
answers as deleting with everything built anew does, whatever the remote side says. If no slot is
empty both leave the same store but for its counts, and otherwise a reindex after the first leads
to the contents of the second. A store on its own deletes every record that a target finds, and
every record can be found. -/
theorem closed_after_operations (hs : s.Fresh) (steps : List (World × Operation)) (w : World)
    (target : Target) :
    let t := s.after steps
    let closed := t.delete w target ⟨false, false⟩
    let rebuilt := t.delete w target ⟨false, true⟩
    (∀ r ∈ t.contents.live, t.contents.find? (.key r.key) = some r ∧
      t.contents.find? (.position r.position) = some r) ∧
    (∀ r, t.contents.find? target = some r → t.remote = none → closed.result = .ok r.snapshot) ∧
    closed.result = rebuilt.result ∧
    (t.contents.holes = 0 → closed.store.Alike rebuilt.store) ∧
    ∀ r, closed.result = .ok r → ∀ w', (closed.store.reindex w').result = .ok () ∧
      (closed.store.reindex w').store.contents = rebuilt.store.contents.bump := by
  intro t closed rebuilt
  have hsound : t.Sound := hs.sound.1.after steps
  have hconsistent := hsound.consistent
  refine ⟨fun r hr => ?_, fun r hr hlocal => ?_, hsound.delete_result target _ _ _, ?_⟩
  · have hat := Contents.slotAt_position hconsistent hr
    exact ⟨hconsistent.record?_of_recordAt? hat, by
      unfold Contents.find? Contents.resolve?
      dsimp only
      rw [Contents.recordAt?_eq, hat, Option.map_some, Option.bind_some, hat]⟩
  · rcases delete_cases (w := w) hconsistent hsound.usable target ⟨false, false⟩ with
      ⟨e, hnone | hremote, -, -⟩ | ⟨r', _, hr', -, hdone, -⟩
    · exact absurd (hnone.symm.trans hr) (by simp)
    · rw [hlocal] at hremote
      exact absurd hremote (by simp)
    · obtain rfl := Option.some.inj (hr.symm.trans hr')
      exact hdone
  · rcases hsound.delete_both_cases (w := w) target with
      ⟨e, he, halike, halike'⟩ | ⟨r, c, d, -, -, hclosed, hrebuilt, halike, halike'⟩
    · exact ⟨fun _ => halike.symm.trans halike', fun r hr =>
        absurd (he.symm.trans hr) (by simp)⟩
    · obtain ⟨hequal, hreindexed⟩ := hconsistent.closed_eq_rebuilt hclosed hrebuilt
      refine ⟨fun hholes => ?_, fun _ _ w' => ?_⟩
      · rw [← hequal hholes] at halike'
        exact halike.symm.trans halike'
      · have hsoundClosed : closed.store.Sound := hsound.perform w (.delete target ⟨false, false⟩)
        obtain ⟨c', hc', hdone, hstore⟩ :=
          reindex_spec (w := w') hsoundClosed.consistent hsoundClosed.usable
        rw [halike.contents, changed_contents] at hc'
        refine ⟨hdone, ?_⟩
        rw [hstore.contents, changed_contents, hreindexed c' hc', halike'.contents,
          changed_contents]

def threeStored : List (World × Operation) :=
  [(.bare, .declareIndex ["city"]),
    (.bare, .set (some "a") [("city", .text "Oslo")] ⟨false, false⟩),
    (.bare, .set (some "b") [("city", .text "Rome")] ⟨false, false⟩),
    (.bare, .set (some "c") [("city", .text "Oslo")] ⟨false, false⟩)]

def middleEmptied : List (World × Operation) :=
  threeStored ++ [(.bare, .delete (.key "b") ⟨true, false⟩)]

/-- The first record is deleted, with all slots filled and with an empty one. -/
theorem closed_after_threeStored :
    let t := plain.after threeStored
    let u := plain.after middleEmptied
    let closed (s : Store) := (s.delete .bare (.token "a") ⟨false, false⟩).store
    let rebuilt (s : Store) := (s.delete .bare (.token "a") ⟨false, true⟩).store
    plain.Fresh ∧ t.contents.holes = 0 ∧ (closed t).contents = (rebuilt t).contents ∧
      (rebuilt t).contents.catalog.lookup "city" "Oslo" = [1] ∧
      u.contents.holes = 1 ∧ (closed u).contents.catalog.lookup "city" "Oslo" = [1] ∧
      (rebuilt u).contents.catalog.lookup "city" "Oslo" = [0] ∧
      ((closed u).reindex .bare).store.contents = (rebuilt u).contents.bump := by
  intro t u closed rebuilt
  obtain ⟨-, -, -, halike, -⟩ :=
    closed_after_operations plain_fresh threeStored .bare (.token "a")
  obtain ⟨hfound, hdone, -, -, hreindexed⟩ :=
    closed_after_operations plain_fresh middleEmptied .bare (.token "a")
  obtain ⟨-, hcontents⟩ := hreindexed _ (hdone _ rfl rfl) .bare
  exact ⟨plain_fresh, rfl, (halike rfl).contents.symm, by decide +kernel, rfl, by decide +kernel,
    by decide +kernel, hcontents⟩

/-! ### Reindexing -/

/-- The contents after a reindex. -/
theorem Sound.reindexed (h : s.Sound) (w : World) :
    ∃ c, s.contents.reindex = .ok c ∧ (s.reindex w).result = .ok () ∧
      (s.reindex w).store.contents = c.bump := by
  obtain ⟨c, hc, hdone, halike⟩ := reindex_spec (w := w) h.consistent h.usable
  exact ⟨c, hc, hdone, by rw [halike.contents, changed_contents]⟩

/-- After any operations of any two stores, a reindex keeps the records in their order, their
versions and the declarations, and files the records at the positions of their places. Where no
slot is empty it changes neither slots nor indexes, so a second one changes nothing. Where both
stores hold the same records in the same order and have the same signatures declared, it leads to
the same slots, memberships and indexes. -/
theorem normal_after_operations (hs : s.Fresh) (hs' : s'.Fresh)
    (steps steps' : List (World × Operation)) (w w' : World) :
    let t := s.after steps
    let t' := s'.after steps'
    let normal := (t.reindex w).store
    let normal' := (t'.reindex w').store
    ((t.reindex w).result = .ok () ∧ normal.contents.entries = t.contents.entries ∧
      normal.contents.versions = t.contents.versions ∧
      normal.contents.declared = t.contents.declared ∧
      normal.contents.slots = t.contents.entries.mapIdx fun position e =>
        some (Contents.filedAt t.contents.declared position e)) ∧
    (t.contents.holes = 0 → normal.contents.slots = t.contents.slots ∧
      normal.contents.catalog = t.contents.catalog) ∧
    ((normal.reindex w').store.contents.slots = normal.contents.slots ∧
      (normal.reindex w').store.contents.catalog = normal.contents.catalog) ∧
    (t'.contents.entries = t.contents.entries →
      (∀ k, k ∈ t'.contents.catalog.signatures ↔ k ∈ t.contents.catalog.signatures) →
      normal'.contents.slots = normal.contents.slots ∧
        normal'.contents.catalog = normal.contents.catalog) := by
  intro t t' normal normal'
  have hsound : t.Sound := hs.sound.1.after steps
  have hsound' : t'.Sound := hs'.sound.1.after steps'
  have hsoundNormal : normal.Sound := hsound.perform w .reindex
  obtain ⟨c, hc, hdone, hcontents⟩ := hsound.reindexed w
  obtain ⟨d, hd, -, hcontents'⟩ := hsound'.reindexed w'
  obtain ⟨e, he, -, hcontentsAgain⟩ := hsoundNormal.reindexed w'
  obtain ⟨hconsistent, -, hfilled, -⟩ := hsound.consistent.of_reindex hc
  have hagrees := hsound.consistent.agrees_reindex hc
  have hslots := hconsistent.slots_eq hfilled
  rw [hagrees.entries, hagrees.declared] at hslots
  have hnormal : normal.contents = c.bump := hcontents
  have hnormal' : normal'.contents = d.bump := hcontents'
  rw [hnormal] at he
  have hagain := hconsistent.bump.reindex_of_filled hfilled he
  rw [hcontentsAgain, hnormal, hnormal', hagain]
  refine ⟨⟨hdone, hagrees.entries, hagrees.versions, hagrees.declared, hslots⟩,
    fun hholes => ?_, ⟨rfl, rfl⟩, fun hentries hsignatures => ?_⟩
  · rw [← hsound.consistent.reindex_of_filled hholes hc]
    exact ⟨rfl, rfl⟩
  · have hdeclared := hsound.consistent.reflects.files.declared.declared_eq
      hsound'.consistent.reflects.files.declared hsignatures
    obtain ⟨hslots, hcatalog⟩ := hsound.consistent.reindex_determined hsound'.consistent
      hentries hdeclared hc hd
    exact ⟨hslots, hcatalog⟩

def declaredLate : List (World × Operation) :=
  [(.bare, .set (some "a") [("city", .text "Rome")] ⟨false, false⟩),
    (.bare, .set (some "c") [("city", .text "Oslo")] ⟨true, false⟩),
    (.bare, .set (some "a") [("city", .text "Oslo")] ⟨false, true⟩),
    (.bare, .declareIndex ["city"])]

/-- Two ways to the same records, one of which leaves an empty slot. -/
theorem normal_after_declaredLate :
    let t := plain.after middleEmptied
    let t' := plain.after declaredLate
    let normal (s : Store) := (s.reindex .bare).store.contents
    plain.Fresh ∧ t.contents.holes = 1 ∧ t'.contents.holes = 0 ∧
      t'.contents.entries = t.contents.entries ∧
      (∀ k, k ∈ t'.contents.catalog.signatures ↔ k ∈ t.contents.catalog.signatures) ∧
      (normal t').slots = (normal t).slots ∧ (normal t').catalog = (normal t).catalog ∧
      (normal t').catalog = t'.contents.catalog ∧
      t.contents.catalog.lookup "city" "Oslo" = [0, 2] ∧
      t'.contents.catalog.lookup "city" "Oslo" = [0, 1] := by
  intro t t' normal
  have hentries : t'.contents.entries = t.contents.entries := rfl
  have hsignatures : t'.contents.catalog.signatures = t.contents.catalog.signatures := rfl
  have hmem : ∀ k, k ∈ t'.contents.catalog.signatures ↔ k ∈ t.contents.catalog.signatures :=
    fun k => by rw [hsignatures]
  obtain ⟨-, -, -, hsame⟩ :=
    normal_after_operations plain_fresh plain_fresh middleEmptied declaredLate .bare .bare
  obtain ⟨-, hkept, -⟩ :=
    normal_after_operations plain_fresh plain_fresh declaredLate middleEmptied .bare .bare
  obtain ⟨hslots, hcatalog⟩ := hsame hentries hmem
  exact ⟨plain_fresh, rfl, rfl, hentries, hmem, hslots, hcatalog, (hkept rfl).2,
    by decide +kernel, by decide +kernel⟩

end Store
end IndexedStore
