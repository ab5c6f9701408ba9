import IndexedStore.Proofs.VersionChanges

/-!
The labels of earlier versions over whole runs. All operations but one go on counting labels,
clearing and loading included. Restoring starts the count again, so what is recorded after it gets
the labels over again that were given before it.
-/
namespace IndexedStore.Store

variable {s : Store}

/-! ### Runs -/

def changesAfter (s : Store) : List (World × Operation) → List Versions.Change
  | [] => []
  | (w, operation) :: rest =>
    s.versionChanges w operation ++ (s.perform w operation).store.changesAfter rest

def recordings (s : Store) (steps : List (World × Operation)) : List Recording :=
  s.contents.versions.recordings 0 (s.changesAfter steps)

theorem Sound.after_versions (h : s.Sound) (steps : List (World × Operation)) :
    (s.after steps).contents.versions = s.contents.versions.after (s.changesAfter steps) := by
  induction steps generalizing s with
  | nil => rfl
  | cons step rest ih =>
    obtain ⟨w, operation⟩ := step
    rw [changesAfter, Versions.after_append, ← h.perform_versions]
    exact ih (h.perform w operation)

theorem renewals_changesAfter (s : Store) (steps : List (World × Operation)) :
    Versions.renewals (s.changesAfter steps) = s.restores steps := by
  induction steps generalizing s with
  | nil => rfl
  | cons step rest ih =>
    rw [changesAfter, Versions.renewals_append, renewals_versionChanges, ih, restores]

theorem changesAfter_append (s : Store) (before later : List (World × Operation)) :
    s.changesAfter (before ++ later) =
      s.changesAfter before ++ (s.after before).changesAfter later := by
  induction before generalizing s with
  | nil => rfl
  | cons step rest ih =>
    rw [List.cons_append, changesAfter, ih, changesAfter, List.append_assoc, after]

theorem restores_append (s : Store) (before later : List (World × Operation)) :
    s.restores (before ++ later) = s.restores before + (s.after before).restores later := by
  rw [← renewals_changesAfter, changesAfter_append, Versions.renewals_append,
    renewals_changesAfter, renewals_changesAfter]

theorem mem_recordings_append {r : Recording} {before : List (World × Operation)}
    (h : r ∈ s.recordings before) (later : List (World × Operation)) :
    r ∈ s.recordings (before ++ later) := by
  unfold recordings
  rw [changesAfter_append, Versions.recordings_append]
  exact List.mem_append_left _ h

theorem Fresh.versions_eq (h : s.Fresh) : s.contents.versions = .empty s.config.versionLimit := by
  obtain ⟨config, remote, w, hbuild⟩ := h.exists_build
  obtain ⟨c, hc, rfl, rfl, -⟩ := build_cases hbuild
  obtain ⟨-, -, hversions, -⟩ :=
    (Contents.consistent_empty s.config.versionLimit).declareIndexes hc
  exact hversions

/-- What a store keeps under a label was recorded since it was last restored. -/
theorem Fresh.recorded_of_get? (h : s.Fresh) {steps : List (World × Operation)}
    {key label : String} {fields : Fields}
    (hget : (s.after steps).contents.versions.get? key label = some fields) :
    ⟨s.restores steps, label, key, fields⟩ ∈ s.recordings steps := by
  rw [h.sound.1.after_versions] at hget
  have hmem := Versions.mem_recordings_of_get? 0 hget
  rw [renewals_changesAfter, Nat.zero_add, h.versions_eq] at hmem
  unfold recordings
  rw [h.versions_eq]
  rcases hmem with hmem | ⟨-, hkept⟩
  · exact hmem
  · exact absurd ((Versions.get?_empty _ key label).symm.trans hkept) (by simp)

theorem Fresh.sound_versions (h : s.Fresh) (steps : List (World × Operation)) :
    (s.after steps).contents.versions.Sound := by
  rw [h.sound.1.after_versions, h.versions_eq]
  exact (Versions.Sound.empty _).after _

/-! ### What labels stand for -/

/-- A label of a record stands for fields: they are kept under it, and an undo goes back to
them. -/
structure Denotes (s : Store) (key label : String) (fields : Fields) : Prop where
  kept : s.contents.versions.get? key label = some fields
  undone : ∀ w, s.undo w key (some label) = s.set w (some key) fields ⟨false, true⟩

def Forgets (s : Store) (key label : String) : Prop :=
  ∀ w, (s.undo w key (some label)).result = .error (.noPreviousVersion key)

theorem denotes_of_get? {key label : String} {fields : Fields}
    (h : s.contents.versions.get? key label = some fields) : s.Denotes key label fields := by
  refine ⟨h, fun w => ?_⟩
  have hfields : s.undoFields? key (some label) = some fields := h
  unfold undo
  rw [hfields]

theorem forgets_of_get? {key label : String} (h : s.contents.versions.get? key label = none) :
    s.Forgets key label := by
  intro w
  have hfields : s.undoFields? key (some label) = none := h
  unfold undo
  rw [hfields]
  rfl

/-- The labels of a run are all different, and a label that was read at any time stands at the
end for what it stood for then, or for nothing. -/
structure LabelsLast (s : Store) (steps : List (World × Operation)) : Prop where
  distinct : ((s.recordings steps).map Recording.label).Nodup
  lasting : ∀ before later, steps = before ++ later →
    ∀ key, ∀ label ∈ (s.after before).labels key, ∃ fields,
      (s.after before).Denotes key label fields ∧
        ((s.after steps).Denotes key label fields ∨ (s.after steps).Forgets key label)

/-- A label that was read stands for a version recorded since the last restore. Afterwards it
stands for that version or for none, unless the store has been restored and another version was
recorded under it. -/
theorem Fresh.label_cases (h : s.Fresh) {before : List (World × Operation)}
    {key label : String} (hlabel : label ∈ (s.after before).labels key)
    (later : List (World × Operation)) :
    ∃ fields, (s.after before).Denotes key label fields ∧
      ⟨s.restores before, label, key, fields⟩ ∈ s.recordings before ∧
      ((s.after (before ++ later)).Denotes key label fields ∨
        (s.after (before ++ later)).Forgets key label ∨
        s.restores before < s.restores (before ++ later) ∧ ∃ other,
          (s.after (before ++ later)).Denotes key label other ∧
          ⟨s.restores (before ++ later), label, key, other⟩ ∈ s.recordings (before ++ later)) := by
  obtain ⟨fields, hget⟩ := (h.sound_versions before).exists_of_mem_labels hlabel
  refine ⟨fields, denotes_of_get? hget, h.recorded_of_get? hget, ?_⟩
  cases hfound : (s.after (before ++ later)).contents.versions.get? key label with
  | none => exact Or.inr (Or.inl (forgets_of_get? hfound))
  | some other =>
    have hrestores := s.restores_append before later
    by_cases hnone : (s.after before).restores later = 0
    · left
      have hlast := hfound
      rw [after_append, (h.sound.1.after before).after_versions] at hlast
      obtain rfl := (h.sound_versions before).get?_after
        ((renewals_changesAfter _ _).trans hnone) hget hlast
      exact denotes_of_get? hfound
    · exact Or.inr (Or.inr ⟨by omega, other, denotes_of_get? hfound, h.recorded_of_get? hfound⟩)

/-- Labels are counted on by all operations but a restore that finds something, which starts the
count again. So no label is given twice between two restores; and over a whole run, labels are all
different and go on standing for the same version exactly if no versions were recorded on both
sides of a restore, above all if there was none. -/
theorem labels_after_operations (hs : s.Fresh) (steps : List (World × Operation)) :
    (s.LabelsLast steps ↔
      ∀ r ∈ s.recordings steps, ∀ r' ∈ s.recordings steps, r.era = r'.era) ∧
    (s.restores steps = 0 → s.LabelsLast steps) ∧
    ((s.recordings steps).map fun r => (r.era, r.label)).Nodup ∧
    ∀ before later, steps = before ++ later →
      ∀ key, ∀ label ∈ (s.after before).labels key, ∃ fields,
        (s.after before).Denotes key label fields ∧
        ⟨s.restores before, label, key, fields⟩ ∈ s.recordings before ∧
        ((s.after steps).Denotes key label fields ∨ (s.after steps).Forgets key label ∨
          s.restores before < s.restores steps ∧ ∃ other,
            (s.after steps).Denotes key label other ∧
            ⟨s.restores steps, label, key, other⟩ ∈ s.recordings steps) := by
  have hnext : s.contents.versions.next = 0 := by rw [hs.versions_eq]; rfl
  have hexact : s.LabelsLast steps ↔
      ∀ r ∈ s.recordings steps, ∀ r' ∈ s.recordings steps, r.era = r'.era := by
    constructor
    · intro hlast
      exact (Versions.nodup_labels_iff hnext).mp hlast.distinct
    · intro hera
      refine ⟨(Versions.nodup_labels_iff hnext).mpr hera, ?_⟩
      rintro before later rfl key label hlabel
      obtain ⟨fields, hthen, hbefore, hkept | hgone | ⟨hlt, other, -, hnow⟩⟩ :=
        hs.label_cases hlabel later
      · exact ⟨fields, hthen, Or.inl hkept⟩
      · exact ⟨fields, hthen, Or.inr hgone⟩
      · have hsame := hera _ (mem_recordings_append hbefore later) _ hnow
        exact absurd hsame (Nat.ne_of_lt hlt)
  refine ⟨hexact, fun hnone => hexact.mpr fun r hr r' hr' => ?_,
    Versions.nodup_recordings _ 0 _, ?_⟩
  · have hbound := (Versions.era_of_mem hr).2
    have hbound' := (Versions.era_of_mem hr').2
    rw [renewals_changesAfter, hnone] at hbound hbound'
    omega
  · rintro before later rfl key label hlabel
    exact hs.label_cases hlabel later

def storedAgain : List (World × Operation) :=
  [(.bare, .set (some "r") [("x", .text "1")] ⟨false, false⟩),
    (.bare, .set (some "r") [("x", .text "2")] ⟨false, false⟩),
    (.bare, .delete (.key "r") ⟨false, false⟩),
    (.bare, .set (some "r") [("x", .text "3")] ⟨false, false⟩),
    (.bare, .set (some "r") [("x", .text "4")] ⟨false, false⟩)]

theorem labels_after_storedAgain :
    plain.Fresh ∧ plain.restores storedAgain = 0 ∧ plain.LabelsLast storedAgain ∧
      (plain.recordings storedAgain).map Recording.label = ["v0", "v1"] := by
  have hnone : plain.restores storedAgain = 0 := rfl
  obtain ⟨-, hlast, -, -⟩ := labels_after_operations plain_fresh storedAgain
  exact ⟨plain_fresh, hnone, hlast hnone, rfl⟩

def changedTwice : List (World × Operation) :=
  [(.bare, .set (some "r") [("x", .text "1")] ⟨false, false⟩),
    (.bare, .set (some "r") [("x", .text "2")] ⟨false, false⟩),
    ((plain.save .bare).world, .restore),
    (.bare, .set (some "r") [("x", .text "3")] ⟨false, false⟩),
    (.bare, .set (some "r") [("x", .text "4")] ⟨false, false⟩)]

/-- The label that was read before the store was restored has come to stand for other fields. -/
theorem labels_repeat_changedTwice :
    let before := plain.after (changedTwice.take 2)
    let last := plain.after changedTwice
    let undone := (last.undo .bare "r" (some "v0")).result.toOption
    "v0" ∈ before.labels "r" ∧ before.Denotes "r" "v0" [("x", .text "1")] ∧
      undone.map (fun r => (Fields.value r.fields "x").keyText) = some "3" ∧
      ¬ plain.LabelsLast changedTwice := by
  intro before last undone
  have hlabel : "v0" ∈ before.labels "r" := by decide +kernel
  have hkept : before.contents.versions.get? "r" "v0" = some [("x", .text "1")] := rfl
  have hundone : undone.map (fun r => (Fields.value r.fields "x").keyText) = some "3" := by
    decide +kernel
  refine ⟨hlabel, denotes_of_get? hkept, hundone, fun hlast => ?_⟩
  obtain ⟨fields, hthen, hnow | hgone⟩ := hlast.lasting (changedTwice.take 2) (changedTwice.drop 2)
    (List.take_append_drop 2 changedTwice).symm "r" "v0" hlabel
  · obtain rfl : [("x", .text "1")] = fields := Option.some.inj (hkept.symm.trans hthen.kept)
    have hfound : (last.contents.versions.get? "r" "v0").map
        (fun fields => (Fields.value fields "x").keyText) = some "3" := by decide +kernel
    rw [hnow.kept] at hfound
    exact absurd hfound (by decide)
  · have hnone : undone = none := congrArg Except.toOption (hgone .bare)
    rw [hnone] at hundone
    exact absurd hundone (by simp)

end IndexedStore.Store
