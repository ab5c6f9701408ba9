import IndexedStore.Proofs.Failures

/-!
A store is never given up. Whatever operations are performed, the keys of the records stay
different, so wherever the indexes are built anew the records can be filed, and no operation
answers that the store cannot be used any more.
-/
namespace IndexedStore

namespace Contents

variable {c c' : Contents}

/-- The indexes can be built anew from the records in the slots: each stands at its place, and no
two have the same key. -/
def Rebuilds (c : Contents) : Prop := ∃ catalog, (c.catalog.rebuild c.dense).1 = .ok catalog

theorem rebuilds_of_reindex (h : c.reindex = .ok c') : c.Rebuilds := by
  unfold reindex at h
  split at h
  · rename_i catalog records hbuilt
    exact ⟨catalog, by rw [hbuilt]⟩
  · exact absurd h (by simp)

theorem Consistent.rebuilds (h : c.Consistent) : c.Rebuilds := by
  obtain ⟨_, hc, -⟩ := h.exists_reindex
  exact rebuilds_of_reindex hc

/-- The records around one that was cut out can be filed as well. -/
theorem Consistent.rebuilds_cut (h : c.Consistent) {p : Nat} {r : Record}
    (hc : c.cut p = some (r, c')) : c'.Rebuilds := by
  obtain ⟨_, hbuilt, -⟩ := h.exists_reindex_cut (recordAt?_of_cut hc) hc
  exact rebuilds_of_reindex hbuilt

end Contents

namespace Store

variable {s : Store} {w : World} {e : StoreError}

/-- Whatever items a batch has applied, the records can be filed. -/
theorem Sound.rebuilds_applied (h : s.Sound) (replace : Bool)
    (ready : List (Except StoreError BatchItem)) :
    (({ s with contents := s.batchBase replace } : Store).appliedAll 0 ready).2.contents.Rebuilds
      := by
  have hbase := consistent_batchBase h.consistent replace
  rw [(appliedAll_alike { s with contents := s.batchBase replace } 0 ready).contents]
  exact (hbase.itemsApplied s.config.versioning ready).1.rebuilds

/-! ### Why operations fail -/

theorem findTarget_error {target : Target} (he : s.findTarget target = .error e) :
    e ≠ .poisoned := by
  unfold findTarget at he
  split at he
  · exact absurd he (by simp)
  · obtain rfl := Except.error.inj he
    exact StoreError.noConfusion

theorem mapM_findTarget_error {targets : List Target}
    (he : targets.mapM s.findTarget = .error e) : e ≠ .poisoned := by
  induction targets with
  | nil => exact absurd he (by simp [pure, Except.pure])
  | cons target rest ih =>
    rw [List.mapM_cons] at he
    cases hfirst : s.findTarget target with
    | error e' =>
      rw [hfirst] at he
      obtain rfl := Except.error.inj he
      exact findTarget_error hfirst
    | ok r =>
      rw [hfirst] at he
      cases hrest : rest.mapM s.findTarget with
      | error e' =>
        rw [hrest] at he
        obtain rfl := Except.error.inj he
        exact ih hrest
      | ok records =>
        rw [hrest] at he
        exact absurd he (by simp [bind, Except.bind, pure, Except.pure])

theorem mapError_storage {α : Type} {result : Except StorageError α}
    (he : result.mapError .storage = .error e) : e ≠ .poisoned := by
  cases result with
  | ok x => exact absurd he (by simp [Except.mapError])
  | error e' =>
    obtain rfl := Except.error.inj he
    exact StoreError.noConfusion

theorem selected_error {selector : Selector} (he : s.selected selector = .error e) :
    e ≠ .poisoned := by
  cases selector with
  | all => exact absurd he (by simp [selected])
  | range start count => exact absurd he (by simp [selected])
  | key key => exact findTarget_error (eq_error_of_map he)
  | position p => exact findTarget_error (eq_error_of_map he)
  | list targets => exact mapM_findTarget_error he

theorem record_error (hs : s.poisoned = false) {key : String}
    (he : (s.record w key).result = .error e) : e ≠ .poisoned := by
  have hresult := (get_alike (w := w) hs (.key key)).1
  unfold record at he
  dsimp only at he
  split at he
  · exact absurd he (by simp)
  · obtain rfl := Except.error.inj he
    exact StoreError.noConfusion
  · rename_i hfailed
    obtain rfl := Except.error.inj he
    exact selected_error (hresult.symm.trans hfailed)

theorem admitted_error {c : Contents} {q : Where} (he : c.admitted q = .error e) :
    e ≠ .poisoned := by
  unfold Contents.admitted at he
  split at he
  · obtain rfl := Except.error.inj he
    exact StoreError.noConfusion
  · split at he <;> exact absurd he (by simp)

theorem sorted_error {c : Contents} {order : SortOrder} {filter : Option Where}
    (he : c.sorted order filter = .error e) : e ≠ .poisoned := by
  have hfiltered : c.filtered filter = .error e := eq_error_of_map he
  cases filter with
  | none => exact absurd hfiltered (by simp [Contents.filtered])
  | some q => exact admitted_error hfiltered

theorem sort_error (hs : s.poisoned = false) {order : SortOrder} {filter : Option Where}
    {anew : Bool} (he : (s.sort w order filter anew).result = .error e) : e ≠ .poisoned := by
  rcases sort_cases (w := w) hs order filter anew with
    ⟨_, _, -, -, -, hresult, -⟩ | ⟨-, hresult, -⟩
  · exact absurd (hresult.symm.trans he) (by simp)
  · exact sorted_error (hresult.symm.trans he)

/-- Only items that fail make a batch fail. -/
theorem Sound.batch_error (h : s.Sound) {kind : BatchKind} {items : List Value} {replace : Bool}
    (he : (s.batch w kind items replace).result = .error e) : e ≠ .poisoned := by
  obtain ⟨_, -, hreport, -⟩ := batchKeyed_spec (w := w) h.consistent h.usable kind
    (items.map fun item => (none, item)) replace
  unfold batch at he
  dsimp only at he
  split at he
  · rename_i hfailed
    exact absurd (hreport.symm.trans hfailed) (by simp)
  · split_ifs at he
    · exact absurd (hreport.symm.trans he) (by simp)
    · rw [tracked_result] at he
      obtain rfl := Except.error.inj he
      exact StoreError.noConfusion

/-- No operation finds a usable store given up. -/
theorem Sound.perform_error (h : s.Sound) {operation : Operation}
    (he : (s.perform w operation).result = .error e) : e ≠ .poisoned := by
  cases hwhole : operation.isWhole with
  | true => exact (h.perform_leaves hwhole he).usable
  | false =>
    cases operation with
    | get selector =>
      exact selected_error ((get_alike h.usable selector).1.symm.trans (error_of_map he))
    | record key => exact record_error h.usable (error_of_map he)
    | reindex =>
      obtain ⟨_, -, hdone, -⟩ := reindex_spec (w := w) h.consistent h.usable
      exact absurd (hdone.symm.trans (error_of_map he)) (by simp)
    | select filter =>
      exact admitted_error ((select_spec h.usable filter).1.symm.trans (error_of_map he))
    | sort order filter anew => exact sort_error h.usable (error_of_map he)
    | batch kind items replace => exact h.batch_error (error_of_map he)
    | batchDetailed kind items replace =>
      obtain ⟨_, -, hreport, -⟩ := batchKeyed_spec (w := w) h.consistent h.usable kind
        (items.map fun item => (none, item)) replace
      exact absurd (hreport.symm.trans (error_of_map he)) (by simp)
    | save name =>
      cases name with
      | none => exact mapError_storage (error_of_map he)
      | some name => exact mapError_storage (error_of_map he)
    | purge => exact mapError_storage (error_of_map he)
    | declareIndex | set | delete | undo | load | sync | restore =>
      exact absurd hwhole (by simp [Operation.isWhole])
    | _ => exact absurd he (by simp [Store.perform])

/-! ### Reindexes after any operations -/

/-- After any operations from its making on, with any settings and any remote side, a store is
usable. The indexes can be built anew for a reindex, for a deletion that asks for it, whatever
record it has cut out, and for a batch or a load, whatever items were applied; and no operation
answers that the store was given up. -/
theorem usable_after_operations (hs : s.Fresh) (steps : List (World × Operation)) :
    let t := s.after steps
    t.poisoned = false ∧ t.contents.Rebuilds ∧
      (∀ p r cut, t.contents.cut p = some (r, cut) → cut.Rebuilds) ∧
      (∀ replace ready,
        (({ t with contents := t.batchBase replace } : Store).appliedAll 0
          ready).2.contents.Rebuilds) ∧
      ∀ w operation, (t.perform w operation).result ≠ .error .poisoned := by
  intro t
  have hsound : t.Sound := hs.sound.1.after steps
  refine ⟨hsound.usable, hsound.consistent.rebuilds, ?_, hsound.rebuilds_applied, ?_⟩
  · intro p r cut hcut
    exact hsound.consistent.rebuilds_cut hcut
  · intro w operation he
    exact hsound.perform_error he rfl

def keyRepeated : List (World × Operation) :=
  [(.bare, .set (some "a") [] ⟨true, false⟩), (.bare, .set (some "b") [] ⟨true, false⟩),
    (.bare, .delete (.key "a") ⟨true, false⟩), (.bare, .set (some "a") [] ⟨true, false⟩),
    (.bare, .batch .delete [.text "b", .text "b"] false)]

theorem usable_after_keyRepeated :
    plain.Fresh ∧ (plain.after keyRepeated).keys = ["a"] ∧
      ((plain.after keyRepeated).perform .bare .reindex).result ≠ .error .poisoned := by
  obtain ⟨-, -, -, -, hnever⟩ := usable_after_operations plain_fresh keyRepeated
  exact ⟨plain_fresh, by decide +kernel, hnever .bare .reindex⟩

end Store
end IndexedStore
