import IndexedStore.Proofs.Restoring

/-!
Exactness over whole runs. After any operations the slots, the indexes, the memberships and the
counts of a store agree; and slots are empty only because of deletions within a batch of the
caller's own, until an operation builds the slots anew. Once an index is declared it stays declared
until a store that was saved is restored, and those of the settings stay declared even then.
-/
namespace IndexedStore

/-- Whether slots may be empty after an operation with a result, given whether they could be
before. -/
def Operation.gapsAfter (before : Bool) (result : Except StoreError Answer) : Operation → Bool
  | .delete _ options =>
    match result with
    | .ok _ => options.batch || (!options.reindex && before)
    | .error _ => before
  | .reindex => false
  | .clear => false
  | .batch _ _ _ => false
  | .batchDetailed _ _ _ => false
  | .load _ | .sync =>
    match result with
    | .ok _ => false
    | .error _ => before
  | .restore =>
    match result with
    | .ok (.flag found) => !found && before
    | _ => before
  | _ => before

namespace Store

variable {s s' : Store} {w : World}

def gapsAfter (s : Store) (before : Bool) : List (World × Operation) → Bool
  | [] => before
  | (w, operation) :: rest =>
    let o := s.perform w operation
    o.store.gapsAfter (operation.gapsAfter before o.result) rest

theorem holes_of_alike (halike : s.Alike s') : s'.contents.holes = s.contents.holes := by
  rw [halike.contents]

theorem holes_of_changed {c : Contents} {quiet : Bool} {kind : EventKind} {key : Option String}
    (halike : (s.changed c quiet kind key).Alike s') : s'.contents.holes = c.holes := by
  rw [halike.contents, changed_contents]
  rfl

theorem set_holes (hs : s.poisoned = false) (key : Option String) (data : Fields)
    (options : SetOptions) :
    (s.set w key data options).store.contents.holes = s.contents.holes := by
  rcases set_cases (w := w) hs key data options with ⟨-, -, -, halike⟩ | ⟨_, rfl, -, halike⟩
  · exact holes_of_alike halike
  · rw [holes_of_changed halike, Contents.upsert_holes]

theorem Sound.delete_holes (h : s.Sound) (target : Target) (options : DeleteOptions) :
    (∃ e, (s.delete w target options).result = .error e ∧
      (s.delete w target options).store.contents.holes = s.contents.holes) ∨
    ∃ r, (s.delete w target options).result = .ok r ∧
      (s.delete w target options).store.contents.holes =
        if options.batch then s.contents.holes + 1
        else if options.reindex then 0 else s.contents.holes := by
  rcases delete_cases (w := w) h.consistent h.usable target options with
    ⟨e, -, he, halike⟩ | ⟨r, c, -, hremoval, hr, halike⟩
  · exact Or.inl ⟨e, he, holes_of_alike halike⟩
  · obtain ⟨-, -, hholes⟩ := h.consistent.removal hremoval
    exact Or.inr ⟨_, hr, (holes_of_changed halike).trans hholes⟩

theorem Sound.batchDetailed_holes (h : s.Sound) (kind : BatchKind) (items : List Value)
    (replace : Bool) : (s.batchDetailed w kind items replace).store.contents.holes = 0 := by
  obtain ⟨c, hc, -, halike⟩ := batchKeyed_spec (w := w) h.consistent h.usable kind
    (items.map fun item => (none, item)) replace
  rw [batchDetailed, holes_of_changed halike]
  exact (h.applied_reindexed replace _ hc).2.2.1

theorem Sound.declareIndex_holes (h : s.Sound) (fields : List String) :
    (s.declareIndex w fields).store.contents.holes = s.contents.holes := by
  rcases h.declareIndex_cases (w := w) fields with ⟨-, -, halike⟩ | ⟨_, c, hc, -, halike⟩
  · exact holes_of_alike halike
  · exact (holes_of_alike halike).trans (h.consistent.declareIndex hc).2.2.2.2

theorem undo_holes (hs : s.poisoned = false) (key : String) (label : Option String) :
    (s.undo w key label).store.contents.holes = s.contents.holes := by
  rcases undo_cases (s := s) (w := w) key label with ⟨-, -, halike⟩ | ⟨fields, -, hset⟩
  · exact holes_of_alike halike
  · rw [hset]
    exact set_holes hs _ _ _

theorem Sound.load_holes (h : s.Sound) (payload : Value) :
    (∃ e, (s.load w payload).result = .error e ∧
      (s.load w payload).store.contents.holes = s.contents.holes) ∨
    (s.load w payload).store.contents.holes = 0 := by
  rcases load_cases (w := w) h.consistent h.usable payload with
    ⟨e, he, halike⟩ | ⟨_, c, ⟨_, -, hc⟩, -, halike⟩
  · exact Or.inl ⟨e, he, holes_of_alike halike⟩
  · exact Or.inr ((holes_of_changed halike).trans (h.applied_reindexed true _ hc).2.2.1)

theorem Sound.sync_holes (h : s.Sound) :
    (∃ e, (s.sync w).result = .error e ∧
      (s.sync w).store.contents.holes = s.contents.holes) ∨
    (s.sync w).store.contents.holes = 0 := by
  rcases sync_cases (w := w) h.consistent h.usable with
    ⟨e, he, halike⟩ | ⟨_, _, _, c, -, -, ⟨_, -, hc⟩, -, halike⟩
  · exact Or.inl ⟨e, he, holes_of_alike halike⟩
  · exact Or.inr ((holes_of_changed halike).trans (h.applied_reindexed true _ hc).2.2.1)

theorem restore_holes (hs : s.poisoned = false) :
    ((∀ found, (s.restore w).result = .ok found → found = false) ∧
      (s.restore w).store.contents.holes = s.contents.holes) ∨
    (s.restore w).store.contents.holes = 0 := by
  rcases restore_cases (w := w) hs with ⟨hfound, halike⟩ | ⟨_, _, c, -, -, hc, -, halike⟩
  · exact Or.inl ⟨hfound, holes_of_alike halike⟩
  · exact Or.inr ((holes_of_changed halike).trans (unpacked_consistent hc).2)

/-- No operation makes a gap that it is not said to make. -/
theorem Sound.perform_holes (h : s.Sound) (w : World) (operation : Operation) (before : Bool)
    (hbefore : before = false → s.contents.holes = 0)
    (hafter : operation.gapsAfter before (s.perform w operation).result = false) :
    (s.perform w operation).store.contents.holes = 0 := by
  have hread := h.contents_of_isRead w operation
  cases operation with
  | declareIndex fields => exact (h.declareIndex_holes fields).trans (hbefore hafter)
  | set key data options => exact (set_holes h.usable key data options).trans (hbefore hafter)
  | undo key label => exact (undo_holes h.usable key label).trans (hbefore hafter)
  | delete target options =>
    rcases h.delete_holes (w := w) target options with ⟨e, he, hholes⟩ | ⟨r, hr, hholes⟩
    · rw [show (s.perform w (.delete target options)).result = .error e from
        congrArg (Except.map _) he] at hafter
      exact hholes.trans (hbefore hafter)
    · rw [show (s.perform w (.delete target options)).result = .ok (.snapshot r)
        from congrArg (Except.map _) hr] at hafter
      obtain ⟨hbatch, hreindex⟩ := Bool.or_eq_false_iff.mp hafter
      rw [Bool.and_eq_false_iff, Bool.not_eq_false'] at hreindex
      refine hholes.trans ?_
      rw [hbatch, if_neg Bool.false_ne_true]
      split_ifs with hrebuilt
      · rfl
      · exact hbefore (hreindex.resolve_left hrebuilt)
  | reindex =>
    obtain ⟨c, hc, -, halike⟩ := reindex_spec (w := w) h.consistent h.usable
    exact (holes_of_changed halike).trans (h.consistent.of_reindex hc).2.2.1
  | clear => rfl
  | batch kind items replace =>
    exact (holes_of_alike (batch_alike s w kind items replace)).trans
      (h.batchDetailed_holes kind items replace)
  | batchDetailed kind items replace => exact h.batchDetailed_holes kind items replace
  | load payload =>
    rcases h.load_holes (w := w) payload with ⟨e, he, hholes⟩ | hholes
    · rw [show (s.perform w (.load payload)).result = .error e from
        congrArg (Except.map _) he] at hafter
      exact hholes.trans (hbefore hafter)
    · exact hholes
  | sync =>
    rcases h.sync_holes (w := w) with ⟨e, he, hholes⟩ | hholes
    · rw [show (s.perform w .sync).result = .error e from
        congrArg (Except.map _) he] at hafter
      exact hholes.trans (hbefore hafter)
    · exact hholes
  | restore =>
    rcases restore_holes (w := w) h.usable with ⟨hfound, hholes⟩ | hholes
    · refine hholes.trans (hbefore ?_)
      cases hresult : (s.restore w).result with
      | error e =>
        rw [show (s.perform w .restore).result = .error e from
          congrArg (Except.map _) hresult] at hafter
        exact hafter
      | ok found =>
        obtain rfl := hfound found hresult
        rw [show (s.perform w .restore).result = .ok (.flag false) from
          congrArg (Except.map _) hresult] at hafter
        exact hafter
    · exact hholes
  | _ => exact (congrArg Contents.holes (hread rfl)).trans (hbefore hafter)

theorem Sound.after_holes (h : s.Sound) (steps : List (World × Operation)) (before : Bool)
    (hbefore : before = false → s.contents.holes = 0)
    (hafter : s.gapsAfter before steps = false) : (s.after steps).contents.holes = 0 := by
  induction steps generalizing s before with
  | nil => exact hbefore hafter
  | cons step rest ih =>
    obtain ⟨w, operation⟩ := step
    exact ih (h.perform w operation) _
      (fun hgaps => h.perform_holes w operation before hbefore hgaps) hafter

end Store

/-! ### Declared indexes -/

def Operation.restored (result : Except StoreError Answer) : Operation → Nat
  | .restore =>
    match result with
    | .ok (.flag true) => 1
    | _ => 0
  | _ => 0

def Operation.declared (result : Except StoreError Answer) : Operation → List String
  | .declareIndex _ =>
    match result with
    | .ok (.name signature) => [signature]
    | _ => []
  | _ => []

namespace Store

variable {s s' : Store} {w : World}

def restores (s : Store) : List (World × Operation) → Nat
  | [] => 0
  | (w, operation) :: rest =>
    let o := s.perform w operation
    operation.restored o.result + o.store.restores rest

def declaredIn (s : Store) : List (World × Operation) → List String
  | [] => []
  | (w, operation) :: rest =>
    let o := s.perform w operation
    operation.declared o.result ++ o.store.declaredIn rest

def signatures (s : Store) : List String := s.contents.catalog.signatures

theorem signatures_of_alike (halike : s.Alike s') : s'.signatures = s.signatures := by
  unfold signatures
  rw [halike.contents]

theorem signatures_of_changed {c : Contents} {quiet : Bool} {kind : EventKind}
    {key : Option String} (hdeclared : c.declared = s.contents.declared)
    (halike : (s.changed c quiet kind key).Alike s') : s'.signatures = s.signatures := by
  unfold signatures
  rw [halike.contents, changed_contents]
  exact Contents.signatures_congr (c := s.contents) hdeclared

theorem Sound.set_signatures (h : s.Sound) (key : Option String) (data : Fields)
    (options : SetOptions) : (s.set w key data options).store.signatures = s.signatures := by
  rcases set_cases (w := w) h.usable key data options with ⟨-, -, -, halike⟩ | ⟨_, rfl, -, halike⟩
  · exact signatures_of_alike halike
  · exact signatures_of_changed (h.consistent.declared_upsert _ _ _ _) halike

theorem Sound.delete_signatures (h : s.Sound) (target : Target) (options : DeleteOptions) :
    (s.delete w target options).store.signatures = s.signatures := by
  rcases delete_cases (w := w) h.consistent h.usable target options with
    ⟨-, -, -, halike⟩ | ⟨r, c, -, hremoval, -, halike⟩
  · exact signatures_of_alike halike
  · exact signatures_of_changed (h.consistent.declared_removal hremoval).1 halike

theorem Sound.undo_signatures (h : s.Sound) (key : String) (label : Option String) :
    (s.undo w key label).store.signatures = s.signatures := by
  rcases undo_cases (s := s) (w := w) key label with ⟨-, -, halike⟩ | ⟨fields, -, hset⟩
  · exact signatures_of_alike halike
  · rw [hset]
    exact h.set_signatures (some key) fields ⟨false, true⟩

theorem Sound.declared_applied (h : s.Sound) (replace : Bool)
    (ready : List (Except StoreError BatchItem)) {c : Contents}
    (hc : ((s.batchBase replace).itemsApplied s.config.versioning ready).reindex = .ok c) :
    c.declared = s.contents.declared := by
  have hconsistent := consistent_batchBase h.consistent replace
  have hbase : (s.batchBase replace).declared = s.contents.declared := by
    cases replace with
    | true => exact Catalog.declared_clear s.contents.catalog
    | false => rfl
  rw [Contents.declared_reindex hc, hconsistent.declared_itemsApplied, hbase]

theorem Sound.batchDetailed_signatures (h : s.Sound) (kind : BatchKind) (items : List Value)
    (replace : Bool) : (s.batchDetailed w kind items replace).store.signatures = s.signatures := by
  obtain ⟨c, hc, -, halike⟩ := batchKeyed_spec (w := w) h.consistent h.usable kind
    (items.map fun item => (none, item)) replace
  exact signatures_of_changed (h.declared_applied replace _ hc) halike

theorem Sound.load_signatures (h : s.Sound) (payload : Value) :
    (s.load w payload).store.signatures = s.signatures := by
  rcases load_cases (w := w) h.consistent h.usable payload with
    ⟨-, -, halike⟩ | ⟨_, c, ⟨_, -, hc⟩, -, halike⟩
  · exact signatures_of_alike halike
  · exact signatures_of_changed (h.declared_applied true _ hc) halike

theorem Sound.sync_signatures (h : s.Sound) : (s.sync w).store.signatures = s.signatures := by
  rcases sync_cases (w := w) h.consistent h.usable with
    ⟨-, -, halike⟩ | ⟨_, _, _, c, -, -, ⟨_, -, hc⟩, -, halike⟩
  · exact signatures_of_alike halike
  · exact signatures_of_changed (h.declared_applied true _ hc) halike

theorem Sound.declareIndex_signatures (h : s.Sound) (fields : List String) (k : String) :
    k ∈ (s.declareIndex w fields).store.signatures ↔ k ∈ s.signatures ∨
      k ∈ Operation.declared ((s.declareIndex w fields).result.map .name)
        (.declareIndex fields) := by
  rcases h.declareIndex_cases (w := w) fields with
    ⟨e, he, halike⟩ | ⟨signature, c, hc, hresult, halike⟩
  · rw [signatures_of_alike halike, he]
    exact (or_iff_left List.not_mem_nil).symm
  · obtain ⟨found, hfound⟩ :=
      Option.isSome_iff_exists.mp (Contents.signature?_of_declareIndex hc)
    obtain ⟨c', hc', hsignatures⟩ :=
      Contents.declareIndex_of_signature? (c := s.contents) hfound
    obtain ⟨rfl, rfl⟩ := Prod.mk.inj (Except.ok.inj (hc.symm.trans hc'))
    have hafter : (s.declareIndex w fields).store.signatures = c.catalog.signatures :=
      signatures_of_alike (s := { s with contents := c }) halike
    rw [hafter, hsignatures, hresult, or_comm]
    exact or_congr Iff.rfl List.mem_singleton.symm

/-- Signatures stay declared until what was saved is restored, and only declaring adds to them. -/
theorem Sound.perform_signatures (h : s.Sound) (w : World) (operation : Operation)
    (hnone : operation.restored (s.perform w operation).result = 0) (k : String) :
    k ∈ (s.perform w operation).store.signatures ↔
      k ∈ s.signatures ∨ k ∈ operation.declared (s.perform w operation).result := by
  have hsame (heq : (s.perform w operation).store.signatures = s.signatures)
      (hdeclared : operation.declared (s.perform w operation).result = []) :
      k ∈ (s.perform w operation).store.signatures ↔
        k ∈ s.signatures ∨ k ∈ operation.declared (s.perform w operation).result := by
    rw [heq, hdeclared]
    exact (or_iff_left List.not_mem_nil).symm
  have hread := h.contents_of_isRead w operation
  cases operation with
  | declareIndex fields => exact h.declareIndex_signatures fields k
  | set key data options => exact hsame (h.set_signatures key data options) rfl
  | delete target options => exact hsame (h.delete_signatures target options) rfl
  | undo key label => exact hsame (h.undo_signatures key label) rfl
  | reindex =>
    obtain ⟨c, hc, -, halike⟩ := reindex_spec (w := w) h.consistent h.usable
    exact hsame (signatures_of_changed (Contents.declared_reindex hc) halike) rfl
  | clear =>
    exact hsame (Contents.signatures_congr (c := s.contents)
      (Catalog.declared_clear s.contents.catalog)) rfl
  | batch kind items replace =>
    exact hsame ((signatures_of_alike (batch_alike s w kind items replace)).trans
      (h.batchDetailed_signatures kind items replace)) rfl
  | batchDetailed kind items replace =>
    exact hsame (h.batchDetailed_signatures kind items replace) rfl
  | load payload => exact hsame (h.load_signatures payload) rfl
  | sync => exact hsame h.sync_signatures rfl
  | restore =>
    rcases restore_cases (w := w) h.usable with ⟨-, halike⟩ | ⟨_, _, _, -, -, -, hresult, -⟩
    · exact hsame (signatures_of_alike halike) rfl
    · rw [show (s.perform w .restore).result = .ok (.flag true) from
        congrArg (Except.map _) hresult] at hnone
      exact absurd hnone (by simp [Operation.restored])
  | _ => exact hsame (congrArg (fun c => c.catalog.signatures) (hread rfl)) rfl

theorem Sound.after_signatures (h : s.Sound) {steps : List (World × Operation)}
    (hnone : s.restores steps = 0) (k : String) :
    k ∈ (s.after steps).signatures ↔ k ∈ s.signatures ∨ k ∈ s.declaredIn steps := by
  induction steps generalizing s with
  | nil => exact (or_iff_left List.not_mem_nil).symm
  | cons step rest ih =>
    obtain ⟨w, operation⟩ := step
    obtain ⟨hfirst, hrest⟩ := Nat.add_eq_zero_iff.mp hnone
    refine (ih (h.perform w operation) hrest).trans ?_
    rw [h.perform_signatures w operation hfirst, declaredIn, List.mem_append, or_assoc]

/-- The indexes of the settings are declared at every moment. -/
theorem Sound.after_config_signatures (h : s.Sound) (steps : List (World × Operation))
    (hconfig : ∀ k ∈ s.config.signatures, k ∈ s.signatures) :
    ∀ k ∈ s.config.signatures, k ∈ (s.after steps).signatures := by
  induction steps generalizing s with
  | nil => exact hconfig
  | cons step rest ih =>
    obtain ⟨w, operation⟩ := step
    have hsettings := h.perform_config w operation
    rw [← hsettings]
    apply ih (h.perform w operation)
    rw [hsettings]
    by_cases hnone : operation.restored (s.perform w operation).result = 0
    · exact fun k hk => (h.perform_signatures w operation hnone k).mpr (Or.inl (hconfig k hk))
    · cases operation with
      | restore =>
        intro k hk
        rcases restore_cases (w := w) h.usable with
          ⟨-, halike⟩ | ⟨_, archive, c, -, -, hc, -, halike⟩
        · exact (signatures_of_alike halike).symm ▸ hconfig k hk
        · have hafter : (s.perform w .restore).store.signatures = c.catalog.signatures := by
            have hcontents := halike.contents
            rw [changed_contents] at hcontents
            exact congrArg (fun c => c.catalog.signatures) hcontents
          rw [hafter, mem_signatures_unpacked hc, List.filterMap_append]
          exact List.mem_append_left _ hk
      | _ => exact absurd rfl hnone

theorem Fresh.mem_signatures (h : s.Fresh) (k : String) :
    k ∈ s.signatures ↔ k ∈ s.config.signatures := by
  obtain ⟨config, remote, w, hbuild⟩ := h.exists_build
  obtain ⟨c, hc, rfl, rfl, -⟩ := build_cases hbuild
  obtain ⟨d, hd, hsignatures⟩ :=
    Contents.exists_declareIndexes (c := .empty s.config.versionLimit)
      (Contents.signature?_of_declareIndexes hc)
  obtain rfl := Except.ok.inj (hc.symm.trans hd)
  exact (hsignatures k).trans (or_iff_left List.not_mem_nil)

/-- The indexes of a store are exact after any operations from its making on, and its slots are
all filled unless a deletion within a batch of the caller's own has emptied one since they were
last built anew. The indexes of the settings are always declared, and what operations declare stays
declared until what was saved is restored. -/
theorem exact_after_operations (hs : s.Fresh) (steps : List (World × Operation)) :
    (s.after steps).contents.Exact ∧
      (s.gapsAfter false steps = false → (s.after steps).contents.holes = 0) ∧
      (∀ k ∈ s.config.signatures, k ∈ (s.after steps).signatures) ∧
      ∀ before later, steps = before ++ later → (s.after before).restores later = 0 →
        ∀ k, k ∈ (s.after steps).signatures ↔
          k ∈ (s.after before).signatures ∨ k ∈ (s.after before).declaredIn later := by
  obtain ⟨hsound, hholes, -⟩ := hs.sound
  refine ⟨(hsound.after steps).consistent.exact, hsound.after_holes steps false fun _ => hholes,
    hsound.after_config_signatures steps fun k hk => (hs.mem_signatures k).mpr hk, ?_⟩
  rintro before later rfl hnone k
  rw [after_append]
  exact (hsound.after before).after_signatures hnone k

def gapClosed : List (World × Operation) :=
  [(.bare, .set (some "a") [("city", .text "Oslo")] ⟨false, false⟩),
    (.bare, .declareIndex ["city"]),
    (.bare, .set (some "b") [("city", .text "Rome")] ⟨true, false⟩),
    (.bare, .delete (.token "a") ⟨true, false⟩), (.bare, .reindex)]

theorem exact_after_gapClosed :
    plain.Fresh ∧ plain.gapsAfter false gapClosed = false ∧ plain.restores gapClosed = 0 ∧
      (plain.after gapClosed).contents.Exact ∧ (plain.after gapClosed).contents.holes = 0 ∧
      "city" ∈ (plain.after gapClosed).signatures := by
  have hgaps : plain.gapsAfter false gapClosed = false := rfl
  have hnone : plain.restores gapClosed = 0 := rfl
  have hdeclared : plain.declaredIn gapClosed = ["city"] := by decide +kernel
  obtain ⟨hexact, hholes, -, hsignatures⟩ := exact_after_operations plain_fresh gapClosed
  refine ⟨plain_fresh, hgaps, hnone, hexact, hholes hgaps, ?_⟩
  apply (hsignatures [] gapClosed rfl hnone "city").mpr
  right
  exact hdeclared ▸ List.mem_singleton_self "city"

end Store
end IndexedStore
