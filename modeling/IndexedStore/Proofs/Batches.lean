import IndexedStore.Proofs.Determined
import Mathlib.Data.List.ReduceOption

/-!
Batches against single calls. A batch makes its items ready first, leaves the slots of deleted
records empty while it runs and closes them all at its end; single calls find their keys and close
slots one by one. Item by item both hold the same records, and so they end in the same contents.
-/
namespace IndexedStore

namespace Contents

variable {c c' d d' : Contents}

/-- Contents with the same records, declarations and versions, whatever slots are empty. -/
structure Agrees (c d : Contents) : Prop where
  entries : d.entries = c.entries
  declared : d.declared = c.declared
  versions : d.versions = c.versions

/-- The fields under a key are those of its pair in the list. -/
theorem Consistent.fields?_eq (h : c.Consistent) (key : String) :
    (c.record? key).map (·.fields) = (c.entries.find? (·.1 == key)).map Prod.snd := by
  have hfound := congrArg (Option.map Snapshot.fields) (h.record?_snapshot key)
  rw [Option.map_map] at hfound
  rw [entries_eq_map_snapshots, List.find?_map, Option.map_map]
  exact hfound

theorem Agrees.fields? (h : c.Agrees d) (hc : c.Consistent) (hd : d.Consistent) (key : String) :
    (d.record? key).map (·.fields) = (c.record? key).map (·.fields) := by
  rw [hc.fields?_eq, hd.fields?_eq, h.entries]

theorem versions_upsert (c : Contents) (key : String) (data : Fields)
    (overwrite versioning : Bool) :
    (c.upsert key data overwrite versioning).contents.versions =
      match (c.record? key).map (·.fields) with
      | some fields => if versioning then (c.versions.add key fields).2 else c.versions
      | none => c.versions := by
  cases hr : c.record? key with
  | some r => rw [upsert_of_some hr, Option.map_some]
  | none => rw [upsert_of_none hr, Option.map_none]

theorem Agrees.upsert (h : c.Agrees d) (hc : c.Consistent) (hd : d.Consistent) (key : String)
    (data : Fields) (overwrite versioning : Bool) :
    (c.upsert key data overwrite versioning).contents.Agrees
      (d.upsert key data overwrite versioning).contents where
  entries := by rw [hc.entries_upsert, hd.entries_upsert, h.entries]
  declared := by rw [hc.declared_upsert, hd.declared_upsert, h.declared]
  versions := by rw [versions_upsert, versions_upsert, h.fields? hc hd, h.versions]

theorem Agrees.removal (h : c.Agrees d) (hc : c.Consistent) (hd : d.Consistent) {r r' : Record}
    {options options' : DeleteOptions} (hkey : r'.key = r.key) (hr : c.Removal r options c')
    (hr' : d.Removal r' options' d') : c'.Agrees d' := by
  obtain ⟨hdeclared, hversions⟩ := hc.declared_removal hr
  obtain ⟨hdeclared', hversions'⟩ := hd.declared_removal hr'
  constructor
  · rw [hc.entries_removal hr, hd.entries_removal hr', hkey, h.entries]
  · rw [hdeclared, hdeclared', h.declared]
  · rw [hversions, hversions', hkey, h.versions]

/-- Contents whose empty slots a reindex has closed, against contents that have none. -/
theorem Agrees.determined (h : c.Agrees d) (hc : c.Consistent) (hd : d.Consistent)
    (hholes : d.holes = 0) (hreindex : c.reindex = .ok c') :
    c'.slots = d.slots ∧ c'.catalog = d.catalog ∧ c'.versions = d.versions := by
  obtain ⟨hconsistent, -, hfilled, hentries⟩ := hc.of_reindex hreindex
  have hsame : c'.entries = d.entries := hentries.trans h.entries.symm
  have hdeclared : c'.declared = d.declared := (declared_reindex hreindex).trans h.declared.symm
  obtain ⟨hslots, hcatalog⟩ := hd.determined hconsistent hholes hfilled hsame hdeclared
  exact ⟨hslots, hcatalog, (versions_reindex hreindex).trans h.versions.symm⟩

theorem Consistent.snapshot_upsert (h : c.Consistent) (key : String) (data : Fields)
    (overwrite versioning : Bool) :
    (c.upsert key data overwrite versioning).snapshot.key = key := by
  unfold Contents.upsert
  cases hr : c.record? key with
  | some r => exact (h.record?_eq_some hr).2
  | none => rfl

/-- Emptying the slot of a key works exactly if there is a record with the key. -/
theorem Consistent.hollow_cases (h : c.Consistent) (key : String) :
    (c.record? key = none ∧ (c.catalog.position? key).bind c.hollow = none) ∨
      ∃ r c', c.record? key = some r ∧ r.key = key ∧
        (c.catalog.position? key).bind c.hollow = some (r, c') ∧
        c.Removal r ⟨true, false⟩ c' := by
  cases hr : c.record? key with
  | none =>
    rw [h.position?_eq_none hr]
    exact Or.inl ⟨rfl, rfl⟩
  | some r =>
    obtain ⟨hat, hkey⟩ := h.record?_eq_some hr
    obtain ⟨c', hc'⟩ := exists_hollow hat
    refine Or.inr ⟨r, c', rfl, hkey, ?_, .hollowed rfl hc'⟩
    rw [← hkey, h.reflects.keys.position?_eq hat, Option.bind_some, hc']

end Contents

namespace Store

variable {α : Type} {s t : Store} {w : World} {kind : BatchKind}

@[simp] theorem tracked_world (o : Outcome α) : (tracked o).world = o.world := by
  unfold tracked
  split <;> rfl

/-! ### Single calls of a store on its own -/

theorem remotely_of_none (h : s.remote = none)
    (exchange : Http.Collection → Http.Client → Nat → Http.Exchange Unit) :
    s.remotely w exchange = ⟨.ok (), s, w⟩ := by
  unfold remotely
  rw [h]

theorem set_world (hs : s.poisoned = false) (hlocal : s.remote = none) (given : Option String)
    (data : Fields) (options : SetOptions) :
    (s.set w given data options).world =
      { w with keys := (s.chooseKey w.keys given data).2 } := by
  unfold set
  rw [usable_eq hs, tracked_world]
  dsimp only
  rw [remotely_of_none hlocal, ite_self]

theorem delete_world (hs : s.poisoned = false) (hlocal : s.remote = none) (target : Target)
    (options : DeleteOptions) : (s.delete w target options).world = w := by
  unfold delete
  rw [usable_eq hs, tracked_world]
  cases s.contents.find? target with
  | none => rfl
  | some r =>
    dsimp only
    rw [remotely_of_none hlocal, ite_self]

/-- The call that does alone what a batch does for an item, if there is one: only an object can be
stored, and a null or an object that brings no key names no record to delete. -/
def single? (s : Store) (w : World) (kind : BatchKind) (item : Value) :
    Option (Outcome Snapshot) :=
  match kind, item with
  | .set, .map data => some (s.set w none data ⟨false, false⟩)
  | .set, _ => none
  | .delete, .map data => (s.keyOf? data).map fun key => s.delete w (.key key) ⟨false, false⟩
  | .delete, .null => none
  | .delete, other => some (s.delete w (.key other.keyText) ⟨false, false⟩)

def keyOfResult (o : Outcome Snapshot) : Option String := o.result.toOption.map (·.key)

def oneByOne (s : Store) (w : World) (kind : BatchKind) : List Value → List (Option String) × Store
  | [] => ([], s)
  | item :: rest =>
    match s.single? w kind item with
    | none =>
      let (keys, s) := s.oneByOne w kind rest
      (none :: keys, s)
    | some o =>
      let (keys, s) := o.store.oneByOne o.world kind rest
      (keyOfResult o :: keys, s)

/-! ### A batch beside single calls -/

/-- A store within a batch beside the store that single calls have led to. -/
structure Mirrors (s t : Store) : Prop where
  consistent : s.contents.Consistent
  sound : t.Sound
  alone : t.remote = none
  filled : t.contents.holes = 0
  config : t.config = s.config
  agrees : s.contents.Agrees t.contents

/-- What a batch does for an item that is ready, against a call: it succeeds under the same key or
fails as the call does. -/
structure Follows (s : Store) (item : BatchItem) (o : Outcome Snapshot) : Prop where
  key : keyOfResult o = (s.applied item).1.toOption
  mirrors : (s.applied item).2.Mirrors o.store

/-- Deleting in a batch works exactly if there is a record with the key. -/
theorem applied_remove_cases (h : s.contents.Consistent) (key : String) :
    (s.contents.record? key = none ∧
      s.applied (.remove key) = (.error (.recordNotFound key), s)) ∨
    ∃ r c, s.contents.record? key = some r ∧ r.key = key ∧
      s.applied (.remove key) =
        (.ok key, { s with contents := c, stats.deletes := s.stats.deletes + 1 }) ∧
      s.contents.Removal r ⟨true, false⟩ c := by
  unfold applied
  dsimp only
  rcases h.hollow_cases key with ⟨hnone, hhollow⟩ | ⟨r, c, hr, hkey, hhollow, hremoval⟩
  · rw [hhollow]
    exact Or.inl ⟨hnone, rfl⟩
  · rw [hhollow]
    exact Or.inr ⟨r, c, hr, hkey, rfl, hremoval⟩

theorem Mirrors.same (h : s.Mirrors t) {t' : Store} (halike : t.Alike t') : s.Mirrors t' := by
  have hremote := halike.remote
  rw [h.alone] at hremote
  refine ⟨h.consistent, h.sound.of_alike halike, ?_, ?_, halike.config.trans h.config, ?_⟩
  · exact Option.isNone_iff_eq_none.mp (by simpa using hremote)
  · rw [halike.contents]
    exact h.filled
  · rw [halike.contents]
    exact h.agrees

/-- A failure that is counted changes nothing that the batch goes on with. -/
theorem Mirrors.counted (h : s.Mirrors t) :
    ({ s with stats.errors := s.stats.errors + 1 } : Store).Mirrors t :=
  ⟨h.consistent, h.sound, h.alone, h.filled, h.config, h.agrees⟩

/-- Contents that come to agree, once the call has put its own in place and told of it. -/
theorem Mirrors.changed (h : s.Mirrors t) {s' t' : Store} {c : Contents} {kind : EventKind}
    {key : Option String} (hconsistent : s'.contents.Consistent) (hconfig : s'.config = s.config)
    (hc : c.Consistent) (hholes : c.holes = 0) (hagrees : s'.contents.Agrees c)
    (halike : (t.changed c false kind key).Alike t') : s'.Mirrors t' := by
  have hput : s'.Mirrors (t.changed c false kind key) :=
    ⟨hconsistent, ⟨hc.bump, h.sound.usable⟩, h.alone, hholes, h.config.trans hconfig.symm,
      ⟨hagrees.entries, hagrees.declared, hagrees.versions⟩⟩
  exact hput.same halike

theorem Mirrors.set (h : s.Mirrors t) (data : Fields) :
    s.Follows (.store (t.chooseKey w.keys none data).1 data)
      (t.set w none data ⟨false, false⟩) := by
  rcases set_cases (w := w) h.sound.usable none data ⟨false, false⟩ with
    ⟨-, hremote, -⟩ | ⟨stored, rfl, hresult, halike⟩
  · rw [h.alone] at hremote
    exact absurd hremote (by simp)
  · constructor
    · unfold keyOfResult
      rw [hresult]
      exact congrArg some (h.sound.consistent.snapshot_upsert _ _ _ _)
    · rw [h.config] at halike
      have hholes := Contents.upsert_holes t.contents (t.chooseKey w.keys none data).1 data false
        s.config.versioning
      refine h.changed ?_ rfl (h.sound.consistent.upsert _ _ _ _) (hholes.trans h.filled) ?_ halike
      · exact h.consistent.upsert _ _ _ _
      · exact h.agrees.upsert h.consistent h.sound.consistent _ _ _ _

theorem Mirrors.delete (h : s.Mirrors t) (key : String) :
    s.Follows (.remove key) (t.delete w (.key key) ⟨false, false⟩) := by
  have hfields := h.agrees.fields? h.consistent h.sound.consistent key
  rcases delete_cases (w := w) h.sound.consistent h.sound.usable (.key key) ⟨false, false⟩ with
    ⟨e, hmissing | hremote, hresult, halike⟩ | ⟨r', d, hfound, hremoval', hresult, halike⟩
  · have hnone : s.contents.record? key = none := by
      change t.contents.record? key = none at hmissing
      rw [hmissing, Option.map_none, eq_comm, Option.map_eq_none_iff] at hfields
      exact hfields
    rcases applied_remove_cases h.consistent key with ⟨-, happlied⟩ | ⟨r, -, hr, -⟩
    · constructor
      · rw [happlied]
        unfold keyOfResult
        rw [hresult]
        rfl
      · rw [happlied]
        exact h.same halike
    · exact absurd (hr.symm.trans hnone) (by simp)
  · rw [h.alone] at hremote
    exact absurd hremote (by simp)
  · change t.contents.record? key = some r' at hfound
    have hkey' := (h.sound.consistent.record?_eq_some hfound).2
    rcases applied_remove_cases h.consistent key with
      ⟨hnone, -⟩ | ⟨r, c, -, hkey, happlied, hremoval⟩
    · rw [hfound, hnone] at hfields
      exact absurd hfields (by simp)
    · obtain ⟨hconsistent, -, -⟩ := h.consistent.removal hremoval
      obtain ⟨hconsistent', -, hholes'⟩ := h.sound.consistent.removal hremoval'
      have hagrees := h.agrees.removal h.consistent h.sound.consistent (hkey'.trans hkey.symm)
        hremoval hremoval'
      constructor
      · rw [happlied]
        unfold keyOfResult
        rw [hresult]
        exact congrArg some hkey'
      · rw [happlied]
        exact h.changed hconsistent rfl hconsistent' (hholes'.trans h.filled) hagrees halike

/-- An item that cannot be made ready has no call, and one that is ready follows its call; the
next key that is made up is the same. -/
theorem Mirrors.single (h : s.Mirrors t) (w : World) (kind : BatchKind) (item : Value) :
    (∃ e, t.prepared w.keys kind none item = (.error e, w.keys) ∧ t.single? w kind item = none) ∨
      ∃ ready keys o, t.prepared w.keys kind none item = (.ok ready, keys) ∧
        t.single? w kind item = some o ∧ s.Follows ready o ∧ o.world.keys = keys := by
  have hdelete : ∀ key, s.Follows (.remove key) (t.delete w (.key key) ⟨false, false⟩) ∧
      (t.delete w (.key key) ⟨false, false⟩).world.keys = w.keys := fun key =>
    ⟨h.delete key, by rw [delete_world h.sound.usable h.alone]⟩
  cases kind with
  | set =>
    cases item with
    | map data =>
      refine Or.inr ⟨_, (t.chooseKey w.keys none data).2, _, rfl, rfl, h.set data, ?_⟩
      rw [set_world h.sound.usable h.alone]
    | _ => exact Or.inl ⟨_, rfl, rfl⟩
  | delete =>
    cases item with
    | null => exact Or.inl ⟨_, rfl, rfl⟩
    | map data =>
      unfold prepared single?
      dsimp only
      rw [Option.none_or]
      cases t.keyOf? data with
      | none => exact Or.inl ⟨_, rfl, rfl⟩
      | some key => exact Or.inr ⟨_, _, _, rfl, rfl, hdelete key⟩
    | _ => exact Or.inr ⟨_, _, _, rfl, rfl, hdelete _⟩

def missed (keys : List (Option String)) (place : Nat) : List Nat :=
  ((keys.zipIdx place).filter (·.1.isNone)).map Prod.snd

theorem missed_none (keys : List (Option String)) (place : Nat) :
    missed (none :: keys) place = place :: missed keys (place + 1) := by
  unfold missed
  rw [List.zipIdx_cons, List.filter_cons_of_pos rfl, List.map_cons]

theorem missed_some (key : String) (keys : List (Option String)) (place : Nat) :
    missed (some key :: keys) place = missed keys (place + 1) := by
  unfold missed
  rw [List.zipIdx_cons, List.filter_cons_of_neg (by simp)]

theorem oneByOne_of_none {item : Value} (h : s.single? w kind item = none) (rest : List Value) :
    s.oneByOne w kind (item :: rest) =
      (none :: (s.oneByOne w kind rest).1, (s.oneByOne w kind rest).2) := by
  rw [oneByOne, h]

theorem oneByOne_of_some {item : Value} {o : Outcome Snapshot}
    (h : s.single? w kind item = some o) (rest : List Value) :
    s.oneByOne w kind (item :: rest) =
      (keyOfResult o :: (o.store.oneByOne o.world kind rest).1,
        (o.store.oneByOne o.world kind rest).2) := by
  rw [oneByOne, h]

/-- What a batch has come to beside single calls: stores that mirror each other, the keys of the
calls that succeeded, and the places of all other items. -/
structure Matches (o : BatchReport × Store) (singly : List (Option String) × Store)
    (place : Nat) : Prop where
  mirrors : o.2.Mirrors singly.2
  succeeded : o.1.succeeded = singly.1.reduceOption
  failed : o.1.failed.map Prod.fst = missed singly.1 place

/-- A batch beside single calls, item by item. -/
theorem Mirrors.run (h : s.Mirrors t) (w : World) (kind : BatchKind) (items : List Value)
    (place : Nat) :
    Matches (s.appliedAll place (t.preparedAll w.keys kind (items.map fun item => (none, item))).1)
      (t.oneByOne w kind items) place := by
  induction items generalizing s t w place with
  | nil => exact ⟨h, rfl, rfl⟩
  | cons item rest ih =>
    rw [List.map_cons, preparedAll_cons]
    rcases h.single w kind item with
      ⟨e, hprepared, hnone⟩ | ⟨ready, keys, o, hprepared, hsome, hfollows, hkeys⟩
    · obtain ⟨hmirrors, hsucceeded, hfailed⟩ := ih h.counted w (place + 1)
      rw [hprepared, appliedAll_error, oneByOne_of_none hnone]
      refine ⟨hmirrors, hsucceeded, ?_⟩
      rw [missed_none, ← hfailed]
      rfl
    · have hconfig : o.store.config = t.config := by
        rw [hfollows.mirrors.config, h.config, (applied_alike s ready).config]
      have hready := preparedAll_congr hconfig keys kind (rest.map fun item => (none, item))
      rw [hprepared, oneByOne_of_some hsome]
      have hkey := hfollows.key
      cases hresult : (s.applied ready).1 with
      | ok key =>
        obtain ⟨hmirrors, hsucceeded, hfailed⟩ := ih hfollows.mirrors o.world (place + 1)
        rw [hkeys, hready] at hmirrors hsucceeded hfailed
        rw [hresult] at hkey
        rw [appliedAll_of_ok hresult, hkey]
        refine ⟨hmirrors, ?_, ?_⟩
        · exact congrArg (key :: ·) hsucceeded
        · exact hfailed.trans (missed_some key _ place).symm
      | error e =>
        obtain ⟨hmirrors, hsucceeded, hfailed⟩ :=
          ih hfollows.mirrors.counted o.world (place + 1)
        rw [hkeys, hready] at hmirrors hsucceeded hfailed
        rw [hresult] at hkey
        rw [appliedAll_of_error hresult, hkey]
        refine ⟨hmirrors, hsucceeded, ?_⟩
        · rw [show (Except.error e : Except StoreError String).toOption = none from rfl,
            missed_none, ← hfailed]
          rfl

theorem length_oneByOne (s : Store) (w : World) (kind : BatchKind) (items : List Value) :
    (s.oneByOne w kind items).1.length = items.length := by
  induction items generalizing s w with
  | nil => rfl
  | cons item rest ih =>
    cases hitem : s.single? w kind item with
    | none =>
      rw [oneByOne_of_none hitem, List.length_cons, List.length_cons, ih]
    | some o =>
      rw [oneByOne_of_some hitem, List.length_cons, List.length_cons, ih]

/-! ### Preparing in any order -/

/-- The results of preparing items as they come in, each put in the place of its item; an item that
nothing came in for has failed. -/
def gathered (total : Nat) (completed : List (Nat × Except StoreError BatchItem)) :
    List (Except StoreError BatchItem) :=
  (completed.foldl (fun slots e => slots.set e.1 (some e.2)) (List.replicate total none)).map
    (·.getD (.error (.invalidArguments (.stated "batch item task failed"))))

theorem getElem?_foldl_set {β : Type} (completed : List (Nat × β)) (slots : List (Option β))
    (hplaces : (completed.map Prod.fst).Nodup) (i : Nat) :
    (completed.foldl (fun slots e => slots.set e.1 (some e.2)) slots)[i]? =
      match completed.find? (·.1 == i) with
      | some e => (slots[i]?).map fun _ => some e.2
      | none => slots[i]? := by
  induction completed generalizing slots with
  | nil => rfl
  | cons e rest ih =>
    obtain ⟨hfirst, hrest⟩ := List.nodup_cons.mp hplaces
    rw [List.foldl_cons, ih _ hrest]
    by_cases hi : e.1 = i
    · have hlater : rest.find? (·.1 == i) = none := by
        apply List.find?_eq_none.mpr
        intro e' he' heq
        apply hfirst
        rw [hi, ← beq_iff_eq.mp heq]
        exact List.mem_map_of_mem he'
      rw [hlater, List.find?_cons_of_pos (by simpa using hi), ← hi, List.getElem?_set_self']
      rfl
    · rw [List.find?_cons_of_neg (by simpa using hi), List.getElem?_set_ne hi]

/-- In whatever order the items get ready, they are taken in the order of the batch. -/
theorem gathered_of_perm {ready : List (Except StoreError BatchItem)}
    {completed : List (Nat × Except StoreError BatchItem)}
    (h : completed.Perm (ready.zipIdx.map Prod.swap)) :
    gathered ready.length completed = ready := by
  have hplaces : (completed.map Prod.fst).Nodup := by
    have hnumbers : (ready.zipIdx.map Prod.swap).map Prod.fst = List.range' 0 ready.length := by
      rw [List.map_map]
      exact List.zipIdx_map_snd 0 ready
    rw [(h.map Prod.fst).nodup_iff, hnumbers]
    exact List.nodup_range'
  have hmem : ∀ e, e ∈ completed ↔ ready[e.1]? = some e.2 := by
    intro e
    rw [h.mem_iff, List.mem_map]
    constructor
    · rintro ⟨⟨x, i⟩, hx, rfl⟩
      exact List.mem_zipIdx_iff_getElem?.mp hx
    · intro he
      exact ⟨(e.2, e.1), List.mem_zipIdx_iff_getElem?.mpr he, rfl⟩
  apply List.ext_getElem?
  intro i
  unfold gathered
  rw [List.getElem?_map, getElem?_foldl_set _ _ hplaces, List.getElem?_replicate]
  by_cases hi : i < ready.length
  · have hready : ready[i]? = some ready[i] := List.getElem?_eq_getElem hi
    have hfound : completed.find? (·.1 == i) = some (i, ready[i]) := by
      apply Contents.find?_eq_some_of_unique ((hmem _).mpr hready) (beq_self_eq_true i)
      intro e he heq
      have hat := (hmem e).mp he
      rw [beq_iff_eq.mp heq, hready] at hat
      exact Prod.ext (beq_iff_eq.mp heq) (Option.some.inj hat).symm
    rw [hfound, if_pos hi, hready]
    rfl
  · rw [if_neg hi, List.getElem?_eq_none (by omega)]
    cases completed.find? (·.1 == i) <;> rfl

theorem length_preparedAll (s : Store) (keys : KeySupply) (kind : BatchKind)
    (items : List (Option String × Value)) :
    (s.preparedAll keys kind items).1.length = items.length := by
  induction items generalizing keys with
  | nil => rfl
  | cons e rest ih =>
    obtain ⟨given, item⟩ := e
    rw [preparedAll_cons, List.length_cons, List.length_cons, ih]

/-! ### Batches after any operations -/

theorem length_missed (keys : List (Option String)) (place : Nat) :
    keys.reduceOption.length + (missed keys place).length = keys.length := by
  induction keys generalizing place with
  | nil => rfl
  | cons key rest ih =>
    have hrest := ih (place + 1)
    cases key with
    | none =>
      rw [missed_none, List.reduceOption_cons_of_none, List.length_cons, List.length_cons]
      omega
    | some key =>
      rw [missed_some, List.reduceOption_cons_of_some, List.length_cons, List.length_cons]
      omega

theorem Sound.after_alone (h : s.Sound) (hlocal : s.remote = none)
    (steps : List (World × Operation)) : (s.after steps).remote = none := by
  induction steps generalizing s with
  | nil => exact hlocal
  | cons step rest ih =>
    apply ih (h.perform step.1 step.2)
    have hremote := h.perform_remote step.1 step.2
    rw [hlocal] at hremote
    exact Option.isNone_iff_eq_none.mp (by simpa using hremote)

/-- After any operations of a store on its own that leave no slot empty, a batch leaves the records
with their memberships, the indexes and the versions that the calls of its items leave, one after
another with the same keys made up. It reports the keys of the calls that succeed, in the order of
the items, and the places of all others, ascending, in whatever order the items get ready. -/
theorem batch_after_operations (hs : s.Fresh) (hlocal : s.remote = none)
    (steps : List (World × Operation)) (hfilled : (s.after steps).contents.holes = 0) (w : World)
    (kind : BatchKind) (items : List Value) :
    let t := s.after steps
    let singly := t.oneByOne w kind items
    let batch := t.batchDetailed w kind items false
    let ready := (t.preparedAll w.keys kind (items.map fun item => (none, item))).1
    (∃ report, batch.result = .ok report ∧ report = (t.appliedAll 0 ready).1 ∧
      report.succeeded = singly.1.reduceOption ∧
      report.failed.map Prod.fst = missed singly.1 0 ∧
      singly.1.length = items.length ∧ report.total = items.length) ∧
    (batch.store.contents.slots = singly.2.contents.slots ∧
      batch.store.contents.catalog = singly.2.contents.catalog ∧
      batch.store.contents.versions = singly.2.contents.versions) ∧
    ∀ completed, completed.Perm (ready.zipIdx.map Prod.swap) →
      gathered items.length completed = ready := by
  intro t singly batch ready
  have hsound : t.Sound := hs.sound.1.after steps
  have hmirrors : t.Mirrors t :=
    ⟨hsound.consistent, hsound, hs.sound.1.after_alone hlocal steps, hfilled, rfl, rfl, rfl, rfl⟩
  obtain ⟨hrun, hsucceeded, hfailed⟩ := hmirrors.run w kind items 0
  obtain ⟨c, hc, hresult, halike⟩ := batchKeyed_spec (w := w) hsound.consistent hsound.usable kind
    (items.map fun item => (none, item)) false
  refine ⟨⟨(t.appliedAll 0 ready).1, hresult, rfl, hsucceeded, hfailed, ?_, ?_⟩, ?_, ?_⟩
  · exact t.length_oneByOne w kind items
  · unfold BatchReport.total
    rw [hsucceeded, ← List.length_map (f := Prod.fst), hfailed, length_missed, length_oneByOne]
  · have happlied := (appliedAll_alike t 0 ready).contents
    have hreindex : (t.appliedAll 0 ready).2.contents.reindex = .ok c := by
      rw [happlied]
      exact hc
    have hcontents := halike.contents
    rw [changed_contents] at hcontents
    change batch.store.contents = c.bump at hcontents
    rw [hcontents]
    obtain ⟨hslots, hcatalog, hversions⟩ :=
      hrun.agrees.determined hrun.consistent hrun.sound.consistent hrun.filled hreindex
    exact ⟨hslots, hcatalog, hversions⟩
  · intro completed hcompleted
    have hlength : items.length = ready.length := by
      rw [length_preparedAll, List.length_map]
    rw [hlength]
    exact gathered_of_perm hcompleted

def storedTwice : List (World × Operation) :=
  [(.bare, .set (some "r") [] ⟨false, false⟩), (.bare, .set (some "t") [] ⟨false, false⟩)]

/-- The second item names the record that the first one has deleted, and the third names none. -/
theorem batch_deletes_storedTwice :
    let t := plain.after storedTwice
    plain.Fresh ∧ plain.remote = none ∧ t.contents.holes = 0 ∧
      ∃ report, (t.batchDetailed .bare .delete [.text "t", .text "t", .map []] false).result =
        .ok report ∧ report.succeeded = ["t"] ∧ report.failed.map Prod.fst = [1, 2] := by
  intro t
  obtain ⟨⟨report, hresult, -, hsucceeded, hfailed, -, -⟩, -, -⟩ := batch_after_operations
    plain_fresh rfl storedTwice rfl .bare .delete [.text "t", .text "t", .map []]
  have hsingly : (t.oneByOne .bare .delete [.text "t", .text "t", .map []]).1 =
      [some "t", none, none] := rfl
  rw [hsingly] at hsucceeded hfailed
  exact ⟨plain_fresh, rfl, rfl, report, hresult, hsucceeded, hfailed⟩

/-- The key text of a null names a record all right: deleting it succeeds, but the item of a batch
is refused. -/
theorem batch_refuses_null :
    let t := plain.after [(.bare, .set (some "null") [] ⟨false, false⟩)]
    plain.Fresh ∧ plain.remote = none ∧ t.contents.holes = 0 ∧ Value.keyText .null = "null" ∧
      (t.delete .bare (.key "null") ⟨false, false⟩).result = .ok ⟨"null", 0, []⟩ ∧
      (t.delete .bare (.key "null") ⟨false, false⟩).store.keys = [] ∧
      (t.batchDetailed .bare .delete [.null] false).result =
        .ok ⟨[], [(0, .invalidArguments .deleteNull)]⟩ ∧
      (t.batchDetailed .bare .delete [.null] false).store.keys = ["null"] :=
  ⟨plain_fresh, rfl, rfl, rfl, rfl, rfl, rfl, rfl⟩

end Store
end IndexedStore
