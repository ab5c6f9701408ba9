import IndexedStore.Proofs.Courses
import IndexedStore.Proofs.VersionLabels
import IndexedStore.Proofs.VersionWindows

/-!
Going back to earlier fields of records. What is kept under a label are the fields that the record
had right before the last storing that was given the label, and only keys that have a record keep
any. So an undo changes the fields of one record, and can itself be undone.
-/
namespace IndexedStore

namespace Contents

def Storing.recorded? (storing : Storing) : Option (String × Fields) :=
  (storing.before.record? storing.key).map fun r =>
    ((storing.before.versions.add storing.key r.fields).1, r.fields)

/-- The last of some storings that recorded anything under a label was of a key, whose record had
the fields right before. -/
def LastRecorded (storings : List Storing) (key label : String) (fields : Fields) : Prop :=
  ∃ earlier storing later, storings = earlier ++ storing :: later ∧ storing.key = key ∧
    storing.recorded? = some (label, fields) ∧
    ∀ other ∈ later, ∀ found, other.recorded? ≠ some (label, found)

/-- The versions of a key are a window on what storings recorded, and there are none without a
record. -/
structure Remembers (c : Contents) (storings : List Storing) (key : String)
    (recorded : List (String × Fields)) : Prop where
  windowed : c.versions.Windowed key recorded
  live : recorded ≠ [] → key ∈ c.keys
  traced : ∀ e ∈ recorded, LastRecorded storings key e.1 e.2

variable {c c' : Contents} {storings : List Storing} {key other : String}
  {recorded : List (String × Fields)}

theorem LastRecorded.append {label : String} {fields : Fields}
    (h : LastRecorded storings key label fields) {storing : Storing}
    (hother : ∀ found, storing.recorded? ≠ some (label, found)) :
    LastRecorded (storings ++ [storing]) key label fields := by
  obtain ⟨earlier, last, later, rfl, hkey, hrecorded, hlater⟩ := h
  refine ⟨earlier, last, later ++ [storing], by simp, hkey, hrecorded, fun s hs => ?_⟩
  rcases List.mem_append.mp hs with hs | hs
  · exact hlater s hs
  · obtain rfl := List.mem_singleton.mp hs
    exact hother

theorem Consistent.mem_keys_of_record? (h : c.Consistent) {r : Record}
    (hr : c.record? key = some r) : key ∈ c.keys := by
  obtain ⟨hat, rfl⟩ := h.record?_eq_some hr
  exact List.mem_map_of_mem ((mem_live c r).mpr ⟨r.position, hat⟩)

theorem Consistent.exists_record? (h : c.Consistent) (hkey : key ∈ c.keys) :
    ∃ r, c.record? key = some r := by
  cases hr : c.record? key with
  | none =>
    rw [keys_eq_map_entries] at hkey
    exact absurd hkey (h.not_mem_keys hr)
  | some r => exact ⟨r, rfl⟩

theorem Consistent.mem_snapshots (h : c.Consistent) {r : Record} (hr : c.record? key = some r) :
    r.snapshot ∈ c.snapshots := by
  obtain ⟨hat, -⟩ := h.record?_eq_some hr
  exact List.mem_map_of_mem ((mem_live c r).mpr ⟨r.position, hat⟩)

theorem Consistent.fields_eq (h : c.Consistent) {r : Record} (hr : c.record? key = some r)
    {x : Snapshot} (hx : x ∈ c.snapshots) (hkey : x.key = key) : x.fields = r.fields := by
  obtain ⟨y, hy, rfl⟩ := List.mem_map.mp hx
  obtain ⟨p, hp⟩ := (mem_live c y).mp hy
  have hfound : c.record? key = some y := hkey ▸ h.record?_of_recordAt? hp
  obtain rfl := Option.some.inj (hfound.symm.trans hr)
  rfl

theorem Consistent.mem_keys_upsert (h : c.Consistent) (hkey : key ∈ c.keys) (other : String)
    (data : Fields) (overwrite versioning : Bool) :
    key ∈ (c.upsert other data overwrite versioning).contents.keys := by
  rw [keys_eq_map_entries] at hkey ⊢
  rw [h.entries_upsert]
  obtain ⟨e, he, rfl⟩ := List.mem_map.mp hkey
  unfold Ledger.put
  split_ifs
  · refine List.mem_map.mpr ⟨_, List.mem_map_of_mem he, ?_⟩
    split_ifs with hsame
    · exact hsame.symm
    · rfl
  · exact List.mem_map_of_mem (List.mem_append_left _ he)

theorem Consistent.mem_keys_removal (h : c.Consistent) {r : Record} {options : DeleteOptions}
    (hremoval : c.Removal r options c') (hkey : key ∈ c.keys) (hother : r.key ≠ key) :
    key ∈ c'.keys := by
  rw [keys_eq_map_entries] at hkey ⊢
  rw [h.entries_removal hremoval]
  obtain ⟨e, he, rfl⟩ := List.mem_map.mp hkey
  exact List.mem_map_of_mem (List.mem_filter.mpr ⟨he, by simpa using hother.symm⟩)

theorem Remembers.nil (hpos : 0 < c.versions.limit) (hnone : c.versions.records = []) :
    c.Remembers storings key [] :=
  ⟨⟨hpos, by rw [hnone]; rfl, List.nodup_nil, nofun⟩, fun h => absurd rfl h, nofun⟩

/-- A storing keeps the fields so far of a record that is there, under a label of its own. -/
theorem Remembers.upsert (h : c.Remembers storings key recorded) (hc : c.Consistent)
    (other : String) (data : Fields) (overwrite : Bool) :
    ∃ recorded', (c.upsert other data overwrite true).contents.Remembers
      (storings ++ [⟨c, other⟩]) key recorded' := by
  have hlive : recorded ≠ [] → key ∈ (c.upsert other data overwrite true).contents.keys :=
    fun hne => hc.mem_keys_upsert (h.live hne) other data overwrite true
  cases hr : c.record? other with
  | none =>
    have hversions : (c.upsert other data overwrite true).contents.versions = c.versions := by
      rw [upsert_of_none hr]
    have hrecorded : (⟨c, other⟩ : Storing).recorded? = none := by
      unfold Storing.recorded?
      rw [hr, Option.map_none]
    refine ⟨recorded, by rw [hversions]; exact h.windowed, hlive, fun e he => ?_⟩
    exact (h.traced e he).append fun found hfound => nomatch hrecorded.symm.trans hfound
  | some r =>
    have hversions : (c.upsert other data overwrite true).contents.versions =
        (c.versions.add other r.fields).2 := by
      rw [upsert_of_some hr]
      rfl
    have hrecorded : (⟨c, other⟩ : Storing).recorded? =
        some ((c.versions.add other r.fields).1, r.fields) := by
      unfold Storing.recorded?
      rw [hr, Option.map_some]
    have hearlier : ∀ e ∈ recorded, LastRecorded (storings ++ [⟨c, other⟩]) key e.1 e.2 := by
      refine fun e he => (h.traced e he).append fun found hfound => ?_
      obtain ⟨hlabel, -⟩ := Prod.mk.inj (Option.some.inj (hrecorded.symm.trans hfound))
      refine h.windowed.next_not_mem (List.mem_map.mpr ⟨e, he, ?_⟩)
      exact hlabel.symm
    have hwindowed := h.windowed.changed (.add other r.fields)
    by_cases hother : other = key
    · subst hother
      refine ⟨_, by rw [hversions]; exact h.windowed.add_self r.fields, fun _ => ?_, fun e he => ?_⟩
      · exact hc.mem_keys_upsert (hc.mem_keys_of_record? hr) other data overwrite true
      · rcases List.mem_cons.mp he with rfl | he
        · exact ⟨storings, ⟨c, other⟩, [], rfl, rfl, hrecorded, nofun⟩
        · exact hearlier e he
    · have hsame : c.versions.recordedBy key recorded (.add other r.fields) = recorded :=
        if_neg hother
      rw [hsame] at hwindowed
      exact ⟨recorded, by rw [hversions]; exact hwindowed, hlive, hearlier⟩

theorem Remembers.removal (h : c.Remembers storings key recorded) (hc : c.Consistent)
    {r : Record} {options : DeleteOptions} (hremoval : c.Removal r options c') :
    ∃ recorded', c'.Remembers storings key recorded' := by
  have hversions := (hc.declared_removal hremoval).2
  have hwindowed := h.windowed.changed (.remove r.key)
  by_cases hkey : r.key = key
  · have hnone : c.versions.recordedBy key recorded (.remove r.key) = [] := if_pos hkey
    rw [hnone] at hwindowed
    exact ⟨[], by rw [hversions]; exact hwindowed, fun hne => absurd rfl hne, nofun⟩
  · have hsame : c.versions.recordedBy key recorded (.remove r.key) = recorded := if_neg hkey
    rw [hsame] at hwindowed
    exact ⟨recorded, by rw [hversions]; exact hwindowed,
      fun hne => hc.mem_keys_removal hremoval (h.live hne) hkey, h.traced⟩

theorem Course.remembers (hcourse : Course true c storings c') (hc : c.Consistent)
    (h : c.Remembers [] key []) : ∃ recorded, c'.Remembers storings key recorded := by
  induction hcourse with
  | start => exact ⟨[], h⟩
  | stored hd other data overwrite ih =>
    obtain ⟨recorded, hrecorded⟩ := ih
    exact hrecorded.upsert (hd.consistent hc) other data overwrite
  | removed hd hremoval ih =>
    obtain ⟨recorded, hrecorded⟩ := ih
    exact hrecorded.removal (hd.consistent hc) hremoval
  | arranged hd hconsistent hentries hversions ih =>
    obtain ⟨recorded, hrecorded⟩ := ih
    refine ⟨recorded, by rw [hversions]; exact hrecorded.windowed, ?_, hrecorded.traced⟩
    rw [keys_eq_map_entries, hentries, ← keys_eq_map_entries]
    exact hrecorded.live
  | dropped hd hconsistent hversions ih =>
    obtain ⟨recorded, hrecorded⟩ := ih
    refine ⟨[], ?_⟩
    rcases hversions with hversions | ⟨limit, hversions⟩
    · exact Remembers.nil (by rw [hversions]; exact hrecorded.windowed.pos) (by rw [hversions]; rfl)
    · have hempty := Versions.windowed_empty limit key
      exact Remembers.nil (by rw [hversions]; exact hempty.pos) (by rw [hversions]; rfl)

/-! ### Other fields for one record -/

def withFields (records : List Snapshot) (key : String) (fields : Fields) : List Snapshot :=
  records.map fun r => if r.key = key then { r with fields := fields } else r

theorem withFields_of_not_mem {records : List Snapshot} (h : ∀ r ∈ records, r.key ≠ key)
    (fields : Fields) : withFields records key fields = records := by
  unfold withFields
  conv_rhs => rw [← List.map_id records]
  exact List.map_congr_left fun r hr => if_neg (h r hr)

theorem withFields_split (r : Snapshot) {pre post : List Snapshot} (hpre : ∀ x ∈ pre, x.key ≠ r.key)
    (hpost : ∀ x ∈ post, x.key ≠ r.key) (fields : Fields) :
    withFields (pre ++ r :: post) r.key fields = pre ++ { r with fields := fields } :: post := by
  have hleft := withFields_of_not_mem hpre fields
  have hright := withFields_of_not_mem hpost fields
  unfold withFields at hleft hright ⊢
  rw [List.map_append, List.map_cons, if_pos rfl, hleft, hright]

theorem mem_withFields {records : List Snapshot} {r : Snapshot} (hr : r ∈ records)
    (hkey : r.key = key) (fields : Fields) :
    { r with fields := fields } ∈ withFields records key fields :=
  List.mem_map.mpr ⟨r, hr, if_pos hkey⟩

/-- Records that had the fields before get them back. -/
theorem withFields_withFields {records : List Snapshot} {fields : Fields}
    (h : ∀ r ∈ records, r.key = key → r.fields = fields) (others : Fields) :
    withFields (withFields records key others) key fields = records := by
  unfold withFields
  rw [List.map_map]
  conv_rhs => rw [← List.map_id records]
  refine List.map_congr_left fun r hr => ?_
  rw [Function.comp_apply]
  split_ifs with hkey
  · rw [← h r hr hkey]
    rfl
  · rfl

/-- Storing all fields of a record anew changes them and nothing else that callers see. -/
theorem Consistent.snapshots_upsert (h : c.Consistent) {r : Record} (hr : c.record? key = some r)
    (data : Fields) (versioning : Bool) :
    (c.upsert key data true versioning).contents.snapshots = withFields c.snapshots key data := by
  obtain ⟨hat, rfl⟩ := h.record?_eq_some hr
  obtain ⟨pre, post, hslots, hlength, hpre, hpost⟩ := h.exists_entries_split hat
  have hothers : ∀ {part : List (Option Record)}, r.key ∉ (entriesOf part).map Prod.fst →
      ∀ x ∈ (part.filterMap id).map Record.snapshot, x.key ≠ r.key := by
    intro part hpart x hx heq
    obtain ⟨y, hy, rfl⟩ := List.mem_map.mp hx
    rw [entriesOf_eq, List.map_map] at hpart
    exact hpart (List.mem_map.mpr ⟨y, hy, heq⟩)
  have hset (o : Option Record) : c.slots.set r.position o = pre ++ o :: post := by
    rw [← hlength, hslots, set_split]
  have hsplit (x : Record) : ((pre ++ some x :: post).filterMap id).map Record.snapshot =
      (pre.filterMap id).map Record.snapshot ++ x.snapshot ::
        (post.filterMap id).map Record.snapshot := by
    rw [List.filterMap_append, List.map_append, filterMap_id_cons_some, List.map_cons]
  rw [upsert_of_some hr]
  unfold snapshots live
  dsimp only
  rw [hset, hslots, hsplit, hsplit]
  exact (withFields_split r.snapshot (hothers hpre) (hothers hpost) data).symm

theorem snapshot_upsert_of_some {r : Record} (hr : c.record? key = some r)
    (data : Fields) (versioning : Bool) :
    (c.upsert key data true versioning).snapshot = { r.snapshot with fields := data } := by
  unfold Contents.upsert
  rw [hr]
  rfl

end Contents

namespace Store

open Contents (LastRecorded Remembers withFields)

variable {s : Store} {w : World} {key : String} {fields : Fields}

/-- What an undo of a record comes to that goes back to fields: no other record changes, and nothing
about the record but its fields. An undo to the newest label gives it back those it had before. -/
structure UndoesTo (s : Store) (w : World) (key : String) (label : Option String)
    (fields : Fields) : Prop where
  result : ∃ r ∈ s.contents.snapshots, r.key = key ∧
    (s.undo w key label).result = .ok { r with fields := fields }
  records : (s.undo w key label).store.contents.snapshots =
    withFields s.contents.snapshots key fields
  exact : (s.undo w key label).store.contents.Exact
  undone : ∃ newest, ((s.undo w key label).store.labels key).getLast? = some newest ∧
    ∀ w', ((s.undo w key label).store.undo w' key (some newest)).store.contents.snapshots =
      s.contents.snapshots ∧
    ∃ r ∈ s.contents.snapshots, r.key = key ∧
      ((s.undo w key label).store.undo w' key (some newest)).result = .ok r

/-- Going back to fields of a record that is there. -/
theorem Sound.undo_spec (h : s.Sound) (hlocal : s.remote.isSome = false) {r : Record}
    (hr : s.contents.record? key = some r) {label : Option String}
    (hfields : s.undoFields? key label = some fields) :
    (s.undo w key label).result = .ok { r.snapshot with fields := fields } ∧
    (s.undo w key label).store.contents =
      (s.contents.upsert key fields true s.config.versioning).contents.bump := by
  rcases undo_cases (s := s) (w := w) key label with ⟨hnone, -, -⟩ | ⟨found, hfound, hset⟩
  · exact nomatch hfields.symm.trans hnone
  · obtain rfl := Option.some.inj (hfields.symm.trans hfound)
    rw [hset]
    rcases set_cases (w := w) h.usable (some key) fields ⟨false, true⟩ with
      ⟨_, hremote, -, -⟩ | ⟨stored, rfl, hresult, halike⟩
    · exact nomatch hremote.symm.trans hlocal
    · rw [halike.contents, changed_contents, hresult]
      exact ⟨congrArg Except.ok (Contents.snapshot_upsert_of_some hr fields _), rfl⟩

theorem Sound.undo_records (h : s.Sound) (hlocal : s.remote.isSome = false) {r : Record}
    (hr : s.contents.record? key = some r) {label : Option String}
    (hfields : s.undoFields? key label = some fields) :
    (s.undo w key label).store.contents.snapshots = withFields s.contents.snapshots key fields := by
  rw [(h.undo_spec (w := w) hlocal hr hfields).2]
  exact h.consistent.snapshots_upsert hr fields s.config.versioning

/-- With versions kept, an undo keeps the fields so far as the newest version of the record, which
is still there. -/
theorem Sound.undo_keeps (h : s.Sound) (hlocal : s.remote.isSome = false)
    (hversioning : s.config.versioning = true) {recorded : List (String × Fields)}
    (hwindowed : s.contents.versions.Windowed key recorded) {r : Record}
    (hr : s.contents.record? key = some r) {label : Option String}
    (hfields : s.undoFields? key label = some fields) (w : World) :
    ∃ newest, ((s.undo w key label).store.labels key).getLast? = some newest ∧
      (s.undo w key label).store.undoFields? key (some newest) = some r.fields ∧
      ∃ r', (s.undo w key label).store.contents.record? key = some r' := by
  have hcontents := (h.undo_spec (w := w) hlocal hr hfields).2
  have hundone : (s.undo w key label).store.Sound := h.perform w (.undo key label)
  have hthere : key ∈ (s.undo w key label).store.contents.keys := by
    rw [hcontents]
    exact h.consistent.mem_keys_upsert (h.consistent.mem_keys_of_record? hr) key fields true _
  have hversions : (s.undo w key label).store.contents.versions =
      (s.contents.versions.add key r.fields).2 := by
    rw [hcontents, hversioning, Contents.upsert_of_some hr]
    rfl
  have hlast := hwindowed.add_self r.fields
  rw [← hversions] at hlast
  obtain ⟨hnewest, hkept⟩ := hlast.newest
  exact ⟨_, hnewest, hkept, hundone.consistent.exists_record? hthere⟩

/-- An undo that goes back to fields can be undone by going back to the newest version. -/
theorem Sound.undoesTo (h : s.Sound) (hlocal : s.remote.isSome = false)
    (hversioning : s.config.versioning = true) {recorded : List (String × Fields)}
    (hwindowed : s.contents.versions.Windowed key recorded) {r : Record}
    (hr : s.contents.record? key = some r) {label : Option String}
    (hfields : s.undoFields? key label = some fields) (w : World) :
    s.UndoesTo w key label fields := by
  have hkey : r.key = key := (h.consistent.record?_eq_some hr).2
  have hrecords := h.undo_records (w := w) hlocal hr hfields
  have hundone : (s.undo w key label).store.Sound := h.perform w (.undo key label)
  have hundoneLocal : (s.undo w key label).store.remote.isSome = false :=
    (h.perform_remote w (.undo key label)).trans hlocal
  refine ⟨⟨r.snapshot, h.consistent.mem_snapshots hr, hkey, (h.undo_spec hlocal hr hfields).1⟩,
    hrecords, hundone.consistent.exact, ?_⟩
  obtain ⟨newest, hnewest, hkept, r', hr'⟩ :=
    h.undo_keeps hlocal hversioning hwindowed hr hfields w
  refine ⟨newest, hnewest, fun w' => ?_⟩
  have hsame : withFields (s.undo w key label).store.contents.snapshots key r.fields =
      s.contents.snapshots := by
    rw [hrecords]
    exact Contents.withFields_withFields (fun x hx hx' => h.consistent.fields_eq hr hx hx') fields
  have hkey' : r'.key = key := (hundone.consistent.record?_eq_some hr').2
  refine ⟨(hundone.undo_records hundoneLocal hr' hkept).trans hsame,
    { r'.snapshot with fields := r.fields }, ?_, hkey',
    (hundone.undo_spec hundoneLocal hr' hkept).1⟩
  rw [← hsame]
  exact Contents.mem_withFields (hundone.consistent.mem_snapshots hr') hkey' r.fields

/-- Without a label an undo goes back to the oldest version. -/
theorem undo_oldest {label : String} {rest : List String} (h : s.labels key = label :: rest)
    (w : World) : s.undo w key none = s.undo w key (some label) := by
  have hlabels : s.contents.versions.labels key = label :: rest := h
  have hfields : s.undoFields? key none = s.undoFields? key (some label) := by
    unfold undoFields? Versions.oldest?
    dsimp only
    rw [hlabels]
    dsimp only
    rw [Option.map_map]
    exact Option.map_id'
  unfold undo
  rw [hfields]

/-- An undo that has nothing to go back to counts an error and changes nothing else. -/
theorem undo_of_none {label : Option String} (h : s.undoFields? key label = none) (w : World) :
    s.undo w key label = ⟨.error (.noPreviousVersion key),
      { s with stats.errors := s.stats.errors + 1 }, w⟩ := by
  unfold undo
  rw [h]
  rfl

/-- After any operations on a store of its own that keeps versions, an undo to a label of a key goes
back to the fields that the record had right before the last storing that was given the label; it
changes nothing else, and can be undone. Without a label it goes back to the oldest version, and
without a version it fails and only counts the error. -/
theorem undone_after_operations {config : Config} {w₀ : World} (hs : (create config w₀).1 = .ok s)
    (hversioning : config.versioning = true) (steps : List (World × Operation)) :
    let t := s.after steps
    (∀ key, ∀ label ∈ t.labels key, ∃ fields,
      LastRecorded (s.storingsIn steps) key label fields ∧
        ∀ w, t.UndoesTo w key (some label) fields) ∧
    (∀ key label rest, t.labels key = label :: rest →
      ∀ w, t.undo w key none = t.undo w key (some label)) ∧
    (∀ key label, label ∉ t.labels key → ∀ w,
      t.undo w key (some label) = ⟨.error (.noPreviousVersion key),
        { t with stats.errors := t.stats.errors + 1 }, w⟩) ∧
    ∀ key, t.labels key = [] → ∀ w,
      t.undo w key none = ⟨.error (.noPreviousVersion key),
        { t with stats.errors := t.stats.errors + 1 }, w⟩ := by
  intro t
  have hfresh : s.Fresh := ⟨config, w₀, Or.inl hs⟩
  have hsound := hfresh.sound.1
  obtain ⟨_, -, hconfig, -, -, -, hremote, -⟩ := build_cases hs
  have hlocal : s.remote.isSome = false := by rw [hremote]; rfl
  have hversioning : s.config.versioning = true := hconfig ▸ hversioning
  have ht : t.Sound := hsound.after steps
  have htlocal : t.remote.isSome = false := (hsound.after_remote steps).trans hlocal
  have htversioning : t.config.versioning = true := by rw [hsound.after_config]; exact hversioning
  have hcourse := hsound.leads_after hlocal steps
  unfold Leads at hcourse
  rw [hversioning] at hcourse
  have hremembers (key : String) : ∃ recorded,
      t.contents.Remembers (s.storingsIn steps) key recorded := by
    have hempty := Versions.windowed_empty s.config.versionLimit key
    rw [← hfresh.versions_eq] at hempty
    exact hcourse.remembers hsound.consistent
      (Remembers.nil hempty.pos (by rw [hfresh.versions_eq]; rfl))
  refine ⟨fun key label hlabel => ?_, fun key label rest hlabels => undo_oldest hlabels,
    fun key label hlabel => ?_, fun key hlabels => undo_of_none ?_⟩
  · obtain ⟨recorded, hremembered⟩ := hremembers key
    obtain ⟨fields, hmem, hget⟩ := hremembered.windowed.exists_get? hlabel
    obtain ⟨r, hr⟩ := ht.consistent.exists_record? (hremembered.live (List.ne_nil_of_mem hmem))
    exact ⟨fields, hremembered.traced _ hmem,
      ht.undoesTo htlocal htversioning hremembered.windowed hr hget⟩
  · obtain ⟨recorded, hremembered⟩ := hremembers key
    exact undo_of_none (hremembered.windowed.get?_eq_none hlabel)
  · unfold undoFields? Versions.oldest?
    have hnone : t.contents.versions.labels key = [] := hlabels
    dsimp only
    rw [hnone]
    rfl

def keepingOne : Store :=
  ⟨{ Config.standard with versionLimit := 1 }, .empty 1, .empty, .empty 10000, .zero, true, none,
    false⟩

def mergedOnce : List (World × Operation) :=
  [(.bare, .set (some "r") [("x", .text "1")] ⟨false, false⟩),
    (.bare, .set (some "r") [("y", .text "2")] ⟨false, false⟩)]

/-- The version that an undo goes back to is driven out by the one that it keeps. -/
theorem undone_after_mergedOnce :
    let t := keepingOne.after mergedOnce
    let undone := (t.undo .bare "r" none).store
    (create { Config.standard with versionLimit := 1 } .bare).1 = .ok keepingOne ∧
      { Config.standard with versionLimit := 1 }.versioning = true ∧ t.labels "r" = ["v0"] ∧
      (∃ fields, LastRecorded (keepingOne.storingsIn mergedOnce) "r" "v0" fields ∧
        t.UndoesTo .bare "r" (some "v0") fields) ∧
      t.contents.snapshots = [⟨"r", 0, [("x", .text "1"), ("y", .text "2")]⟩] ∧
      undone.contents.snapshots = [⟨"r", 0, [("x", .text "1")]⟩] ∧ undone.labels "r" = ["v1"] := by
  intro t undone
  have hcreate : (create { Config.standard with versionLimit := 1 } .bare).1 = .ok keepingOne := rfl
  have hlabels : t.labels "r" = ["v0"] := by decide +kernel
  obtain ⟨hundoes, -, -, -⟩ := undone_after_operations hcreate rfl mergedOnce
  obtain ⟨fields, hrecorded, hundo⟩ := hundoes "r" "v0" (hlabels ▸ List.mem_singleton_self _)
  exact ⟨hcreate, rfl, hlabels, ⟨fields, hrecorded, hundo .bare⟩, rfl, rfl, by decide +kernel⟩

end Store
end IndexedStore
