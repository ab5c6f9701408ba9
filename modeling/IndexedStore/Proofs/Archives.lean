import IndexedStore.Proofs.Items
import IndexedStore.Proofs.SortedMap
import IndexedStore.Cbor.Shapes

/-!
Values, records and archives read back from the binary form. A value whose maps have their entries
in order comes back as it was, and so do the parts of a record and of an archive; an archive is
read when its records nest within the limit and refused when one nests deeper.
-/
namespace IndexedStore

namespace SortedMap

variable {α : Type}

/-- An entry above all others is added at the end. -/
theorem insert_of_forall_lt {m : SortedMap α} {name : String} (h : ∀ e ∈ m, e.1 < name) (x : α) :
    insert m name x = m ++ [(name, x)] := by
  induction m with
  | nil => rfl
  | cons e m ih =>
    obtain ⟨hhead, htail⟩ := List.forall_mem_cons.mp h
    unfold insert
    rw [if_neg (lt_asymm hhead), if_neg (ne_of_gt hhead), ih htail]
    rfl

end SortedMap

namespace Value

/-! ### What a value is written as -/

mutual

def nesting : Value → Nat
  | .list items => nestingItems items + 1
  | .map entries => nestingEntries entries + 1
  | _ => 0

def nestingItems : List Value → Nat
  | [] => 0
  | v :: rest => max (nesting v) (nestingItems rest)

def nestingEntries : List (String × Value) → Nat
  | [] => 0
  | (_, v) :: rest => max (nesting v) (nestingEntries rest)

end

mutual

def Counted : Value → Prop
  | .text s => s.utf8ByteSize < 2 ^ 64
  | .list items => items.length < 2 ^ 64 ∧ CountedItems items
  | .map entries => entries.length < 2 ^ 64 ∧ CountedEntries entries
  | _ => True

def CountedItems : List Value → Prop
  | [] => True
  | v :: rest => Counted v ∧ CountedItems rest

def CountedEntries : List (String × Value) → Prop
  | [] => True
  | (name, v) :: rest => (name.utf8ByteSize < 2 ^ 64 ∧ Counted v) ∧ CountedEntries rest

end

/-- An item is written whole, with the lengths of its value, nests like it, and is read as its
value. -/
structure Written (v : Value) (item : Cbor) : Prop where
  whole : item.Whole
  counted : v.Counted → item.Counted
  nesting : item.nesting = v.nesting
  read : v.Ordered → item.toValue? = some v

structure WrittenItems (vs : List Value) (items : List Cbor) : Prop where
  whole : Cbor.WholeItems items
  length : items.length = vs.length
  counted : CountedItems vs → Cbor.CountedItems items
  nesting : Cbor.nestingItems items = nestingItems vs
  read : OrderedItems vs → Cbor.itemValues? items = some vs

structure WrittenEntries (entries : List (String × Value)) (items : List (Cbor × Cbor)) :
    Prop where
  whole : Cbor.WholeEntries items
  length : items.length = entries.length
  counted : CountedEntries entries → Cbor.CountedEntries items
  nesting : Cbor.nestingEntries items = nestingEntries entries
  read : OrderedEntries entries → ∀ before, SortedMap.Sorted (before ++ entries) →
    Cbor.entryValues? before items = some (before ++ entries)

theorem written_list {vs : List Value} (h : WrittenItems vs (itemsToCbor vs)) :
    Written (.list vs) (toCbor (.list vs)) := by
  rw [toCbor]
  refine ⟨h.whole, fun hcounted => ⟨?_, h.counted hcounted.2⟩, congrArg (· + 1) h.nesting,
    fun hordered => ?_⟩
  · rw [h.length]
    exact hcounted.1
  · rw [Cbor.toValue?, h.read hordered, Option.map_some]

theorem written_map {entries : List (String × Value)}
    (h : WrittenEntries entries (entriesToCbor entries)) :
    Written (.map entries) (toCbor (.map entries)) := by
  rw [toCbor]
  refine ⟨h.whole, fun hcounted => ⟨?_, h.counted hcounted.2⟩, congrArg (· + 1) h.nesting,
    fun hordered => ?_⟩
  · rw [h.length]
    exact hcounted.1
  · rw [Cbor.toValue?, h.read hordered.2 [] hordered.1, Option.map_some, List.nil_append]

theorem writtenItems_cons {v : Value} {vs : List Value} (hv : Written v v.toCbor)
    (hvs : WrittenItems vs (itemsToCbor vs)) : WrittenItems (v :: vs) (itemsToCbor (v :: vs)) := by
  rw [itemsToCbor]
  refine ⟨⟨hv.whole, hvs.whole⟩, congrArg (· + 1) hvs.length,
    fun hcounted => ⟨hv.counted hcounted.1, hvs.counted hcounted.2⟩,
    congrArg₂ max hv.nesting hvs.nesting, fun hordered => ?_⟩
  rw [Cbor.itemValues?, hv.read hordered.1, hvs.read hordered.2]

theorem writtenEntries_cons {e : String × Value} {entries : List (String × Value)}
    (he : Written e.2 e.2.toCbor) (hentries : WrittenEntries entries (entriesToCbor entries)) :
    WrittenEntries (e :: entries) (entriesToCbor (e :: entries)) := by
  obtain ⟨name, v⟩ := e
  rw [entriesToCbor]
  have hnesting : Cbor.nestingEntries ((.text false name, v.toCbor) :: entriesToCbor entries) =
      max (max 0 v.toCbor.nesting) (Cbor.nestingEntries (entriesToCbor entries)) := rfl
  refine ⟨⟨⟨rfl, he.whole⟩, hentries.whole⟩, congrArg (· + 1) hentries.length,
    fun hcounted => ⟨⟨hcounted.1.1, he.counted hcounted.1.2⟩, hentries.counted hcounted.2⟩, ?_,
    fun hordered before hsorted => ?_⟩
  · rw [hnesting, Nat.zero_max, he.nesting, hentries.nesting]
    rfl
  · have hlast : ∀ d ∈ before, d.1 < name := fun d hd =>
      (List.pairwise_append.mp hsorted).2.2 d hd (name, v) List.mem_cons_self
    have hread : Cbor.entryValues? before
        ((.text false name, v.toCbor) :: entriesToCbor entries) =
          Cbor.entryValues? (SortedMap.insert before name v) (entriesToCbor entries) := by
      rw [Cbor.entryValues?, Cbor.entryName?, he.read hordered.1]
    rw [List.append_cons] at hsorted
    rw [hread, SortedMap.insert_of_forall_lt hlast, hentries.read hordered.2 _ hsorted,
      List.append_assoc]
    rfl

/-- Every value is written whole and read back. -/
theorem written_toCbor (v : Value) : Written v v.toCbor := by
  refine @Value.rec (fun v => Written v v.toCbor) (fun vs => WrittenItems vs (itemsToCbor vs))
    (fun entries => WrittenEntries entries (entriesToCbor entries))
    (fun e => Written e.2 e.2.toCbor) ?null ?bool ?number ?text ?list ?map ?noItem ?item ?noEntry
    ?entry ?pair v
  case null => exact ⟨trivial, fun _ => trivial, rfl, fun _ => rfl⟩
  case bool => exact fun b => ⟨trivial, fun _ => trivial, rfl, fun _ => rfl⟩
  case number => exact fun x => ⟨trivial, fun _ => trivial, rfl, fun _ => rfl⟩
  case text => exact fun s => ⟨rfl, fun hcounted => hcounted, rfl, fun _ => rfl⟩
  case list => exact fun _ => written_list
  case map => exact fun _ => written_map
  case noItem => exact ⟨trivial, rfl, fun _ => trivial, rfl, fun _ => rfl⟩
  case item => exact fun _ _ => writtenItems_cons
  case noEntry =>
    refine ⟨trivial, rfl, fun _ => trivial, rfl, fun _ before _ => ?_⟩
    rw [List.append_nil]
    rfl
  case entry => exact fun _ _ => writtenEntries_cons
  case pair => exact fun _ _ h => h

end Value

namespace Cbor

/-! ### Parts under fixed names -/

theorem toFields?_toCbor {fields : Fields} (h : Value.Ordered (.map fields)) :
    (Fields.toCbor fields).toFields? = some fields := by
  have hfold : ∀ (entries : List (String × Value)) (before : Fields),
      Value.OrderedEntries entries → SortedMap.Sorted (before ++ entries) →
      (Value.entriesToCbor entries).foldlM (fun (fields : Fields) (e : Cbor × Cbor) => do
        let name ← e.1.toText?
        let v ← e.2.toValue?
        return SortedMap.insert fields name v) before = some (before ++ entries) := by
    intro entries
    induction entries with
    | nil =>
      intro before _ _
      rw [List.append_nil]
      rfl
    | cons e rest ih =>
      obtain ⟨name, v⟩ := e
      intro before hordered hsorted
      have hlast : ∀ d ∈ before, d.1 < name := fun d hd =>
        (List.pairwise_append.mp hsorted).2.2 d hd (name, v) List.mem_cons_self
      have hread : v.toCbor.toValue? = some v := (Value.written_toCbor v).read hordered.1
      rw [List.append_cons] at hsorted ⊢
      rw [Value.entriesToCbor, List.foldlM_cons, ← ih _ hordered.2 hsorted,
        ← SortedMap.insert_of_forall_lt hlast v]
      simp only [toText?, untagged, hread, Option.bind_eq_bind, Option.bind_some, Option.pure_def]
  exact hfold fields [] h.2 h.1

def part (name : String) (item : Cbor) : Cbor × Cbor := (.text false name, item)

def takePart (depth : Nat) (names : List String) (parts : SortedMap Cbor) (e : Cbor × Cbor) :
    Option (SortedMap Cbor) := do
  let written ← e.1.partName?
  match names.find? (Bytes.ofText · = written) with
  | none => if passable (depth - 1) e.2 then some parts else none
  | some name =>
    if SortedMap.contains parts name then none else some (SortedMap.insert parts name e.2)

/-- The names of parts are texts that fit. -/
theorem partName?_text {name : String} (h : name.utf8ByteSize ≤ partNameLimit) :
    partName? (.text false name) = some (Bytes.ofText name) := by
  have hlength : decide ((Bytes.ofText name).length ≤ partNameLimit) = true := by
    rw [Bytes.length_ofText]
    exact decide_eq_true h
  unfold partName?
  exact (Option.filter_eq_some_iff.mpr ⟨rfl, hlength⟩)

theorem find?_ofText {names : List String} {name : String} (h : name ∈ names) :
    names.find? (Bytes.ofText · = Bytes.ofText name) = some name := by
  cases hfound : names.find? (Bytes.ofText · = Bytes.ofText name) with
  | none => exact absurd (List.find?_eq_none.mp hfound name h) (by simp)
  | some found =>
    have hsame := List.find?_some hfound
    exact congrArg some (Bytes.ofText_inj (of_decide_eq_true hsame))

/-- A part that is written under its name is found, unless it was found before. -/
theorem takePart_part (depth : Nat) {names : List String} {name : String} (hname : name ∈ names)
    (hshort : name.utf8ByteSize ≤ partNameLimit) {parts : SortedMap Cbor}
    (hnew : SortedMap.get? parts name = none) (item : Cbor) :
    takePart depth names parts (part name item) = some (SortedMap.insert parts name item) := by
  have habsent : SortedMap.contains parts name = false := by
    rw [SortedMap.contains_eq_isSome, hnew]
    rfl
  unfold takePart part
  simp only [partName?_text hshort, find?_ofText hname, habsent, Option.bind_eq_bind,
    Option.bind_some, Bool.false_eq_true, if_false]

/-- The parts of a record that is written with all its names are found, each under its name. -/
theorem toParts?_parts (depth : Nat) (names : List String) (parts : List (String × Cbor))
    (hparts : parts.map Prod.fst = names) (hdistinct : names.Nodup)
    (hshort : ∀ name ∈ names, name.utf8ByteSize ≤ partNameLimit) :
    ∃ found, toParts? depth names (.map (parts.map fun e => part e.1 e.2)) = some found ∧
      ∀ e ∈ parts, SortedMap.get? found e.1 = some e.2 := by
  have hfold : ∀ (rest : List (String × Cbor)) (before : SortedMap Cbor),
      (rest.map Prod.fst).Nodup →
      (∀ name ∈ rest.map Prod.fst, name ∈ names ∧ SortedMap.get? before name = none) →
      ∃ found, (rest.map fun e => part e.1 e.2).foldlM (takePart depth names) before = some found ∧
        (∀ e ∈ rest, SortedMap.get? found e.1 = some e.2) ∧
        ∀ name ∉ rest.map Prod.fst, SortedMap.get? found name = SortedMap.get? before name := by
    intro rest
    induction rest with
    | nil => exact fun before _ _ => ⟨before, rfl, by simp, fun _ _ => rfl⟩
    | cons e rest ih =>
      obtain ⟨name, item⟩ := e
      intro before hnodup hfree
      rw [List.map_cons, List.nodup_cons] at hnodup
      rw [List.map_cons, List.forall_mem_cons] at hfree
      obtain ⟨⟨hname, hnew⟩, hothers⟩ := hfree
      obtain ⟨found, hfound, heach, helse⟩ := ih (SortedMap.insert before name item) hnodup.2
        fun other hother => by
          have hne : other ≠ name := fun heq => hnodup.1 (heq ▸ hother)
          rw [SortedMap.get?_insert_of_ne before name other item hne]
          exact hothers other hother
      refine ⟨found, ?_, List.forall_mem_cons.mpr ⟨?_, heach⟩, fun other hother => ?_⟩
      · rw [List.map_cons, List.foldlM_cons, takePart_part depth hname (hshort name hname) hnew]
        exact hfound
      · rw [helse name hnodup.1, SortedMap.get?_insert_self]
      · rw [List.map_cons, List.mem_cons, not_or] at hother
        rw [helse other hother.2, SortedMap.get?_insert_of_ne before name other item hother.1]
  rw [← hparts] at hdistinct
  obtain ⟨found, hfound, heach, -⟩ :=
    hfold parts [] hdistinct fun name hname => ⟨hparts ▸ hname, rfl⟩
  exact ⟨found, hfound, heach⟩

/-! ### Records and archives -/

theorem mapM_map {α β : Type} {f : α → β} {g : β → Option α} {l : List α}
    (h : ∀ x ∈ l, g (f x) = some x) : (l.map f).mapM g = some l := by
  induction l with
  | nil => rfl
  | cons x l ih =>
    obtain ⟨hx, hl⟩ := List.forall_mem_cons.mp h
    rw [List.map_cons, List.mapM_cons, hx, ih hl]
    rfl

theorem toText?_text (chunked : Bool) (s : String) : toText? (.text chunked s) = some s := rfl

theorem toList?_array (items : List Cbor) : toList? (.array items) = some items := rfl

/-- A record with fields in order is read back. -/
theorem toSnapshot?_toCbor (depth : Nat) {r : Snapshot} (h : Value.Ordered (.map r.fields)) :
    (Snapshot.toCbor r).toSnapshot? depth = some r := by
  obtain ⟨found, hparts, hfound⟩ := toParts?_parts depth ["key", "position", "fields"]
    [("key", .text false r.key), ("position", .unsigned r.position),
      ("fields", Fields.toCbor r.fields)] rfl (by decide) (by decide)
  have hread : toParts? depth ["key", "position", "fields"] (Snapshot.toCbor r) = some found :=
    hparts
  simp only [List.forall_mem_cons] at hfound
  obtain ⟨hkey, hposition, hfields, -⟩ := hfound
  unfold toSnapshot?
  rw [hread]
  simp only [Option.bind_eq_bind, Option.bind_some, hkey, hposition, hfields, toText?_text,
    toFields?_toCbor h]
  rfl

def keyItem : Option String → Cbor
  | some name => .text false name
  | none => .null

theorem toOptionalText?_keyItem (name : Option String) :
    toOptionalText? (some (keyItem name)) = some name := by
  cases name <;> rfl

def indexItem (names : List String) : Cbor := .array (names.map (.text false ·))

def archiveParts (a : Archive) : List (String × Cbor) :=
  [("name", .text false a.name), ("key", keyItem a.keyField),
    ("indexes", .array (a.indexes.map indexItem)),
    ("records", .array (a.records.map Snapshot.toCbor))]

theorem toCbor_archive (a : Archive) :
    Archive.toCbor a = .map ((archiveParts a).map fun e => part e.1 e.2) := by
  obtain ⟨name, keyField, indexes, records⟩ := a
  cases keyField <;> rfl

/-- An archive whose records have their fields in order is read back. -/
theorem toArchive?_toCbor (depth : Nat) {a : Archive}
    (h : ∀ r ∈ a.records, Value.Ordered (.map r.fields)) :
    (Archive.toCbor a).toArchive? depth = some a := by
  obtain ⟨found, hparts, hfound⟩ := toParts?_parts depth ["name", "key", "indexes", "records"]
    (archiveParts a) rfl (by decide) (by decide)
  rw [← toCbor_archive] at hparts
  unfold archiveParts at hfound
  simp only [List.forall_mem_cons] at hfound
  obtain ⟨hname, hkey, hindexes, hrecords, -⟩ := hfound
  have hindexItems : (a.indexes.map indexItem).mapM
      (fun index => index.toList?.bind fun items => items.mapM toText?) = some a.indexes :=
    mapM_map fun names _ => mapM_map fun _ _ => rfl
  have hrecordItems : (a.records.map Snapshot.toCbor).mapM (toSnapshot? (depth - 2)) =
      some a.records :=
    mapM_map fun r hr => toSnapshot?_toCbor (depth - 2) (h r hr)
  unfold toArchive?
  rw [hparts]
  simp only [Option.bind_eq_bind, Option.bind_some, hname, hkey, hindexes, hrecords,
    toOptionalText?_keyItem, toText?_text, toList?_array, hindexItems, hrecordItems]
  rfl

/-! ### How deep an archive nests -/

theorem nestingItems_le_iff (items : List Cbor) (n : Nat) :
    nestingItems items ≤ n ↔ ∀ item ∈ items, item.nesting ≤ n := by
  induction items with
  | nil => simp [nestingItems]
  | cons item rest ih => rw [nestingItems, Nat.max_le, ih, List.forall_mem_cons]

theorem nestingEntries_le_iff (entries : List (Cbor × Cbor)) (n : Nat) :
    nestingEntries entries ≤ n ↔ ∀ e ∈ entries, e.1.nesting ≤ n ∧ e.2.nesting ≤ n := by
  induction entries with
  | nil => simp [nestingEntries]
  | cons e rest ih =>
    obtain ⟨key, item⟩ := e
    rw [nestingEntries, Nat.max_le, Nat.max_le, ih, List.forall_mem_cons]

theorem nesting_array_le_iff (items : List Cbor) (n : Nat) :
    (Cbor.array items).nesting ≤ n + 1 ↔ ∀ item ∈ items, item.nesting ≤ n := by
  rw [nesting, Nat.add_le_add_iff_right, nestingItems_le_iff]

theorem nesting_map_parts_le_iff (parts : List (String × Cbor)) (n : Nat) :
    (Cbor.map (parts.map fun e => part e.1 e.2)).nesting ≤ n + 1 ↔
      ∀ e ∈ parts, e.2.nesting ≤ n := by
  rw [nesting, Nat.add_le_add_iff_right, nestingEntries_le_iff, List.forall_mem_map]
  simp [part, nesting]

theorem nesting_snapshot (r : Snapshot) :
    (Snapshot.toCbor r).nesting = (Value.map r.fields).nesting + 1 := by
  have hfields : (Fields.toCbor r.fields).nesting = (Value.map r.fields).nesting :=
    (Value.written_toCbor (.map r.fields)).nesting
  rw [← hfields]
  simp [Snapshot.toCbor, nesting, nestingEntries]

/-- An archive nests three levels deeper than the fields of its records. -/
theorem nesting_archive_le_iff (a : Archive) (n : Nat) :
    (Archive.toCbor a).nesting ≤ n + 3 ↔ ∀ r ∈ a.records, (Value.map r.fields).nesting ≤ n := by
  have hindexes : (Cbor.array (a.indexes.map indexItem)).nesting ≤ n + 2 := by
    rw [nesting_array_le_iff, List.forall_mem_map]
    intro names _
    apply (nesting_array_le_iff _ _).mpr
    rw [List.forall_mem_map]
    exact fun _ _ => Nat.zero_le n
  have hkey : (keyItem a.keyField).nesting ≤ n + 2 := by
    cases a.keyField <;> exact Nat.zero_le _
  have hrecords : (Cbor.array (a.records.map Snapshot.toCbor)).nesting ≤ n + 2 ↔
      ∀ r ∈ a.records, (Value.map r.fields).nesting ≤ n := by
    rw [nesting_array_le_iff, List.forall_mem_map]
    simp only [nesting_snapshot, Nat.add_le_add_iff_right]
  rw [toCbor_archive, nesting_map_parts_le_iff, ← hrecords]
  unfold archiveParts
  simp only [List.forall_mem_cons, hindexes, hkey, true_and]
  simp [nesting]

/-! ### Archives from bytes -/

theorem wholeItems_iff (items : List Cbor) : WholeItems items ↔ ∀ item ∈ items, item.Whole := by
  induction items with
  | nil => simp [WholeItems]
  | cons item rest ih => rw [WholeItems, ih, List.forall_mem_cons]

theorem whole_parts (parts : List (String × Cbor)) :
    (Cbor.map (parts.map fun e => part e.1 e.2)).Whole ↔ ∀ e ∈ parts, e.2.Whole := by
  have hentries : WholeEntries (parts.map fun e => part e.1 e.2) ↔ ∀ e ∈ parts, e.2.Whole := by
    induction parts with
    | nil => simp [WholeEntries]
    | cons e rest ih =>
      rw [List.map_cons, List.forall_mem_cons, ← ih]
      simp [part, WholeEntries, Whole]
  exact hentries

theorem whole_snapshot {r : Snapshot} (h : r.position < 2 ^ 64) : (Snapshot.toCbor r).Whole := by
  have hfields : (Fields.toCbor r.fields).Whole := (Value.written_toCbor (.map r.fields)).whole
  apply (whole_parts [("key", .text false r.key), ("position", .unsigned r.position),
    ("fields", Fields.toCbor r.fields)]).mpr
  simp only [List.forall_mem_cons]
  exact ⟨rfl, h, hfields, fun _ he => absurd he List.not_mem_nil⟩

theorem whole_archive {a : Archive} (h : ∀ r ∈ a.records, r.position < 2 ^ 64) :
    (Archive.toCbor a).Whole := by
  have hindexes : (Cbor.array (a.indexes.map indexItem)).Whole := by
    apply (wholeItems_iff _).mpr
    rw [List.forall_mem_map]
    intro names _
    apply (wholeItems_iff _).mpr
    rw [List.forall_mem_map]
    exact fun _ _ => rfl
  have hrecords : (Cbor.array (a.records.map Snapshot.toCbor)).Whole := by
    apply (wholeItems_iff _).mpr
    rw [List.forall_mem_map]
    exact fun r hr => whole_snapshot (h r hr)
  have hkey : (keyItem a.keyField).Whole := by
    cases a.keyField with
    | none => trivial
    | some name => rfl
  rw [toCbor_archive, whole_parts]
  unfold archiveParts
  simp only [List.forall_mem_cons]
  exact ⟨rfl, hkey, hindexes, hrecords, fun _ he => absurd he List.not_mem_nil⟩

/-- The bytes of an archive give the archive back when the fields of its records nest within what
the reader leaves to them, and are refused when those of some record nest deeper, whatever follows
them. -/
theorem readArchive?_encode_append {a : Archive}
    (hordered : ∀ r ∈ a.records, Value.Ordered (.map r.fields))
    (hpositions : ∀ r ∈ a.records, r.position < 2 ^ 64)
    (hcounted : (Archive.toCbor a).Counted) (rest : Bytes) :
    readArchive? (encode (Archive.toCbor a) ++ rest) =
      if ∀ r ∈ a.records, (Value.map r.fields).nesting + 3 ≤ nestingLimit then some a
      else none := by
  have hnesting : (Archive.toCbor a).nesting ≤ nestingLimit ↔
      ∀ r ∈ a.records, (Value.map r.fields).nesting + 3 ≤ nestingLimit := by
    rw [show nestingLimit = 253 + 3 from rfl, nesting_archive_le_iff]
    simp only [Nat.add_le_add_iff_right]
  unfold readArchive?
  rw [read?_encode_append (whole_archive hpositions) hcounted]
  simp only [hnesting]
  split_ifs
  · exact toArchive?_toCbor nestingLimit hordered
  · rfl

theorem readArchive?_encode {a : Archive}
    (hordered : ∀ r ∈ a.records, Value.Ordered (.map r.fields))
    (hpositions : ∀ r ∈ a.records, r.position < 2 ^ 64)
    (hlength : (encode (Archive.toCbor a)).length < 2 ^ 64) :
    readArchive? (encode (Archive.toCbor a)) =
      if ∀ r ∈ a.records, (Value.map r.fields).nesting + 3 ≤ nestingLimit then some a
      else none := by
  have hread := readArchive?_encode_append hordered hpositions (counted_of_length _ hlength) []
  rwa [List.append_nil] at hread

end Cbor

end IndexedStore
