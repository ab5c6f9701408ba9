import IndexedStore.Proofs.Archives

/-!
The binary form read back. A value, the fields of a record, a record and an archive come back from
their bytes as they were, to the last bit of each number, and what stands behind the bytes is
ignored. They come back exactly when they nest within the limit of the reader, of which a record
takes one level and an archive three.
-/
namespace IndexedStore

/-- A value as programs hold it: maps in the order of their names, lengths and counts of 64 bits. -/
structure Value.WellFormed (v : Value) : Prop where
  ordered : v.Ordered
  counted : v.Counted

structure Snapshot.WellFormed (r : Snapshot) : Prop where
  key : r.key.utf8ByteSize < 2 ^ 64
  position : r.position < 2 ^ 64
  fields : (Value.map r.fields).WellFormed

structure Archive.WellFormed (a : Archive) : Prop where
  name : a.name.utf8ByteSize < 2 ^ 64
  keyField : ∀ name ∈ a.keyField, name.utf8ByteSize < 2 ^ 64
  indexes : a.indexes.length < 2 ^ 64
  indexed : ∀ names ∈ a.indexes, names.length < 2 ^ 64 ∧ ∀ name ∈ names, name.utf8ByteSize < 2 ^ 64
  records : a.records.length < 2 ^ 64
  recorded : ∀ r ∈ a.records, r.WellFormed

namespace Cbor

/-! ### Lengths of records and archives -/

theorem countedItems_iff (items : List Cbor) :
    CountedItems items ↔ ∀ item ∈ items, item.Counted := by
  induction items with
  | nil => simp [CountedItems]
  | cons item rest ih => rw [CountedItems, ih, List.forall_mem_cons]

theorem counted_array_map {α : Type} {f : α → Cbor} {l : List α} (hlength : l.length < 2 ^ 64)
    (h : ∀ x ∈ l, (f x).Counted) : (Cbor.array (l.map f)).Counted := by
  refine ⟨?_, (countedItems_iff _).mpr (List.forall_mem_map.mpr h)⟩
  rw [List.length_map]
  exact hlength

theorem counted_parts (parts : List (String × Cbor)) (hlength : parts.length < 2 ^ 64)
    (hnames : ∀ e ∈ parts, e.1.utf8ByteSize < 2 ^ 64) (h : ∀ e ∈ parts, e.2.Counted) :
    (Cbor.map (parts.map fun e => part e.1 e.2)).Counted := by
  have hentries : CountedEntries (parts.map fun e => part e.1 e.2) := by
    clear hlength
    induction parts with
    | nil => exact trivial
    | cons e rest ih =>
      rw [List.forall_mem_cons] at hnames h
      exact ⟨⟨hnames.1, h.1⟩, ih hnames.2 h.2⟩
  refine ⟨?_, hentries⟩
  rw [List.length_map]
  exact hlength

theorem counted_snapshot {r : Snapshot} (h : r.WellFormed) : (Snapshot.toCbor r).Counted := by
  have hfields : (Fields.toCbor r.fields).Counted :=
    (Value.written_toCbor (.map r.fields)).counted h.fields.counted
  apply counted_parts [("key", .text false r.key), ("position", .unsigned r.position),
    ("fields", Fields.toCbor r.fields)] (by decide : 3 < 2 ^ 64)
  · simp only [List.forall_mem_cons]
    exact ⟨by decide, by decide, by decide, fun _ he => absurd he List.not_mem_nil⟩
  · simp only [List.forall_mem_cons]
    exact ⟨h.key, trivial, hfields, fun _ he => absurd he List.not_mem_nil⟩

theorem counted_archive {a : Archive} (h : a.WellFormed) : (Archive.toCbor a).Counted := by
  have hkey : (keyItem a.keyField).Counted := by
    cases hname : a.keyField with
    | none => trivial
    | some name => exact h.keyField name hname
  have hindexes : (Cbor.array (a.indexes.map indexItem)).Counted :=
    counted_array_map h.indexes fun names hnames =>
      counted_array_map (h.indexed names hnames).1 (h.indexed names hnames).2
  have hrecords : (Cbor.array (a.records.map Snapshot.toCbor)).Counted :=
    counted_array_map h.records fun r hr => counted_snapshot (h.recorded r hr)
  rw [toCbor_archive]
  apply counted_parts (archiveParts a) (by decide : 4 < 2 ^ 64)
  · unfold archiveParts
    simp only [List.forall_mem_cons]
    exact ⟨by decide, by decide, by decide, by decide, fun _ he => absurd he List.not_mem_nil⟩
  · unfold archiveParts
    simp only [List.forall_mem_cons]
    exact ⟨h.name, hkey, hindexes, hrecords, fun _ he => absurd he List.not_mem_nil⟩

/-! ### Reading back -/

theorem read?_value {v : Value} (h : v.Counted) (rest : Bytes) :
    read? (encode v.toCbor ++ rest) = if v.nesting ≤ nestingLimit then some v.toCbor else none := by
  have hwritten := Value.written_toCbor v
  rw [read?_encode_append hwritten.whole (hwritten.counted h), hwritten.nesting]

theorem toValue?_of_encode {v : Value} (h : v.WellFormed) (rest : Bytes) :
    (read? (encode v.toCbor ++ rest)).bind toValue? =
      if v.nesting ≤ nestingLimit then some v else none := by
  rw [read?_value h.counted]
  split_ifs
  · exact (Value.written_toCbor v).read h.ordered
  · rfl

theorem toFields?_of_encode {fields : Fields} (h : (Value.map fields).WellFormed) (rest : Bytes) :
    (read? (encode (Fields.toCbor fields) ++ rest)).bind toFields? =
      if (Value.map fields).nesting ≤ nestingLimit then some fields else none := by
  have hread := read?_value h.counted rest
  rw [Value.toCbor] at hread
  unfold Fields.toCbor
  rw [hread]
  split_ifs
  · exact toFields?_toCbor h.ordered
  · rfl

theorem readSnapshot?_of_encode {r : Snapshot} (h : r.WellFormed) (rest : Bytes) :
    readSnapshot? (encode (Snapshot.toCbor r) ++ rest) =
      if (Value.map r.fields).nesting + 1 ≤ nestingLimit then some r else none := by
  unfold readSnapshot?
  rw [read?_encode_append (whole_snapshot h.position) (counted_snapshot h), nesting_snapshot]
  split_ifs
  · exact toSnapshot?_toCbor nestingLimit h.fields.ordered
  · rfl

theorem readArchive?_of_encode {a : Archive} (h : a.WellFormed) (rest : Bytes) :
    readArchive? (encode (Archive.toCbor a) ++ rest) =
      if ∀ r ∈ a.records, (Value.map r.fields).nesting + 3 ≤ nestingLimit then some a else none :=
  readArchive?_encode_append (fun r hr => (h.recorded r hr).fields.ordered)
    (fun r hr => (h.recorded r hr).position) (counted_archive h) rest

/-- Values, fields, records and archives within the limit of nesting come back from their bytes,
whatever follows these, and those beyond it are refused. -/
theorem readsBack_encoded (rest : Bytes) :
    (∀ v : Value, v.WellFormed →
      (read? (encode v.toCbor ++ rest)).bind toValue? =
        if v.nesting ≤ nestingLimit then some v else none) ∧
    (∀ fields : Fields, (Value.map fields).WellFormed →
      (read? (encode (Fields.toCbor fields) ++ rest)).bind toFields? =
        if (Value.map fields).nesting ≤ nestingLimit then some fields else none) ∧
    (∀ r : Snapshot, r.WellFormed →
      readSnapshot? (encode (Snapshot.toCbor r) ++ rest) =
        if (Value.map r.fields).nesting + 1 ≤ nestingLimit then some r else none) ∧
    ∀ a : Archive, a.WellFormed →
      readArchive? (encode (Archive.toCbor a) ++ rest) =
        if ∀ r ∈ a.records, (Value.map r.fields).nesting + 3 ≤ nestingLimit then some a
        else none :=
  ⟨fun _ h => toValue?_of_encode h rest, fun _ h => toFields?_of_encode h rest,
    fun _ h => readSnapshot?_of_encode h rest, fun _ h => readArchive?_of_encode h rest⟩

def nested : Nat → Value
  | 0 => .null
  | n + 1 => .list [nested n]

theorem nesting_nested (n : Nat) : (nested n).nesting = n := by
  induction n with
  | zero => rfl
  | succ n ih =>
    change max (nested n).nesting 0 + 1 = n + 1
    rw [ih, Nat.max_zero]

theorem wellFormed_nested (n : Nat) : (nested n).WellFormed := by
  induction n with
  | zero => exact ⟨trivial, trivial⟩
  | succ n ih => exact ⟨⟨ih.ordered, trivial⟩, (by decide : 1 < 2 ^ 64), ih.counted, trivial⟩

/-- Empty lists and maps, texts with a quote and beyond ASCII, and numbers of every width: the
negative zero, 100000, the nearest to a tenth, and an undefined number. -/
def manyShapes : Fields :=
  [("", .map []),
    ("é", .list [.list [], .null, .bool true, .text "\"ü", .number (Number.ofCode true 0),
      .number (Number.ofInt 100000), .number (Number.ofCode false 4591870180066957722),
      .number (Number.undefined true)])]

def manyShapesRecord : Snapshot := ⟨"a", 7, manyShapes⟩

def manyShapesArchive : Archive := ⟨"people", some "id", [["age", "city"], []], [manyShapesRecord]⟩

theorem wellFormed_manyShapes : (Value.map manyShapes).WellFormed := by
  have hsorted : SortedMap.Sorted manyShapes := by
    unfold SortedMap.Sorted
    decide
  constructor
  · refine ⟨hsorted, ?_⟩
    simp [manyShapes, Value.OrderedEntries, Value.OrderedItems, Value.Ordered, SortedMap.Sorted]
  · unfold manyShapes
    simp only [Value.Counted, Value.CountedEntries, Value.CountedItems, and_true, true_and]
    decide

theorem wellFormed_manyShapesRecord : manyShapesRecord.WellFormed :=
  ⟨by decide, by decide, wellFormed_manyShapes⟩

theorem wellFormed_manyShapesArchive : manyShapesArchive.WellFormed := by
  refine ⟨by decide, by decide, by decide, by decide, by decide, fun r hr => ?_⟩
  rw [List.mem_singleton.mp hr]
  exact wellFormed_manyShapesRecord

theorem readsBack_manyShapes :
    manyShapesArchive.WellFormed ∧ (Value.map manyShapes).nesting = 3 ∧
    (read? (encode (Value.map manyShapes).toCbor ++ [0xff])).bind toValue? =
      some (.map manyShapes) ∧
    (read? (encode (Fields.toCbor manyShapes) ++ [0xff])).bind toFields? = some manyShapes ∧
    readSnapshot? (encode (Snapshot.toCbor manyShapesRecord) ++ [0xff]) = some manyShapesRecord ∧
    readArchive? (encode (Archive.toCbor manyShapesArchive) ++ [0xff]) = some manyShapesArchive ∧
    (nested 256).WellFormed ∧ (nested 257).WellFormed ∧
    (read? (encode (nested 256).toCbor ++ [0xff])).bind toValue? = some (nested 256) ∧
    (read? (encode (nested 257).toCbor ++ [0xff])).bind toValue? = none := by
  obtain ⟨hvalue, hfields, hrecord, harchive⟩ := readsBack_encoded [0xff]
  have hnesting : (Value.map manyShapes).nesting = 3 := rfl
  have harchived : ∀ r ∈ manyShapesArchive.records,
      (Value.map r.fields).nesting + 3 ≤ nestingLimit := by
    intro r hr
    rw [List.mem_singleton.mp hr]
    decide
  refine ⟨wellFormed_manyShapesArchive, hnesting, ?_, ?_, ?_, ?_, wellFormed_nested 256,
    wellFormed_nested 257, ?_, ?_⟩
  · rw [hvalue _ wellFormed_manyShapes, if_pos (by decide)]
  · rw [hfields _ wellFormed_manyShapes, if_pos (by decide)]
  · rw [hrecord _ wellFormed_manyShapesRecord]
    exact if_pos (by decide)
  · rw [harchive _ wellFormed_manyShapesArchive, if_pos harchived]
  · rw [hvalue _ (wellFormed_nested 256), nesting_nested, if_pos (by decide)]
  · rw [hvalue _ (wellFormed_nested 257), nesting_nested, if_neg (by decide)]

end Cbor
end IndexedStore
