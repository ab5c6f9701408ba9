import IndexedStore.Cbor.Reader
import IndexedStore.Record

/-!
Values, fields, records and archives in the binary form. A value admits any item without tags; a
record is a map with fixed names, in which other names are passed over with what they name. Where
one shape is expected, tags in front of an item do not count; in what is passed over each tag
counts as one more level of nesting.
-/
namespace IndexedStore

namespace Cbor

def entryName? : Cbor → Option String
  | .text _ s => some s
  | .bytes _ bs => bs.toText?
  | _ => none

mutual

def toValue? : Cbor → Option Value
  | .unsigned n => some (.number (Number.ofInt n))
  | .negative n =>
    if n < Nat.pow 2 63 then some (.number (Number.ofInt (-1 - (n : Int)))) else none
  | .bytes _ bs => bs.toText?.map .text
  | .text _ s => some (.text s)
  | .array items => (itemValues? items).map .list
  | .map entries => (entryValues? [] entries).map .map
  | .tagged _ _ => none
  | .bool b => some (.bool b)
  | .null => some .null
  | .undefined => some .null
  | .float x => some (.number x)

def itemValues? : List Cbor → Option (List Value)
  | [] => some []
  | item :: rest =>
    match toValue? item, itemValues? rest with
    | some v, some vs => some (v :: vs)
    | _, _ => none

/-- The entries added to those before; a later entry replaces an earlier one of the same name. -/
def entryValues? (before : List (String × Value)) :
    List (Cbor × Cbor) → Option (List (String × Value))
  | [] => some before
  | (key, item) :: rest =>
    match entryName? key, toValue? item with
    | some name, some v => entryValues? (SortedMap.insert before name v) rest
    | _, _ => none

end

def untagged : Cbor → Cbor
  | .tagged _ item => untagged item
  | item => item

def toText? (item : Cbor) : Option String :=
  match item.untagged with
  | .text _ s => some s
  | _ => none

/-- Names of a record's parts come whole and are at most this long. -/
def partNameLimit : Nat := 4096

def partName? (item : Cbor) : Option Bytes :=
  let named := match item.untagged with
    | .text false s => some (Bytes.ofText s)
    | .bytes false bs => some bs
    | _ => none
  named.filter fun name => name.length ≤ partNameLimit

/-- The items where a list is expected; an empty byte string is an empty list. -/
def toList? (item : Cbor) : Option (List Cbor) :=
  match item.untagged with
  | .array items => some items
  | .bytes _ [] => some []
  | _ => none

/-- The number that a byte string writes, at most 16 bytes beside leading zeros. -/
def bigNatural? (bs : Bytes) : Option Nat :=
  let significant := bs.dropWhile (· = 0)
  if significant.length ≤ 16 then some (Bytes.toNat significant) else none

def toNat? : Cbor → Option Nat
  | .unsigned n => some n
  | .tagged 2 (.bytes _ bs) => (bigNatural? bs).filter (· < Nat.pow 2 64)
  | .tagged tag item => if tag = 2 ∨ tag = 3 then none else toNat? item
  | _ => none

def toFields? (item : Cbor) : Option Fields :=
  match item.untagged with
  | .map entries =>
    entries.foldlM (fun fields (key, item) => do
      let name ← key.toText?
      let v ← item.toValue?
      return SortedMap.insert fields name v) []
  | _ => none

/-- Whole bytes under the tag of a long number are read as that number if they are no more. -/
def longNumberWidth : Nat := 16

/-- Whether tagged bytes are read as a long number, and whether that number is in range: the
negative ones go down to `-2 ^ 127`. -/
def longNumber? : Nat → Cbor → Option Bool
  | 2, .bytes false bs => if bs.length ≤ longNumberWidth then some true else none
  | 3, .bytes false bs =>
    if bs.length ≤ longNumberWidth then some (Bytes.toNat bs < Nat.pow 2 127) else none
  | _, _ => none

mutual

def passable (depth : Nat) : Cbor → Bool
  | .tagged tag item =>
    match longNumber? tag item, depth with
    | some inRange, _ => inRange
    | none, 0 => false
    | none, depth + 1 => passable depth item
  | .array items =>
    match depth with
    | 0 => false
    | depth + 1 => passableItems depth items
  | .map entries =>
    match depth with
    | 0 => false
    | depth + 1 => passableEntries depth entries
  | _ => true

def passableItems (depth : Nat) : List Cbor → Bool
  | [] => true
  | item :: rest => passable depth item && passableItems depth rest

def passableEntries (depth : Nat) : List (Cbor × Cbor) → Bool
  | [] => true
  | (key, item) :: rest => passable depth key && passable depth item && passableEntries depth rest

end

/-- The parts of a record under the given names, each at most once, where `depth` more levels of
nesting are left to the record. -/
def toParts? (depth : Nat) (names : List String) (item : Cbor) : Option (SortedMap Cbor) :=
  match item.untagged with
  | .map entries =>
    entries.foldlM (fun parts (key, item) => do
      let written ← key.partName?
      match names.find? (Bytes.ofText · = written) with
      | none => if passable (depth - 1) item then some parts else none
      | some name =>
        if SortedMap.contains parts name then none else some (SortedMap.insert parts name item)) []
  | _ => none

def toSnapshot? (depth : Nat) (item : Cbor) : Option Snapshot := do
  let parts ← item.toParts? depth ["key", "position", "fields"]
  let key ← (← SortedMap.get? parts "key").toText?
  let position ← (← SortedMap.get? parts "position").toNat?
  let fields ← (← SortedMap.get? parts "fields").toFields?
  return ⟨key, position, fields⟩

def toOptionalText? : Option Cbor → Option (Option String)
  | none => some none
  | some .null => some none
  | some .undefined => some none
  | some item => item.toText?.map some

def toArchive? (depth : Nat) (item : Cbor) : Option Archive := do
  let parts ← item.toParts? depth ["name", "key", "indexes", "records"]
  let name ← (← SortedMap.get? parts "name").toText?
  let keyField ← toOptionalText? (SortedMap.get? parts "key")
  let indexes ← (← (← SortedMap.get? parts "indexes").toList?).mapM fun index => do
    (← index.toList?).mapM toText?
  let records ← (← (← SortedMap.get? parts "records").toList?).mapM (toSnapshot? (depth - 2))
  return ⟨name, keyField, indexes, records⟩

def readSnapshot? (bs : Bytes) : Option Snapshot := (read? bs).bind (toSnapshot? nestingLimit)

def readArchive? (bs : Bytes) : Option Archive := (read? bs).bind (toArchive? nestingLimit)

end Cbor

namespace Value

mutual

def toCbor : Value → Cbor
  | .null => .null
  | .bool b => .bool b
  | .number x => .float x
  | .text s => .text false s
  | .list items => .array (itemsToCbor items)
  | .map entries => .map (entriesToCbor entries)

def itemsToCbor : List Value → List Cbor
  | [] => []
  | v :: rest => toCbor v :: itemsToCbor rest

def entriesToCbor : List (String × Value) → List (Cbor × Cbor)
  | [] => []
  | (name, v) :: rest => (.text false name, toCbor v) :: entriesToCbor rest

end

end Value

def Fields.toCbor (fields : Fields) : Cbor := .map (Value.entriesToCbor fields)

def Snapshot.toCbor (s : Snapshot) : Cbor := .map [
  (.text false "key", .text false s.key),
  (.text false "position", .unsigned s.position),
  (.text false "fields", Fields.toCbor s.fields)]

def Archive.toCbor (a : Archive) : Cbor :=
  let texts (names : List String) : Cbor := .array (names.map (.text false ·))
  .map [
    (.text false "name", .text false a.name),
    (.text false "key", match a.keyField with | some name => .text false name | none => .null),
    (.text false "indexes", .array (a.indexes.map texts)),
    (.text false "records", .array (a.records.map Snapshot.toCbor))]

end IndexedStore
