import IndexedStore.Events
import IndexedStore.Index.Consistency
import IndexedStore.Selector
import IndexedStore.Versions

/-!
The contents of a store: its records in slots, with their indexes and earlier versions. A record
stands in the slot of its position. A deletion that is to be cleaned up later leaves its slot
empty, and such slots are counted; a reindex closes them.
-/
namespace IndexedStore

structure Contents where
  slots : List (Option Record)
  catalog : Catalog
  versions : Versions
  revision : Nat
  holes : Nat

namespace Contents

def empty (versionLimit : Nat) : Contents := ⟨[], .empty, .empty versionLimit, 0, 0⟩

def live (c : Contents) : List Record := c.slots.filterMap id

def size (c : Contents) : Nat := c.slots.length - c.holes

def recordAt? (c : Contents) (position : Nat) : Option Record := (c.slots[position]?).join

def record? (c : Contents) (key : String) : Option Record :=
  (c.catalog.position? key).bind c.recordAt?

/-- The position that a target names. A word is a key before it is a number. -/
def resolve? (c : Contents) (target : Target) : Option Nat :=
  let occupied (position : Nat) := (c.recordAt? position).map fun _ => position
  match target with
  | .key key => c.catalog.position? key
  | .position position => occupied position
  | .token word =>
    match c.catalog.position? word with
    | some position => some position
    | none => (Text.natural? word.toList).bind occupied

def find? (c : Contents) (target : Target) : Option Record :=
  (c.resolve? target).bind c.recordAt?

def snapshots (c : Contents) : List Snapshot := c.live.map Record.snapshot

def snapshotsAt (c : Contents) (positions : List Nat) : List Snapshot :=
  (positions.filterMap c.recordAt?).map Record.snapshot

def keys (c : Contents) : List String := c.live.map (·.key)

def bump (c : Contents) : Contents := { c with revision := c.revision + 1 }

def fileSlots (catalog : Catalog) : List (Option Record) → Catalog × List (Option Record)
  | [] => (catalog, [])
  | none :: rest =>
    let (catalog, rest) := fileSlots catalog rest
    (catalog, none :: rest)
  | some r :: rest =>
    let (catalog, r) := catalog.file r
    let (catalog, rest) := fileSlots catalog rest
    (catalog, some r :: rest)

/-- Declares an index. A new one takes in all records. -/
def declareIndex (c : Contents) (fields : List String) :
    Except ArgumentFault (String × Contents) :=
  match c.catalog.declare fields with
  | .error fault => .error fault
  | .ok declared =>
    if declared.created then
      let (catalog, slots) := fileSlots declared.catalog c.slots
      .ok (declared.signature, { c with slots := slots, catalog := catalog })
    else .ok (declared.signature, c)

def declareIndexes (c : Contents) (indexes : List (List String)) : Except ArgumentFault Contents :=
  indexes.foldlM (fun c fields => (c.declareIndex fields).map (·.2)) c

/-- The fields of a record after new ones come in: all replaced, or the new ones over the old. -/
def mergedFields (current data : Fields) (overwrite : Bool) : Fields :=
  if overwrite then data else SortedMap.merge current data

structure Stored where
  kind : EventKind
  snapshot : Snapshot
  contents : Contents

def upsert (c : Contents) (key : String) (data : Fields) (overwrite versioning : Bool) : Stored :=
  match c.record? key with
  | some r =>
    let versions := if versioning then (c.versions.add key r.fields).2 else c.versions
    let (catalog, unfiled) := c.catalog.unfile r
    let (catalog, filed) :=
      catalog.file { unfiled with fields := mergedFields r.fields data overwrite }
    ⟨.updated, filed.snapshot, { c with
      slots := c.slots.set r.position (some filed), catalog := catalog, versions := versions }⟩
  | none =>
    let position := c.slots.length
    let (catalog, filed) := (c.catalog.insertPrimary key position).file ⟨position, key, data, []⟩
    ⟨.created, filed.snapshot, { c with slots := c.slots ++ [some filed], catalog := catalog }⟩

def forget (c : Contents) (r : Record) : Contents :=
  let (catalog, _) := c.catalog.unfile r
  { c with catalog := catalog.removePrimary r.key, versions := c.versions.remove r.key }

/-- Takes the record at a position out, leaving its slot empty. -/
def hollow (c : Contents) (position : Nat) : Option (Record × Contents) :=
  (c.recordAt? position).map fun r =>
    (r, { c with slots := c.slots.set position none, holes := c.holes + 1 }.forget r)

/-- Takes the record at a position out together with its slot. The later records keep their
positions for now. -/
def cut (c : Contents) (position : Nat) : Option (Record × Contents) :=
  (c.recordAt? position).map fun r =>
    (r, { c with slots := c.slots.eraseIdx position }.forget r)

def repositionSlots (catalog : Catalog) (offset : Nat) :
    List (Option Record) → Catalog × List (Option Record)
  | [] => (catalog, [])
  | none :: rest =>
    let (catalog, rest) := repositionSlots catalog (offset + 1) rest
    (catalog, none :: rest)
  | some r :: rest =>
    let (catalog, r) := catalog.reposition r offset
    let (catalog, rest) := repositionSlots catalog (offset + 1) rest
    (catalog, some r :: rest)

def compactFrom (c : Contents) (position : Nat) : Contents :=
  let (catalog, moved) := repositionSlots c.catalog position (c.slots.drop position)
  { c with slots := c.slots.take position ++ moved, catalog := catalog }

def dense (c : Contents) : List Record :=
  c.live.mapIdx fun position r => { r with position := position, memberships := [] }

def reindex (c : Contents) : Except ArgumentFault Contents :=
  match c.catalog.rebuild c.dense with
  | (.ok catalog, records) =>
    .ok { c with slots := records.map some, catalog := catalog, holes := 0 }
  | (.error fault, _) => .error fault

/-- No records; declarations and the revision stay. -/
def clear (c : Contents) : Contents :=
  { c with slots := [], catalog := c.catalog.clear, versions := c.versions.clear, holes := 0 }

def problems (c : Contents) : List Catalog.Problem := c.catalog.problems c.slots

end Contents
end IndexedStore
