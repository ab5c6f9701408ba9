import IndexedStore.Index.Secondary
import IndexedStore.Error

/-!
The indexes of a store: the primary one from keys to positions, and the declared secondary ones
by signature. A record carries the buckets it was filed under, so it leaves exactly those.
-/
namespace IndexedStore

structure Catalog where
  primary : SortedMap Nat
  secondary : SortedMap SecondaryIndex
deriving DecidableEq

namespace Catalog

def empty : Catalog := ⟨[], []⟩

/-- Field names of an index: in ascending order, each once, none empty or with a separator. -/
def canonicalFields (names : List String) : Except ArgumentFault (List String) :=
  if names.isEmpty then .error .indexWithoutFields
  else
    match names.find? fun name => name.isEmpty || name.toList.contains Bucket.separator with
    | some name =>
      .error (if name.isEmpty then .indexFieldEmpty else .indexFieldSeparated name)
    | none => .ok (SortedMap.distinct names)

structure Declared where
  signature : String
  created : Bool
  catalog : Catalog

def declare (c : Catalog) (names : List String) : Except ArgumentFault Declared :=
  match canonicalFields names with
  | .error fault => .error fault
  | .ok fields =>
    let signature := Bucket.signature fields
    if SortedMap.contains c.secondary signature then .ok ⟨signature, false, c⟩
    else
      .ok ⟨signature, true,
        { c with secondary := SortedMap.insert c.secondary signature (.empty fields) }⟩

def file (c : Catalog) (r : Record) : Catalog × Record :=
  let filed := c.secondary.map fun (signature, ix) =>
    (signature, (ix.insert (ix.bucketOf r.fields) r.position).2)
  let memberships := c.secondary.map fun (signature, ix) => (signature, ix.bucketOf r.fields)
  ({ c with secondary := filed }, { r with memberships := memberships })

def modify (c : Catalog) (signature : String) (f : SecondaryIndex → SecondaryIndex) : Catalog :=
  match SortedMap.get? c.secondary signature with
  | some ix => { c with secondary := SortedMap.insert c.secondary signature (f ix) }
  | none => c

def unfile (c : Catalog) (r : Record) : Catalog × Record :=
  (r.memberships.foldl (fun c (signature, bucket) =>
      c.modify signature fun ix => (ix.remove bucket r.position).2) c,
    { r with memberships := [] })

def insertPrimary (c : Catalog) (key : String) (position : Nat) : Catalog :=
  { c with primary := SortedMap.insert c.primary key position }

def removePrimary (c : Catalog) (key : String) : Catalog :=
  { c with primary := SortedMap.erase c.primary key }

def position? (c : Catalog) (key : String) : Option Nat := SortedMap.get? c.primary key

def reposition (c : Catalog) (r : Record) (position : Nat) : Catalog × Record :=
  if r.position = position then (c, r)
  else
    let moved := r.memberships.foldl (fun c (signature, bucket) =>
      c.modify signature fun ix => (ix.reposition bucket r.position position).2) c
    (moved.insertPrimary r.key position, { r with position := position })

def lookup (c : Catalog) (signature bucket : String) : List Nat :=
  ((SortedMap.get? c.secondary signature).map (·.lookup bucket)).getD []

def hasIndex (c : Catalog) (signature : String) : Bool := SortedMap.contains c.secondary signature

def signatures (c : Catalog) : List String := SortedMap.names c.secondary

def clear (c : Catalog) : Catalog :=
  ⟨[], c.secondary.map fun (signature, ix) => (signature, ix.clear)⟩

/-- Files records from an offset on, one position each. On a fault the records before it keep
their new memberships. -/
def fileAll (c : Catalog) (offset : Nat) : List Record → Except ArgumentFault Catalog × List Record
  | [] => (.ok c, [])
  | r :: rest =>
    if r.position ≠ offset then
      (.error (.misplacedRecord r.key offset r.position), r :: rest)
    else if (c.position? r.key).isSome then (.error (.duplicateKey r.key), r :: rest)
    else
      let (c, r) := (c.insertPrimary r.key offset).file r
      let (result, rest) := fileAll c (offset + 1) rest
      (result, r :: rest)

def rebuild (c : Catalog) (records : List Record) : Except ArgumentFault Catalog × List Record :=
  fileAll c.clear 0 records

end Catalog
end IndexedStore
