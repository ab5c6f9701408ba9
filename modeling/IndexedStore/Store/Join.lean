import IndexedStore.Store.Basic

/-!
Rows that join the records of two stores by a field. A value joins with every value in query
equality; null joins with nothing. The records of one side are put into buckets once, and every
record of the other side looks its bucket up.
-/
namespace IndexedStore

inductive JoinKind where
  | inner
  | left
  | right
deriving DecidableEq, Repr

structure JoinSide where
  name : String
  records : List Snapshot
  columns : List String

namespace JoinSide

def ofStore (s : Store) : JoinSide :=
  let records := s.contents.snapshots
  ⟨s.name, records, SortedMap.distinct (records.flatMap fun r => SortedMap.names r.fields)⟩

def rowName (side : JoinSide) (column : String) : String := side.name ++ "_" ++ column

/-- What stands under a column for a record; a side without a record gives null. -/
def cell (record : Option Snapshot) (column : String) : Value :=
  match record with
  | some r => Fields.value r.fields column
  | none => .null

def write (side : JoinSide) (row : Fields) (record : Option Snapshot) : Fields :=
  side.columns.foldl (fun row column =>
    SortedMap.insert row (side.rowName column) (cell record column)) row

/-- Puts a record into the bucket of its value of a field; null has no bucket. -/
def addToBucket (field : String) (buckets : SortedMap (List Snapshot)) (r : Snapshot) :
    SortedMap (List Snapshot) :=
  let v := Fields.value r.fields field
  if v.isNull then buckets
  else
    SortedMap.insert buckets v.bucketText ((SortedMap.get? buckets v.bucketText).getD [] ++ [r])

def buckets (side : JoinSide) (field : String) : SortedMap (List Snapshot) :=
  side.records.foldl (addToBucket field) []

end JoinSide

namespace Store

def joinRow (driver other : JoinSide) (r : Snapshot) (counterpart : Option Snapshot) : Fields :=
  other.write (driver.write [] (some r)) counterpart

def joinRows (driver other : JoinSide) (buckets : SortedMap (List Snapshot)) (field : String)
    (kind : JoinKind) (r : Snapshot) : List Fields :=
  let v := Fields.value r.fields field
  match if v.isNull then none else SortedMap.get? buckets v.bucketText with
  | some found => found.map fun counterpart => joinRow driver other r (some counterpart)
  | none => if kind = .inner then [] else [joinRow driver other r none]

/-- The rows that join two stores by a field. The right store drives a right join, and the left
one drives the others. -/
def join (left right : Store) (field : String) (kind : JoinKind) : List Fields :=
  let left := JoinSide.ofStore left
  let right := JoinSide.ofStore right
  let (driver, other) := if kind = .right then (right, left) else (left, right)
  driver.records.flatMap (joinRows driver other (other.buckets field) field kind)

end Store
end IndexedStore
