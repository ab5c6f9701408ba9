import IndexedStore.Store.Basic

/-!
Inspections: what can be said of a store from copies of its records. The buckets of an index are
counted anew from the fields that its signature names, so the count checks the index itself.
-/
namespace IndexedStore

structure Inspection where
  name : String
  records : Nat
  revision : Nat
  /-- The signature of each index, with the number of its buckets. -/
  indexes : List (String × Nat)
  problems : List Catalog.Problem
  /-- The names of all fields. -/
  fields : List String

namespace Inspection

def bucketCount (signature : String) (records : List Snapshot) : Nat :=
  let names := (Text.splitAt Bucket.separator signature.toList).map String.ofList
  (records.map fun r => Bucket.ofFields names r.fields).eraseDups.length

def ofStore (s : Store) : Inspection :=
  let records := s.contents.snapshots
  { name := s.name
    records := s.size
    revision := s.revision
    indexes := s.contents.catalog.signatures.map fun signature =>
      (signature, bucketCount signature records)
    problems := s.verify
    fields := SortedMap.distinct (records.flatMap fun r => SortedMap.names r.fields) }

end Inspection
end IndexedStore
