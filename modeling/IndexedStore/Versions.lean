import IndexedStore.Lru
import IndexedStore.Value

/-!
Earlier fields of records. Each record keeps its latest versions up to a limit, under labels that
count all versions of the store.
-/
namespace IndexedStore

structure RecordVersions where
  versions : Lru String Fields
  order : List String

def RecordVersions.add (r : RecordVersions) (name : String) (fields : Fields) : RecordVersions :=
  match r.versions.set name fields with
  | (some (evicted, _), versions) => ⟨versions, r.order.filter (· != evicted) ++ [name]⟩
  | (none, versions) => ⟨versions, r.order ++ [name]⟩

structure Versions where
  records : SortedMap RecordVersions
  limit : Nat
  next : Nat

namespace Versions

/-- The empty history with a limit for each record, which is at least one. -/
def empty (limit : Nat) : Versions := ⟨[], max limit 1, 0⟩

def label (n : Nat) : String := s!"v{n}"

def add (v : Versions) (key : String) (fields : Fields) : String × Versions :=
  let name := label v.next
  let before := (SortedMap.get? v.records key).getD ⟨.empty v.limit, []⟩
  (name, { v with
    records := SortedMap.insert v.records key (before.add name fields),
    next := v.next + 1 })

def get? (v : Versions) (key name : String) : Option Fields :=
  (SortedMap.get? v.records key).bind fun r => r.versions.peek? name

def labels (v : Versions) (key : String) : List String :=
  ((SortedMap.get? v.records key).map (·.order)).getD []

def oldest? (v : Versions) (key : String) : Option (String × Fields) :=
  match v.labels key with
  | [] => none
  | name :: _ => (v.get? key name).map fun fields => (name, fields)

def contains (v : Versions) (key : String) : Bool := SortedMap.contains v.records key

def remove (v : Versions) (key : String) : Versions :=
  { v with records := SortedMap.erase v.records key }

/-- Forgets all versions; labels count on. -/
def clear (v : Versions) : Versions := { v with records := [] }

def size (v : Versions) : Nat := v.records.length

end Versions
end IndexedStore
