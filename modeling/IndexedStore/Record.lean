import IndexedStore.Value

/-!
Records: live ones with their place in the indexes, the copies that callers see, and whole
stores as they are saved.
-/
namespace IndexedStore

/-- The value of a field; a missing field is null. -/
def Fields.value (fields : Fields) (name : String) : Value :=
  (SortedMap.get? fields name).getD .null

structure Snapshot where
  key : String
  position : Nat
  fields : Fields

instance : Inhabited Snapshot := ⟨"", 0, []⟩

/-- A record of a store. Its memberships are the index and bucket of each index that holds it. -/
structure Record where
  position : Nat
  key : String
  fields : Fields
  memberships : List (String × String)

def Record.snapshot (r : Record) : Snapshot := ⟨r.key, r.position, r.fields⟩

structure Archive where
  name : String
  keyField : Option String
  indexes : List (List String)
  records : List Snapshot

end IndexedStore
