import IndexedStore.Sorting.Order
import IndexedStore.Value.Key
import IndexedStore.Record
import IndexedStore.Text.Lowercase

/-!
Sorting by buckets. For each key the records are parted by the bucket of their value, the buckets
are put in order, and each is sorted by the remaining keys; the last order is by position.
-/
namespace IndexedStore.Sorting

/-- The bucket of a value: its number, or its key text in lower case. -/
def bucketOf (v : Value) : String :=
  match v.asNumber? with
  | some _ => v.bucketText
  | none => Text.lowercase v.keyText

def firstSeen (texts : List String) : List String := texts.eraseDups

def orderedBuckets (direction : Direction) (buckets : List String) : List String :=
  let ascending := buckets.mergeSort fun a b => (Value.text a).sortCompare (.text b) != .gt
  match direction with
  | .ascending => ascending
  | .descending => ascending.reverse

def sortLevel : List SortKey → List Snapshot → List Snapshot
  | [], records => records.mergeSort fun a b => a.position ≤ b.position
  | key :: rest, records =>
    if records.length < 2 then records
    else
      let parted := records.map fun r => (bucketOf (Fields.value r.fields key.field), r)
      let buckets := orderedBuckets key.direction (firstSeen (parted.map (·.1)))
      buckets.flatMap fun bucket =>
        sortLevel rest ((parted.filter (·.1 == bucket)).map (·.2))

def bucketSort (order : SortOrder) (records : List Snapshot) : List Snapshot :=
  if records.isEmpty then [] else sortLevel order.keys records

end IndexedStore.Sorting
