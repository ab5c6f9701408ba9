import IndexedStore.Sorting.Order
import IndexedStore.Query.Where

/-!
Sorted views that are kept for the next time. A view is stamped with the revision it was made at
and is given out at that revision only.
-/
namespace IndexedStore

structure View where
  revision : Nat
  records : List Snapshot

structure ViewCache where
  views : SortedMap View

namespace ViewCache

def empty : ViewCache := ⟨[]⟩

/-- The name of the view of an order and a filter; none when the filter has predicates. -/
def keyFor (order : SortOrder) (filter : Option Where) : Option String :=
  match filter with
  | none => some order.signature
  | some q => q.cacheKey?.map fun key => order.signature ++ "@" ++ key

def get? (c : ViewCache) (key : String) (revision : Nat) : Option (List Snapshot) :=
  match SortedMap.get? c.views key with
  | some view => if view.revision = revision then some view.records else none
  | none => none

def put (c : ViewCache) (key : String) (revision : Nat) (records : List Snapshot) : ViewCache :=
  ⟨SortedMap.insert c.views key ⟨revision, records⟩⟩

def size (c : ViewCache) : Nat := c.views.length

end ViewCache
end IndexedStore
