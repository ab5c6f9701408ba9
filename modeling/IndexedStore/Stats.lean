/-!
Counts of what a store did.
-/
namespace IndexedStore

structure Stats where
  reads : Nat
  writes : Nat
  deletes : Nat
  scans : Nat
  indexLookups : Nat
  sorts : Nat
  viewHits : Nat
  workerDispatches : Nat
  workerFallbacks : Nat
  reindexes : Nat
  errors : Nat
deriving DecidableEq, Repr

def Stats.zero : Stats := ⟨0, 0, 0, 0, 0, 0, 0, 0, 0, 0, 0⟩

end IndexedStore
