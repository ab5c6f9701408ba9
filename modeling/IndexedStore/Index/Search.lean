import IndexedStore.Index.Secondary

/-!
Searches in the buckets of an index. A bucket ascends, so the place of a position is found by
halving, and only at that place is the bucket changed.
-/
namespace IndexedStore

inductive Place where
  | found (offset : Nat)
  | vacant (offset : Nat)
deriving DecidableEq, Repr

abbrev Finder := List Nat → Nat → Place

/-- Halves the part of a list from one offset to before another until a position is found. -/
def Place.between (positions : List Nat) (position low high : Nat)
    (h : high ≤ positions.length) : Place :=
  if hlow : low < high then
    let middle := low + (high - low) / 2
    match compare positions[middle] position with
    | .lt => between positions position (middle + 1) high h
    | .eq => .found middle
    | .gt => between positions position low middle (by omega)
  else .vacant low
termination_by high - low

def Finder.halving : Finder := fun positions position =>
  Place.between positions position 0 positions.length (Nat.le_refl _)

namespace SecondaryIndex

variable (find : Finder) (ix : SecondaryIndex)

def containsBy (bucket : String) (position : Nat) : Bool :=
  match find (ix.lookup bucket) position with
  | .found _ => true
  | .vacant _ => false

def insertBy (bucket : String) (position : Nat) : Bool × SecondaryIndex :=
  match find (ix.lookup bucket) position with
  | .found _ => (false, ix)
  | .vacant offset =>
    let positions := (ix.lookup bucket).insertIdx offset position
    (true, { ix with
      buckets := SortedMap.insert ix.buckets bucket positions, count := ix.count + 1 })

def removeBy (bucket : String) (position : Nat) : Bool × SecondaryIndex :=
  match find (ix.lookup bucket) position with
  | .found offset =>
    let positions := (ix.lookup bucket).eraseIdx offset
    let buckets :=
      if positions.isEmpty then SortedMap.erase ix.buckets bucket
      else SortedMap.insert ix.buckets bucket positions
    (true, { ix with buckets := buckets, count := ix.count - 1 })
  | .vacant _ => (false, ix)

def repositionBy (bucket : String) (source target : Nat) : Bool × SecondaryIndex :=
  match ix.removeBy find bucket source with
  | (true, ix) => ix.insertBy find bucket target
  | (false, ix) => (false, ix)

end SecondaryIndex
end IndexedStore
