import IndexedStore.Index.Bucket

/-!
A secondary index: the positions of records, filed by bucket. Positions in a bucket ascend, no
bucket is empty, and the count is kept beside the buckets.
-/
namespace IndexedStore

structure SecondaryIndex where
  fields : List String
  buckets : SortedMap (List Nat)
  count : Nat
deriving DecidableEq

namespace SecondaryIndex

def empty (fields : List String) : SecondaryIndex := ⟨fields, [], 0⟩

def signature (ix : SecondaryIndex) : String := Bucket.signature ix.fields

def bucketOf (ix : SecondaryIndex) (fields : Fields) : String := Bucket.ofFields ix.fields fields

def lookup (ix : SecondaryIndex) (bucket : String) : List Nat :=
  (SortedMap.get? ix.buckets bucket).getD []

def contains (ix : SecondaryIndex) (bucket : String) (position : Nat) : Bool :=
  (ix.lookup bucket).contains position

def insertAscending (position : Nat) : List Nat → List Nat
  | [] => [position]
  | p :: rest =>
    if position < p then position :: p :: rest
    else if position = p then p :: rest
    else p :: insertAscending position rest

def bucketCount (ix : SecondaryIndex) : Nat := ix.buckets.length

/-- Files a position in a bucket; the first part tells whether it was new there. -/
def insert (ix : SecondaryIndex) (bucket : String) (position : Nat) : Bool × SecondaryIndex :=
  if ix.contains bucket position then (false, ix)
  else
    let positions := insertAscending position (ix.lookup bucket)
    (true, { ix with
      buckets := SortedMap.insert ix.buckets bucket positions, count := ix.count + 1 })

/-- Takes a position out of a bucket, and the bucket away when it empties; the first part tells
whether the position was there. -/
def remove (ix : SecondaryIndex) (bucket : String) (position : Nat) : Bool × SecondaryIndex :=
  if ix.contains bucket position then
    let positions := (ix.lookup bucket).erase position
    let buckets :=
      if positions.isEmpty then SortedMap.erase ix.buckets bucket
      else SortedMap.insert ix.buckets bucket positions
    (true, { ix with buckets := buckets, count := ix.count - 1 })
  else (false, ix)

/-- Moves an entry to another position of its bucket; the first part tells whether the entry was
there and the place was free. -/
def reposition (ix : SecondaryIndex) (bucket : String) (source target : Nat) :
    Bool × SecondaryIndex :=
  match ix.remove bucket source with
  | (true, ix) => ix.insert bucket target
  | (false, ix) => (false, ix)

def clear (ix : SecondaryIndex) : SecondaryIndex := empty ix.fields

end SecondaryIndex
end IndexedStore
