import IndexedStore.Query.Where

/-!
How a where clause is answered: from one bucket of a declared index over exactly its fields, or
by testing every record.
-/
namespace IndexedStore

inductive Plan where
  | lookup (signature bucket : String)
  | scan
deriving DecidableEq, Repr

namespace Plan

/-- The plan for a where clause. Predicates are never answered from an index. -/
def choose (q : Where) (c : Catalog) : Plan :=
  if !q.hasPredicates && c.hasIndex q.signature then .lookup q.signature q.bucket
  else .scan

def scanned (condition : Condition) (records : List Snapshot) : List Snapshot :=
  records.filter fun r => condition.holds r.fields

def scanFaults (condition : Condition) (records : List Snapshot) : Bool :=
  records.any fun r => condition.faults r.fields

end Plan
end IndexedStore
