import IndexedStore.Index.Catalog
import IndexedStore.Value.Document

/-!
Where clauses: one condition on each of some fields, all of which must hold. Fields are in
ascending order, so a clause has the signature of the index over its fields.
-/
namespace IndexedStore

/-- A caller's test of a field value. A faulty one makes a worker job fail that applies it. -/
structure Predicate where
  test : Value → Bool
  faulty : Bool

inductive Clause where
  | equals (expected : Value)
  | satisfies (p : Predicate)

structure Where where
  clauses : SortedMap Clause

/-- A condition on the fields of a record. A missing field counts as null. -/
inductive Condition where
  | equals (field : String) (expected : Value)
  | satisfies (field : String) (p : Predicate)
  | all (conditions : List Condition)

namespace Condition

mutual

def holds (fields : Fields) : Condition → Bool
  | .equals field expected => expected.looseEq (Fields.value fields field)
  | .satisfies field p => p.test (Fields.value fields field)
  | .all conditions => allHold fields conditions

def allHold (fields : Fields) : List Condition → Bool
  | [] => true
  | c :: rest => holds fields c && allHold fields rest

end

mutual

/-- Whether testing a record on a worker applies a faulty predicate. Conditions are tested in
order up to the first that fails. -/
def faults (fields : Fields) : Condition → Bool
  | .equals _ _ => false
  | .satisfies _ p => p.faulty
  | .all conditions => anyFaults fields conditions

def anyFaults (fields : Fields) : List Condition → Bool
  | [] => false
  | c :: rest => faults fields c || (holds fields c && anyFaults fields rest)

end

end Condition

namespace Where

def empty : Where := ⟨[]⟩

def equals (q : Where) (field : String) (expected : Value) : Where :=
  ⟨SortedMap.insert q.clauses field (.equals expected)⟩

def satisfies (q : Where) (field : String) (p : Predicate) : Where :=
  ⟨SortedMap.insert q.clauses field (.satisfies p)⟩

def fault? (q : Where) : Option ArgumentFault :=
  if q.clauses.isEmpty then some .whereEmpty
  else if q.clauses.any (·.1.isEmpty) then some .whereFieldEmpty
  else none

def ofJson (j : Json) : Except ArgumentFault Where :=
  match j with
  | .object members =>
    let q := members.foldl (fun q (field, j) => q.equals field j.toValue) empty
    match q.fault? with
    | some fault => .error fault
    | none => .ok q
  | _ => .error .whereNotObject

def fields (q : Where) : List String := SortedMap.names q.clauses

def signature (q : Where) : String := Bucket.signature q.fields

/-- The bucket of the required values; predicates leave their part empty. -/
def bucket (q : Where) : String :=
  String.ofList (Bucket.joined (q.clauses.map fun (_, clause) =>
    match clause with
    | .equals expected => Bucket.part expected
    | .satisfies _ => []))

def hasPredicates (q : Where) : Bool :=
  q.clauses.any fun (_, clause) =>
    match clause with
    | .equals _ => false
    | .satisfies _ => true

/-- The text of the required values as a document; none when predicates hide what is required. -/
def cacheKey? (q : Where) : Option String :=
  if q.hasPredicates then none
  else
    let members := q.clauses.filterMap fun (field, clause) =>
      match clause with
      | .equals expected => some (field, expected.toJson)
      | .satisfies _ => none
    some (Json.compact (.object members))

def condition (field : String) : Clause → Condition
  | .equals expected => .equals field expected
  | .satisfies p => .satisfies field p

def compile (q : Where) : Except ArgumentFault Condition :=
  match q.fault? with
  | some fault => .error fault
  | none =>
    match q.clauses.map fun (field, clause) => condition field clause with
    | [c] => .ok c
    | conditions => .ok (.all conditions)

end Where
end IndexedStore
