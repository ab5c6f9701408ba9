import IndexedStore.Value
import IndexedStore.Json

/-!
Values as documents and back. A number that is whole and below the exact bound leaves as an
integer; every number of a document comes back as the nearest number.
-/
namespace IndexedStore

namespace Json

mutual

def toValue : Json → Value
  | .null => .null
  | .bool b => .bool b
  | .int n => .number (Number.ofInt n)
  | .float x => .number x
  | .text s => .text s
  | .array items => .list (itemValues items)
  | .object members => .map (memberValues members)

def itemValues : List Json → List Value
  | [] => []
  | j :: rest => toValue j :: itemValues rest

def memberValues : List (String × Json) → List (String × Value)
  | [] => []
  | (name, j) :: rest => (name, toValue j) :: memberValues rest

end

/-- The fields of a document, which must be an object; otherwise the kind of what it is. -/
def toFields (j : Json) : Except Value.Kind Fields :=
  match j.toValue with
  | .map entries => .ok entries
  | other => .error other.kind

end Json

def Number.toJson (x : Number) : Json :=
  match x.integer? with
  | some n => .int n
  | none => if x.isFinite then .float x else .null

namespace Value

mutual

def toJsonWith (number : Number → Json) : Value → Json
  | .null => .null
  | .bool b => .bool b
  | .number x => number x
  | .text s => .text s
  | .list items => .array (itemsToJson number items)
  | .map entries => .object (entriesToJson number entries)

def itemsToJson (number : Number → Json) : List Value → List Json
  | [] => []
  | v :: rest => toJsonWith number v :: itemsToJson number rest

def entriesToJson (number : Number → Json) : List (String × Value) → List (String × Json)
  | [] => []
  | (name, v) :: rest => (name, toJsonWith number v) :: entriesToJson number rest

end

def toJson (v : Value) : Json := v.toJsonWith Number.toJson

end Value

def Fields.toJson (fields : Fields) : Json := Value.toJson (.map fields)

end IndexedStore
