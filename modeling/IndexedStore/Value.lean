import IndexedStore.SortedMap
import IndexedStore.Number

/-!
The values of record fields, and the fields of a record: a map from names to values.
-/
namespace IndexedStore

/-- The value of a field. The entries of a map are in ascending order of names. -/
inductive Value where
  | null
  | bool (b : Bool)
  | number (x : Number)
  | text (s : String)
  | list (items : List Value)
  | map (entries : List (String × Value))

abbrev Fields := SortedMap Value

namespace Value

instance : Inhabited Value := ⟨.null⟩

inductive Kind where
  | null
  | bool
  | number
  | text
  | list
  | map
deriving DecidableEq, Repr

def Kind.name : Kind → String
  | .null => "null"
  | .bool => "bool"
  | .number => "number"
  | .text => "text"
  | .list => "list"
  | .map => "map"

def kind : Value → Kind
  | .null => .null
  | .bool _ => .bool
  | .number _ => .number
  | .text _ => .text
  | .list _ => .list
  | .map _ => .map

def isNull : Value → Bool
  | .null => true
  | _ => false

def get? : Value → String → Option Value
  | .map entries, name => SortedMap.get? entries name
  | _, _ => none

mutual

def same : Value → Value → Bool
  | .null, .null => true
  | .bool a, .bool b => a == b
  | .number x, .number y => x.numericEq y
  | .text s, .text t => s == t
  | .list xs, .list ys => sameItems xs ys
  | .map xs, .map ys => sameEntries xs ys
  | _, _ => false

def sameItems : List Value → List Value → Bool
  | [], [] => true
  | x :: xs, y :: ys => same x y && sameItems xs ys
  | _, _ => false

def sameEntries : List (String × Value) → List (String × Value) → Bool
  | [], [] => true
  | (a, x) :: xs, (b, y) :: ys => a == b && same x y && sameEntries xs ys
  | _, _ => false

end

mutual

def Ordered : Value → Prop
  | .list items => OrderedItems items
  | .map entries => SortedMap.Sorted entries ∧ OrderedEntries entries
  | _ => True

def OrderedItems : List Value → Prop
  | [] => True
  | x :: xs => Ordered x ∧ OrderedItems xs

def OrderedEntries : List (String × Value) → Prop
  | [] => True
  | (_, x) :: xs => Ordered x ∧ OrderedEntries xs

end

end Value
end IndexedStore
