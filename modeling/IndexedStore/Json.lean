import IndexedStore.SortedMap
import IndexedStore.Number

/-!
Documents: the data of a JSON text. Integers that were written as such are kept apart from other
numbers. The members of an object are in ascending order of names; only reports that choose an
order of their own differ, and printing keeps theirs.
-/
namespace IndexedStore

inductive Json where
  | null
  | bool (b : Bool)
  | int (n : Int)
  | float (x : Number)
  | text (s : String)
  | array (items : List Json)
  | object (members : List (String × Json))

namespace Json

instance : Inhabited Json := ⟨.null⟩

def get? : Json → String → Option Json
  | .object members, name => SortedMap.get? members name
  | _, _ => none

end Json
end IndexedStore
