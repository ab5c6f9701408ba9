/-!
Maps from names to values, kept as lists in ascending order of names. Two maps with the same
entries are the same list.
-/
namespace IndexedStore

/-- A map from names, its entries in ascending order of names. -/
abbrev SortedMap (α : Type) := List (String × α)

namespace SortedMap

variable {α : Type}

def Sorted (m : SortedMap α) : Prop := m.Pairwise (·.1 < ·.1)

def insert (m : SortedMap α) (name : String) (x : α) : SortedMap α :=
  match m with
  | [] => [(name, x)]
  | (other, y) :: rest =>
    if name < other then (name, x) :: (other, y) :: rest
    else if name = other then (name, x) :: rest
    else (other, y) :: insert rest name x

def get? (m : SortedMap α) (name : String) : Option α := (m.find? (·.1 == name)).map (·.2)

def contains (m : SortedMap α) (name : String) : Bool := m.any (·.1 == name)

def erase (m : SortedMap α) (name : String) : SortedMap α := m.filter (·.1 != name)

def names (m : SortedMap α) : List String := m.map (·.1)

/-- The map of a list of entries; a later entry replaces an earlier one of the same name. -/
def ofEntries (entries : List (String × α)) : SortedMap α :=
  entries.foldl (fun m (name, x) => insert m name x) []

def distinct (list : List String) : List String :=
  names (ofEntries (list.map fun name => (name, ())))

/-- The entries of both maps; where both have a name, the second map's entry stands. -/
def merge (m other : SortedMap α) : SortedMap α :=
  other.foldl (fun m (name, x) => insert m name x) m

end SortedMap
end IndexedStore
