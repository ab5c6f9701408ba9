/-!
Caches that keep the entries touched last. Entries are listed from the most to the least recently
touched, and at most a fixed number of them is kept.
-/
namespace IndexedStore

structure Lru (κ α : Type) where
  capacity : Nat
  entries : List (κ × α)

namespace Lru

variable {κ α : Type} [BEq κ]

/-- The empty cache of a capacity, which is at least one. -/
def empty (capacity : Nat) : Lru κ α := ⟨max capacity 1, []⟩

def contains (c : Lru κ α) (key : κ) : Bool := c.entries.any (·.1 == key)

def peek? (c : Lru κ α) (key : κ) : Option α := (c.entries.find? (·.1 == key)).map (·.2)

def erase (c : Lru κ α) (key : κ) : Lru κ α :=
  { c with entries := c.entries.filter fun entry => !(entry.1 == key) }

def touch (c : Lru κ α) (key : κ) (x : α) : Lru κ α :=
  { c with entries := (key, x) :: (c.erase key).entries }

def get (c : Lru κ α) (key : κ) : Option α × Lru κ α :=
  match c.peek? key with
  | some x => (some x, c.touch key x)
  | none => (none, c)

/-- Sets the value of a key. A new key in a full cache drives out the last entry, which is
returned. -/
def set (c : Lru κ α) (key : κ) (x : α) : Option (κ × α) × Lru κ α :=
  if c.contains key || c.entries.length < c.capacity then (none, c.touch key x)
  else (c.entries.getLast?, { c with entries := (key, x) :: c.entries.dropLast })

def evict (c : Lru κ α) : Option (κ × α) × Lru κ α :=
  (c.entries.getLast?, { c with entries := c.entries.dropLast })

def first? (c : Lru κ α) : Option κ := c.entries.head?.map (·.1)

def last? (c : Lru κ α) : Option (κ × α) := c.entries.getLast?

def keys (c : Lru κ α) : List κ := c.entries.map (·.1)

def size (c : Lru κ α) : Nat := c.entries.length

def clear (c : Lru κ α) : Lru κ α := { c with entries := [] }

end Lru
end IndexedStore
