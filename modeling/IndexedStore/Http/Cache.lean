import IndexedStore.Http.Message
import IndexedStore.Lru

/-!
What is known about addresses for a while: the body of the last answer, and the methods that are
allowed. An entry holds from the time it is made until its expiry.
-/
namespace IndexedStore.Http

structure CacheEntry where
  body : Option Json
  permissions : Permissions
  expiry : Nat

structure Cache where
  entries : Lru String CacheEntry
  /-- How long an entry holds. -/
  lifetime : Nat

namespace Cache

def empty (capacity lifetime : Nat) : Cache := ⟨.empty capacity, lifetime⟩

/-- The entry of an address. An expired one is dropped; one that still holds is touched. -/
def get (c : Cache) (now : Nat) (uri : String) : Option CacheEntry × Cache :=
  match c.entries.peek? uri with
  | none => (none, c)
  | some entry =>
    if entry.expiry ≤ now then (none, { c with entries := c.entries.erase uri })
    else
      let (found, entries) := c.entries.get uri
      (found, { c with entries := entries })

def set (c : Cache) (uri : String) (entry : CacheEntry) : Cache :=
  { c with entries := (c.entries.set uri entry).2 }

def put (c : Cache) (now : Nat) (uri : String) (body : Json) (permissions : Permissions) : Cache :=
  c.set uri ⟨some body, permissions, now + c.lifetime⟩

def permissions (c : Cache) (now : Nat) (uri : String) : Permissions × Cache :=
  let (entry, c) := c.get now uri
  ((entry.map (·.permissions)).getD .all, c)

def deny (c : Cache) (now : Nat) (uri : String) (method : Method) : Cache :=
  let (entry, c) := c.get now uri
  let known := entry.getD ⟨none, .all, 0⟩
  c.set uri { known with
    permissions := known.permissions.without method, expiry := now + c.lifetime }

def invalidate (c : Cache) (now : Nat) (uri : String) : Cache :=
  match c.get now uri with
  | (some entry, c) => c.set uri { entry with body := none }
  | (none, c) => c

def size (c : Cache) : Nat := c.entries.size

def clear (c : Cache) : Cache := { c with entries := c.entries.clear }

end Cache
end IndexedStore.Http
