import IndexedStore.Text.Blank

/-!
Request methods, and the set of methods that a resource allows.
-/
namespace IndexedStore.Http

inductive Method where
  | get
  | post
  | put
  | delete
  | patch
deriving DecidableEq, Repr

namespace Method

def all : List Method := [get, post, put, delete, patch]

def name : Method → String
  | get => "GET"
  | post => "POST"
  | put => "PUT"
  | delete => "DELETE"
  | patch => "PATCH"

def ofName? (text : List Char) : Option Method :=
  all.find? fun m => Text.eqIgnoringCase m.name.toList (Text.trim text)

end Method

structure Permissions where
  methods : List Method
deriving DecidableEq, Repr

namespace Permissions

def all : Permissions := ⟨Method.all⟩

def none : Permissions := ⟨[]⟩

def allows (p : Permissions) (m : Method) : Bool := p.methods.contains m

def adding (p : Permissions) (m : Method) : Permissions :=
  ⟨Method.all.filter fun n => p.allows n || n == m⟩

def without (p : Permissions) (m : Method) : Permissions := ⟨p.methods.filter (· != m)⟩

/-- The methods listed between commas; names that are no methods do not count. -/
def ofAllow (header : String) : Permissions :=
  ((Text.splitAt ',' header.toList).filterMap Method.ofName?).foldl adding none

end Permissions
end IndexedStore.Http
