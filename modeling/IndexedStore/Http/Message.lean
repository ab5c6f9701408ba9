import IndexedStore.Http.Method
import IndexedStore.Json.Text
import IndexedStore.Error

/-!
Requests to a remote collection, its responses, and what a response means for the caller.
-/
namespace IndexedStore.Http

abbrev Headers := List (String × String)

structure Request where
  method : Method
  uri : String
  body : Option Json
  headers : Headers

structure Response where
  status : Nat
  headers : Headers
  body : Json

namespace Response

def header? (r : Response) (name : String) : Option String :=
  (r.headers.find? fun (n, _) => Text.eqIgnoringCase n.toList name.toList).map (·.2)

def permissions? (r : Response) : Option Permissions := (r.header? "allow").map Permissions.ofAllow

def isSuccess (r : Response) : Bool := 200 ≤ r.status && r.status < 300

def reason (r : Response) : String :=
  match r.body with
  | .null => ""
  | .text s => s
  | body => body.compact

def fault? (r : Response) (uri : String) (method : Method) : Option StoreError :=
  if r.isSuccess then none
  else some (
    if r.status = 401 then .unauthorized uri
    else if r.status = 403 then .forbidden uri
    else if r.status = 405 then .methodNotAllowed uri method.name
    else .serverError r.status r.reason)

end Response
end IndexedStore.Http
