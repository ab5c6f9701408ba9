import IndexedStore.Http.Cache
import IndexedStore.Http.Client
import IndexedStore.Value.Document
import IndexedStore.Text.Quoted

/-!
A remote collection of records. Its contents are fetched as a whole and kept until a write
succeeds; a method that was refused is not sent again while the refusal is known.
-/
namespace IndexedStore.Http

structure Collection where
  uri : String
  headers : Headers
  cache : Cache

structure Exchange (α : Type) where
  result : Except StoreError α
  collection : Collection
  client : Client

namespace Exchange

variable {α β : Type}

def andThen (e : Exchange α) (f : α → Collection → Client → Exchange β) : Exchange β :=
  match e.result with
  | .ok x => f x e.collection e.client
  | .error error => ⟨.error error, e.collection, e.client⟩

end Exchange

namespace Collection

def recordUri (c : Collection) (key : String) : String :=
  String.ofList ((c.uri.toList.reverse.dropWhile (· = '/')).reverse) ++ "/" ++ key

/-- Sends a request unless its method is known to be refused. -/
def send (c : Collection) (client : Client) (now : Nat) (uri : String) (method : Method)
    (body : Option Json) : Exchange Response :=
  let (permissions, cache) := c.cache.permissions now uri
  let c := { c with cache := cache }
  if permissions.allows method then
    match client.send ⟨method, uri, body, c.headers⟩ with
    | (.error reason, client) => ⟨.error (.transport reason), c, client⟩
    | (.ok response, client) =>
      match response.fault? uri method with
      | none => ⟨.ok response, c, client⟩
      | some error =>
        let cache := if error.isPermission then c.cache.deny now uri method else c.cache
        ⟨.error error, { c with cache := cache }, client⟩
  else ⟨.error (.methodNotAllowed uri method.name), c, client⟩

def forget (c : Collection) (now : Nat) : Collection :=
  { c with cache := c.cache.invalidate now c.uri }

def fetch (c : Collection) (client : Client) (now : Nat) : Exchange Json :=
  let (entry, cache) := c.cache.get now c.uri
  let c := { c with cache := cache }
  match entry.bind (·.body) with
  | some body => ⟨.ok body, c, client⟩
  | none =>
    (c.send client now c.uri .get none).andThen fun response c client =>
      let permissions := response.permissions?.getD .all
      ⟨.ok response.body,
        { c with cache := c.cache.put now c.uri response.body permissions }, client⟩

/-- Sends a write, after which the contents that were fetched no longer count. -/
def write (c : Collection) (client : Client) (now : Nat) (uri : String) (method : Method)
    (body : Option Json) : Exchange Unit :=
  (c.send client now uri method body).andThen fun _ c client =>
    ⟨.ok (), c.forget now, client⟩

def create (c : Collection) (client : Client) (now : Nat) (fields : Fields) : Exchange Unit :=
  c.write client now c.uri .post (some (Fields.toJson fields))

def update (c : Collection) (client : Client) (now : Nat) (key : String) (fields : Fields) :
    Exchange Unit :=
  c.write client now (c.recordUri key) .put (some (Fields.toJson fields))

def delete (c : Collection) (client : Client) (now : Nat) (key : String) : Exchange Unit :=
  c.write client now (c.recordUri key) .delete none

def summary (c : Collection) : String :=
  "RemoteCollection \x7b uri: " ++ Text.quoted c.uri ++
    s!", headers: {c.headers.length}, .. \x7d"

end Collection
end IndexedStore.Http
