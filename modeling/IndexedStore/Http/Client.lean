import IndexedStore.Http.Message

/-!
Clients: what the outside answers. An answer may depend on every request sent before it, so any
behaviour of the outside is some client; a script is the client that answers by method and
address alone.
-/
namespace IndexedStore.Http

structure Client where
  /-- The answer to a request after those sent before, or why there is none. -/
  answer : List Request → Request → Except String Response
  /-- The requests sent, the first one first. -/
  sent : List Request

namespace Client

def send (c : Client) (request : Request) : Except String Response × Client :=
  (c.answer c.sent request, { c with sent := c.sent ++ [request] })

def count (c : Client) (method : Method) (uri : String) : Nat :=
  c.sent.countP fun r => r.method == method && r.uri == uri

end Client

/-- Answers by method and address; the first entry counts. -/
abbrev Script := List ((Method × String) × Except String Response)

namespace Script

def answer (script : Script) (request : Request) : Except String Response :=
  match script.find? fun entry => entry.1 == (request.method, request.uri) with
  | some (_, reply) => reply
  | none => .ok ⟨404, [], .null⟩

def client (script : Script) (sent : List Request) : Client :=
  ⟨fun _ request => script.answer request, sent⟩

end Script
end IndexedStore.Http
