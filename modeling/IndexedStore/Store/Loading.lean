import IndexedStore.Store.Batch

/-!
Loading a store from a payload: a list of objects, or a map of objects, which may lie somewhere
inside the payload. The payload is accepted as a whole before anything changes.
-/
namespace IndexedStore

namespace Payload

def atNames (payload : Value) : List (List Char) → Except ShapeFault Value
  | [] => .ok payload
  | name :: rest =>
    let name := String.ofList name
    match payload with
    | .map entries =>
      match SortedMap.get? entries name with
      | some v => atNames v rest
      | none => .error (.missingField name)
    | other => .error (.unreadableField name other.kind)

/-- What lies at a path, its names written with points between them; empty names are passed
over. -/
def atPath (payload : Value) (path : String) : Except ShapeFault Value :=
  atNames payload ((Text.splitAt '.' path.toList).filter (!·.isEmpty))

def isMap : Value → Bool
  | .map _ => true
  | _ => false

/-- The records of a payload. The names of a map of records are their keys where `named` says
so. -/
def items (payload : Value) (named : Bool) :
    Except ShapeFault (List (Option String × Value)) :=
  match payload with
  | .list items =>
    match items.find? (!isMap ·) with
    | some bad => .error (.listItem bad.kind)
    | none => .ok (items.map fun item => (none, item))
  | .map entries =>
    match entries.find? (!isMap ·.2) with
    | some (key, bad) => .error (.mapEntry key bad.kind)
    | none => .ok (entries.map fun (key, item) => (if named then some key else none, item))
  | other => .error (.payload other.kind)

end Payload

namespace Store

def payloadItems (s : Store) (payload : Value) :
    Except ShapeFault (List (Option String × Value)) :=
  match s.config.source with
  | none => Payload.items payload s.config.keyField.isNone
  | some path =>
    match Payload.atPath payload path with
    | .ok payload => Payload.items payload s.config.keyField.isNone
    | .error fault => .error fault

def replaced (s : Store) (w : World) (payload : Value) : Outcome (List String) :=
  s.usable w <|
    match s.payloadItems payload with
    | .error fault => ⟨.error (.expectedObject fault), s, w⟩
    | .ok items =>
      let o := s.batchKeyed w .set items true
      match o.result with
      | .error error => ⟨.error error, o.store, o.world⟩
      | .ok report => ⟨report.keys, o.store, o.world⟩

def load (s : Store) (w : World) (payload : Value) : Outcome (List String) :=
  tracked (s.replaced w payload)

def sync (s : Store) (w : World) : Outcome (List String) :=
  tracked <| s.usable w <|
    match s.remote with
    | none => ⟨.error (.invalidArguments .withoutRemote), s, w⟩
    | some remote =>
      let e := remote.fetch w.client w.now
      let s := { s with remote := some e.collection }
      let w := { w with client := e.client }
      match e.result with
      | .error error => ⟨.error error, s, w⟩
      | .ok body => s.replaced w body.toValue

end Store
end IndexedStore
