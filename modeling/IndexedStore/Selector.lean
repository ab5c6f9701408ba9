import IndexedStore.Error
import IndexedStore.Text.Blank

/-!
How callers name records: by key, by position, or by a word that is tried as a key first.
-/
namespace IndexedStore

inductive Target where
  | key (key : String)
  | position (p : Nat)
  | token (word : String)
deriving DecidableEq, Repr

def Target.describe : Target → String
  | .key name => name
  | .position p => s!"#{p}"
  | .token word => word

inductive Selector where
  | all
  | key (key : String)
  | position (p : Nat)
  | list (targets : List Target)
  /-- At most `count` records, the first `start` being passed over. -/
  | range (start count : Nat)
deriving DecidableEq, Repr

namespace Selector

/-- Reads words between commas, or `all` in any case. -/
def read (text : String) : Except ArgumentFault Selector :=
  let trimmed := Text.trim text.toList
  if trimmed.isEmpty then .error .selectorEmpty
  else if Text.eqIgnoringCase trimmed "all".toList then .ok .all
  else
    let words := (Text.splitAt ',' trimmed).map Text.trim
    if words.any (·.isEmpty) then .error (.selectorToken (String.ofList trimmed))
    else .ok (.list (words.map fun word => .token (String.ofList word)))

end Selector
end IndexedStore
