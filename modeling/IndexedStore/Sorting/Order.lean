import IndexedStore.Error
import IndexedStore.Text.Blank

/-!
Sorting orders: fields with directions, the first being the most significant. The written form
has items between commas, each a field and an optional direction; the signature writes every
direction.
-/
namespace IndexedStore

inductive Direction where
  | ascending
  | descending
deriving DecidableEq, Repr

def Direction.word : Direction → String
  | ascending => "asc"
  | descending => "desc"

def Direction.ofWord? (word : List Char) : Option Direction :=
  if Text.eqIgnoringCase word ascending.word.toList then some ascending
  else if Text.eqIgnoringCase word descending.word.toList then some descending
  else none

structure SortKey where
  field : String
  direction : Direction
deriving DecidableEq, Repr

def SortKey.text (k : SortKey) : String := k.field ++ " " ++ k.direction.word

structure SortOrder where
  keys : List SortKey
deriving DecidableEq, Repr

namespace SortOrder

def item (text : String) (cs : List Char) : Except ArgumentFault SortKey :=
  match Text.words cs with
  | [field] => .ok ⟨String.ofList field, .ascending⟩
  | [field, word] =>
    match Direction.ofWord? word with
    | some direction => .ok ⟨String.ofList field, direction⟩
    | none => .error (.orderDirection (String.ofList word))
  | [] => .error (.orderItemEmpty text)
  | _ => .error (.orderItem (String.ofList (Text.trim cs)))

def read (text : String) : Except ArgumentFault SortOrder :=
  if (Text.trim text.toList).isEmpty then .error .orderEmpty
  else
    match (Text.splitAt ',' text.toList).mapM (item text) with
    | .ok keys => .ok ⟨keys⟩
    | .error fault => .error fault

def andThen (o : SortOrder) (field : String) (direction : Direction) : SortOrder :=
  ⟨o.keys ++ [⟨field, direction⟩]⟩

def signature (o : SortOrder) : String := ",".intercalate (o.keys.map (·.text))

end SortOrder
end IndexedStore
