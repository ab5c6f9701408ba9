import IndexedStore.Value.Document
import IndexedStore.Json.Text
import IndexedStore.Text.Blank
import IndexedStore.Decimal.Literal

/-!
The texts by which values are told apart: the key text, and the bucket text, which is the same
for everything that reads as one number. Query equality is equality of bucket texts, so a scan
and an index agree.
-/
namespace IndexedStore.Value

/-- The number that a value is or that its text, blanks at the ends aside, writes; a text counts
only when the number is finite. -/
def asNumber? : Value → Option Number
  | .number x => some x
  | .text s => (Number.read? (Text.trim s.toList)).filter Number.isFinite
  | _ => none

/-- The text of a value as a key. Lists and maps are written as documents in which every number
keeps its point. -/
def keyText : Value → String
  | .null => "null"
  | .bool true => "true"
  | .bool false => "false"
  | .number x => x.keyText
  | .text s => s
  | v => (v.toJsonWith .float).compact

def bucketText (v : Value) : String :=
  match v.asNumber? with
  | some x => x.keyText
  | none => v.keyText

def looseEq (v w : Value) : Bool := v.bucketText == w.bucketText

/-- The sorting order: what reads as a number comes first, by the total order of numbers; the
rest follows by key text. -/
def sortCompare (v w : Value) : Ordering :=
  match v.asNumber?, w.asNumber? with
  | some x, some y => x.totalCompare y
  | some _, none => .lt
  | none, some _ => .gt
  | none, none => compare v.keyText w.keyText

/-- The value that a path of names, written with points between them, leads to through maps;
empty names are passed over. -/
def atPath? (v : Value) (path : String) : Option Value :=
  ((Text.splitAt '.' path.toList).filter (!·.isEmpty)).foldlM
    (fun v name => v.get? (String.ofList name)) v

end IndexedStore.Value
