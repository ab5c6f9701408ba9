import IndexedStore.Value.Key
import IndexedStore.Record

/-!
Buckets: the text under which an index files a record. The parts are joined by a separator that
is escaped inside a part, so different lists of parts have different texts.
-/
namespace IndexedStore.Bucket

def separator : Char := '|'

def escaped (part : List Char) : List Char :=
  part.flatMap fun c => if c = separator ∨ c = '\\' then ['\\', c] else [c]

def joined (parts : List (List Char)) : List Char := [separator].intercalate parts

def part (v : Value) : List Char := escaped v.bucketText.toList

def missingPart : List Char := "null".toList

def signature (fields : List String) : String := String.ofList (joined (fields.map String.toList))

def ofFields (names : List String) (fields : Fields) : String :=
  String.ofList (joined (names.map fun name =>
    match SortedMap.get? fields name with
    | some v => part v
    | none => missingPart))

end IndexedStore.Bucket
