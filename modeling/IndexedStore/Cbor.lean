import IndexedStore.Bytes
import IndexedStore.Number.Widths

/-!
The concise binary form of data. An item is written with the shortest head for its argument,
lengths in front, and each number in the narrowest width that holds it.
-/
namespace IndexedStore

inductive Cbor where
  | unsigned (n : Nat)
  /-- The integer `-1 - n`. -/
  | negative (n : Nat)
  /-- Bytes, and whether they came in chunks. -/
  | bytes (chunked : Bool) (bs : Bytes)
  /-- A text, and whether it came in chunks. -/
  | text (chunked : Bool) (s : String)
  | array (items : List Cbor)
  | map (entries : List (Cbor × Cbor))
  | tagged (tag : Nat) (item : Cbor)
  | bool (b : Bool)
  | null
  | undefined
  | float (x : Number)

namespace Cbor

instance : Inhabited Cbor := ⟨.null⟩

/-- The head of an item: its major type and an argument in the least width. -/
def head (major n : Nat) : Bytes :=
  let first (info : Nat) : UInt8 := UInt8.ofNat (major * 32 + info)
  if n < 24 then [first n]
  else if n < Nat.pow 2 8 then first 24 :: Bytes.bigEndian 1 n
  else if n < Nat.pow 2 16 then first 25 :: Bytes.bigEndian 2 n
  else if n < Nat.pow 2 32 then first 26 :: Bytes.bigEndian 4 n
  else first 27 :: Bytes.bigEndian 8 n

def narrowBytes (f : BinaryFormat) (width : Nat) (negative : Bool) (code : Nat) : Bytes :=
  Bytes.bigEndian width ((if negative then f.codes else 0) + code)

/-- A number in the narrowest width that holds it. -/
def floatBytes (x : Number) : Bytes :=
  match x.narrow? .binary16, x.narrow? .binary32 with
  | some code, _ => 0xf9 :: narrowBytes .binary16 2 x.negative code
  | none, some code => 0xfa :: narrowBytes .binary32 4 x.negative code
  | none, none => 0xfb :: Bytes.bigEndian 8 x.bits

mutual

def encode : Cbor → Bytes
  | .unsigned n => head 0 n
  | .negative n => head 1 n
  | .bytes _ bs => head 2 bs.length ++ bs
  | .text _ s => let bs := Bytes.ofText s; head 3 bs.length ++ bs
  | .array items => head 4 items.length ++ encodeItems items
  | .map entries => head 5 entries.length ++ encodeEntries entries
  | .tagged tag item => head 6 tag ++ encode item
  | .bool false => [0xf4]
  | .bool true => [0xf5]
  | .null => [0xf6]
  | .undefined => [0xf7]
  | .float x => floatBytes x

def encodeItems : List Cbor → Bytes
  | [] => []
  | item :: rest => encode item ++ encodeItems rest

def encodeEntries : List (Cbor × Cbor) → Bytes
  | [] => []
  | (key, item) :: rest => encode key ++ encode item ++ encodeEntries rest

end

end Cbor
end IndexedStore
