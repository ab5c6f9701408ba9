import IndexedStore.Json.Literal
import IndexedStore.Bytes

/-!
Reading documents. Blanks are the four of the JSON grammar; arrays and objects nest up to a
limit; of members with one name the last stands; escapes must form whole characters.
-/
namespace IndexedStore.Json

def nestingLimit : Nat := 127

def skipBlanks (cs : List Char) : List Char :=
  cs.dropWhile fun c => c = ' ' || c = '\n' || c = '\t' || c = '\r'

def takeHex4 : List Char → Option (Nat × List Char)
  | a :: b :: c :: d :: r => do
    let a ← Bytes.hexValue? a
    let b ← Bytes.hexValue? b
    let c ← Bytes.hexValue? c
    let d ← Bytes.hexValue? d
    return (((a * 16 + b) * 16 + c) * 16 + d, r)
  | _ => none

/-- The character of a numeric escape. A surrogate counts only as the first of a pair. -/
def takeUnicode (cs : List Char) : Option (Char × List Char) := do
  let (n, r) ← takeHex4 cs
  if 0xdc00 ≤ n ∧ n < 0xe000 then none
  else if 0xd800 ≤ n ∧ n < 0xdc00 then
    match r with
    | '\\' :: 'u' :: r => do
      let (m, r) ← takeHex4 r
      if 0xdc00 ≤ m ∧ m < 0xe000 then
        return (Char.ofNat (0x10000 + (n - 0xd800) * 0x400 + (m - 0xdc00)), r)
      else none
    | _ => none
  else return (Char.ofNat n, r)

def takeEscape : List Char → Option (Char × List Char)
  | '"' :: r => some ('"', r)
  | '\\' :: r => some ('\\', r)
  | '/' :: r => some ('/', r)
  | 'b' :: r => some ('\x08', r)
  | 'f' :: r => some ('\x0c', r)
  | 'n' :: r => some ('\n', r)
  | 'r' :: r => some ('\r', r)
  | 't' :: r => some ('\t', r)
  | 'u' :: r => takeUnicode r
  | _ => none

/-- The rest of a quoted text, after its opening quote; `read` holds what was read, last first. -/
def takeQuoted (fuel : Nat) (read : List Char) (cs : List Char) : Option (String × List Char) :=
  match fuel, cs with
  | _, '"' :: r => some (String.ofList read.reverse, r)
  | fuel + 1, '\\' :: r =>
    match takeEscape r with
    | some (c, r) => takeQuoted fuel (c :: read) r
    | none => none
  | fuel + 1, c :: r => if c.toNat < 0x20 then none else takeQuoted fuel (c :: read) r
  | _, _ => none

def takeWord (word : String) (cs : List Char) : Option (List Char) :=
  if word.toList.isPrefixOf cs then some (cs.drop word.length) else none

mutual

def takeValue (fuel depth : Nat) (cs : List Char) : Option (Json × List Char) :=
  match fuel with
  | 0 => none
  | fuel + 1 =>
    match skipBlanks cs with
    | '"' :: r => (takeQuoted r.length [] r).map fun (s, r) => (.text s, r)
    | '[' :: r =>
      match depth, skipBlanks r with
      | 0, _ => none
      | _, ']' :: r => some (.array [], r)
      | depth + 1, r => takeItems fuel depth [] r
    | '\x7b' :: r =>
      match depth, skipBlanks r with
      | 0, _ => none
      | _, '\x7d' :: r => some (.object [], r)
      | depth + 1, r => takeMembers fuel depth [] r
    | '-' :: r => takeNumber true r
    | 'n' :: r => (takeWord "ull" r).map fun r => (.null, r)
    | 't' :: r => (takeWord "rue" r).map fun r => (.bool true, r)
    | 'f' :: r => (takeWord "alse" r).map fun r => (.bool false, r)
    | r => takeNumber false r

def takeItems (fuel depth : Nat) (read : List Json) (cs : List Char) :
    Option (Json × List Char) :=
  match fuel with
  | 0 => none
  | fuel + 1 =>
    match takeValue fuel depth cs with
    | none => none
    | some (item, r) =>
      match skipBlanks r with
      | ',' :: r => takeItems fuel depth (item :: read) r
      | ']' :: r => some (.array (item :: read).reverse, r)
      | _ => none

def takeMembers (fuel depth : Nat) (read : List (String × Json)) (cs : List Char) :
    Option (Json × List Char) :=
  match fuel with
  | 0 => none
  | fuel + 1 =>
    match skipBlanks cs with
    | '"' :: r =>
      match takeQuoted r.length [] r with
      | none => none
      | some (name, r) =>
        match skipBlanks r with
        | ':' :: r =>
          match takeValue fuel depth r with
          | none => none
          | some (item, r) =>
            let read := SortedMap.insert read name item
            match skipBlanks r with
            | ',' :: r => takeMembers fuel depth read r
            | '\x7d' :: r => some (.object read, r)
            | _ => none
        | _ => none
    | _ => none

end

def readWithin? (limit : Nat) (text : String) : Option Json :=
  let cs := text.toList
  match takeValue (cs.length + 1) limit cs with
  | some (j, r) => if (skipBlanks r).isEmpty then some j else none
  | none => none

def read? (text : String) : Option Json := readWithin? nestingLimit text

end IndexedStore.Json
