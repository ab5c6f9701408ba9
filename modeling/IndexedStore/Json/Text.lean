import IndexedStore.Json
import IndexedStore.Decimal.Layout

/-!
The texts of documents: the compact form without blanks, and the indented form of reports.
-/
namespace IndexedStore.Json

def hexDigit (n : Nat) : Char := (Nat.toDigits 16 (n % 16)).headD '0'

def escapedChar (c : Char) : List Char :=
  match c with
  | '"' => ['\\', '"']
  | '\\' => ['\\', '\\']
  | '\x08' => ['\\', 'b']
  | '\x0c' => ['\\', 'f']
  | '\n' => ['\\', 'n']
  | '\r' => ['\\', 'r']
  | '\t' => ['\\', 't']
  | c =>
    if c.toNat < 0x20 then ['\\', 'u', '0', '0', hexDigit (c.toNat / 16), hexDigit c.toNat]
    else [c]

def quotedChars (s : String) : List Char := '"' :: (s.toList.flatMap escapedChar ++ ['"'])

def intChars (n : Int) : List Char :=
  (if n < 0 then ['-'] else []) ++ Nat.toDigits 10 n.natAbs

def commaSeparated (pieces : List (List Char)) : List Char := [','].intercalate pieces

mutual

def chars : Json → List Char
  | .null => "null".toList
  | .bool true => "true".toList
  | .bool false => "false".toList
  | .int n => intChars n
  | .float x => NumberLayout.exchange.chars x
  | .text s => quotedChars s
  | .array items => '[' :: (commaSeparated (itemChars items) ++ [']'])
  | .object members => '\x7b' :: (commaSeparated (memberChars members) ++ ['\x7d'])

def itemChars : List Json → List (List Char)
  | [] => []
  | item :: rest => chars item :: itemChars rest

def memberChars : List (String × Json) → List (List Char)
  | [] => []
  | (name, item) :: rest => (quotedChars name ++ ':' :: chars item) :: memberChars rest

end

def compact (j : Json) : String := String.ofList j.chars

def newline (level : Nat) : List Char := '\n' :: List.replicate (2 * level) ' '

def bracketed (level : Nat) (opening closing : Char) (pieces : List (List Char)) : List Char :=
  if pieces.isEmpty then [opening, closing]
  else opening :: (commaSeparated (pieces.map (newline (level + 1) ++ ·)) ++ newline level ++
    [closing])

mutual

def indentedChars (level : Nat) : Json → List Char
  | .array items => bracketed level '[' ']' (indentedItems (level + 1) items)
  | .object members => bracketed level '\x7b' '\x7d' (indentedMembers (level + 1) members)
  | .null => chars .null
  | .bool b => chars (.bool b)
  | .int n => chars (.int n)
  | .float x => chars (.float x)
  | .text s => chars (.text s)

def indentedItems (level : Nat) : List Json → List (List Char)
  | [] => []
  | item :: rest => indentedChars level item :: indentedItems level rest

def indentedMembers (level : Nat) : List (String × Json) → List (List Char)
  | [] => []
  | (name, item) :: rest =>
    (quotedChars name ++ ':' :: ' ' :: indentedChars level item) :: indentedMembers level rest

end

def indented (j : Json) : String := String.ofList (j.indentedChars 0)

end IndexedStore.Json
