/-!
Byte strings, and their hexadecimal form.
-/
namespace IndexedStore

abbrev Bytes := List UInt8

namespace Bytes

def ofText (s : String) : Bytes := s.toUTF8.toList

def toText? (bs : Bytes) : Option String := String.fromUTF8? ⟨bs.toArray⟩

def bigEndian : Nat → Nat → Bytes
  | 0, _ => []
  | width + 1, n => bigEndian width (n / 256) ++ [UInt8.ofNat (n % 256)]

def toNat (bs : Bytes) : Nat := bs.foldl (fun n b => 256 * n + b.toNat) 0

def takeExactly (n : Nat) (bs : Bytes) : Option (Bytes × Bytes) :=
  if n ≤ bs.length then some (bs.take n, bs.drop n) else none

def hexPair (b : UInt8) : List Char :=
  [Nat.digitChar (b.toNat / 16), Nat.digitChar (b.toNat % 16)]

def toHex (bs : Bytes) : String := String.ofList (bs.flatMap hexPair)

def hexValue? (c : Char) : Option Nat :=
  if '0' ≤ c ∧ c ≤ '9' then some (c.toNat - '0'.toNat)
  else if 'a' ≤ c ∧ c ≤ 'f' then some (c.toNat - 'a'.toNat + 10)
  else if 'A' ≤ c ∧ c ≤ 'F' then some (c.toNat - 'A'.toNat + 10)
  else none

def ofHex? : List Char → Option Bytes
  | [] => some []
  | a :: b :: rest =>
    match hexValue? a, hexValue? b, ofHex? rest with
    | some a, some b, some bs => some (UInt8.ofNat (16 * a + b) :: bs)
    | _, _, _ => none
  | _ => none

end Bytes
end IndexedStore
