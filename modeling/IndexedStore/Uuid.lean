/-!
Identifiers of 128 bits in their written form. Six bits are fixed and mark an identifier as a
random one; the other 122 are free.
-/
namespace IndexedStore.Uuid

def hexDigits : Nat → Nat → List Char
  | 0, _ => []
  | width + 1, n => hexDigits width (n / 16) ++ [Nat.digitChar (n % 16)]

def ofNat (n : Nat) : String :=
  let part (width shift : Nat) : String := String.ofList (hexDigits width (n / Nat.pow 2 shift))
  let variant := String.ofList [Nat.digitChar (8 + n / Nat.pow 2 60 % 4)]
  "-".intercalate [part 8 90, part 4 74, "4" ++ part 3 62, variant ++ part 3 48, part 12 0]

end IndexedStore.Uuid
