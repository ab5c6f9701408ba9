import IndexedStore.Number

/-!
Numbers in the narrower formats. Widening keeps a value, and an undefined number keeps its
fraction with the first bit set. A number narrows only to a code that widens back to it.
-/
namespace IndexedStore.Number

def widen (f : BinaryFormat) (negative : Bool) (code : Nat) : Number :=
  if code < f.infinity then
    let (num, den) := f.ratio code
    ofRatio negative num den
  else if code = f.infinity then infinity negative
  else
    let fraction := (code - f.infinity) * Nat.pow 2 (52 - f.fractionBits)
    let quiet := if fraction < Nat.pow 2 51 then fraction + Nat.pow 2 51 else fraction
    ofCode negative (BinaryFormat.binary64.infinity + quiet)

def narrowCode (f : BinaryFormat) (x : Number) : Nat :=
  if x.isFinite then
    let (num, den) := x.ratio
    f.nearest num den
  else f.infinity + (x.code - BinaryFormat.binary64.infinity) / Nat.pow 2 (52 - f.fractionBits)

def narrow? (f : BinaryFormat) (x : Number) : Option Nat :=
  let code := x.narrowCode f
  if widen f x.negative code = x then some code else none

end IndexedStore.Number
