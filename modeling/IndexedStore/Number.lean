/-!
Binary numbers of the interchange formats. A number is a sign and a magnitude code: the exponent
field followed by the fraction field, read as one natural number. Within a format a larger code
is a larger magnitude, so ordering and rounding are arithmetic on codes.
-/
namespace IndexedStore

structure BinaryFormat where
  fractionBits : Nat
  exponentBits : Nat
deriving DecidableEq, Repr

namespace BinaryFormat

def binary16 : BinaryFormat := ⟨10, 5⟩

def binary32 : BinaryFormat := ⟨23, 8⟩

def binary64 : BinaryFormat := ⟨52, 11⟩

/-- The code of infinity: an exponent field of ones and an empty fraction. -/
def infinity (f : BinaryFormat) : Nat :=
  (Nat.pow 2 f.exponentBits - 1) * Nat.pow 2 f.fractionBits

def codes (f : BinaryFormat) : Nat := Nat.pow 2 (f.exponentBits + f.fractionBits)

/-- How far the exponent field lies above the exponent of the last fraction bit. -/
def bias (f : BinaryFormat) : Nat := Nat.pow 2 (f.exponentBits - 1) - 1 + f.fractionBits

def significand (f : BinaryFormat) (code : Nat) : Nat :=
  if code < Nat.pow 2 f.fractionBits then code
  else Nat.pow 2 f.fractionBits + code % Nat.pow 2 f.fractionBits

/-- The exponent field of a finite code; the codes below the normal ones share the first. -/
def exponentField (f : BinaryFormat) (code : Nat) : Nat :=
  max 1 (code / Nat.pow 2 f.fractionBits)

/-- The magnitude of a finite code as a numerator and a positive denominator. -/
def ratio (f : BinaryFormat) (code : Nat) : Nat × Nat :=
  (f.significand code * Nat.pow 2 (f.exponentField code - f.bias),
    Nat.pow 2 (f.bias - f.exponentField code))

def roundHalfEven (num den : Nat) : Nat :=
  let q := num / den
  let r := num % den
  if 2 * r < den then q
  else if den < 2 * r then q + 1
  else q + q % 2

/-- The exponent field at which a positive quotient is written: its significand then fills the
fraction, or the field is the least one. -/
def quotientField (f : BinaryFormat) (num den : Nat) : Nat :=
  let up := num.log2 - den.log2
  let down := den.log2 - num.log2
  let excess := if num * Nat.pow 2 down < den * Nat.pow 2 up then 1 else 0
  max 1 (up + f.bias - f.fractionBits - (down + excess))

/-- The code nearest to a quotient, a half going to the even code; a quotient beyond the finite
codes gives infinity. -/
def nearest (f : BinaryFormat) (num den : Nat) : Nat :=
  if num = 0 then 0
  else
    let field := f.quotientField num den
    let rounded :=
      roundHalfEven (num * Nat.pow 2 (f.bias - field)) (den * Nat.pow 2 (field - f.bias))
    min f.infinity (rounded + (field - 1) * Nat.pow 2 f.fractionBits)

end BinaryFormat

structure Number where
  negative : Bool
  code : Nat
  code_lt : code < BinaryFormat.binary64.codes
deriving DecidableEq

namespace Number

/-- The number with a given sign and code; a code out of range stands for infinity. -/
def ofCode (negative : Bool) (code : Nat) : Number :=
  if h : code < BinaryFormat.binary64.codes then ⟨negative, code, h⟩
  else ⟨negative, BinaryFormat.binary64.infinity, by decide⟩

def zero : Number := ⟨false, 0, by decide⟩

instance : Inhabited Number := ⟨zero⟩

def infinity (negative : Bool) : Number :=
  ⟨negative, BinaryFormat.binary64.infinity, by decide⟩

/-- The undefined number whose fraction has only its first bit set. -/
def undefined (negative : Bool) : Number :=
  ⟨negative, BinaryFormat.binary64.infinity + Nat.pow 2 51, by decide⟩

def isUndefined (x : Number) : Bool := BinaryFormat.binary64.infinity < x.code

def isFinite (x : Number) : Bool := x.code < BinaryFormat.binary64.infinity

def isZero (x : Number) : Bool := x.code = 0

def ratio (x : Number) : Nat × Nat := BinaryFormat.binary64.ratio x.code

def ofRatio (negative : Bool) (num den : Nat) : Number :=
  ofCode negative (BinaryFormat.binary64.nearest num den)

def ofInt (n : Int) : Number := ofRatio (n < 0) n.natAbs 1

def bits (x : Number) : Nat := (if x.negative then BinaryFormat.binary64.codes else 0) + x.code

def ofBits (b : Nat) : Number :=
  ofCode (BinaryFormat.binary64.codes ≤ b) (b % BinaryFormat.binary64.codes)

/-- The place of a number in the order of all patterns: negative numbers from the largest
magnitude down, then positive ones up; undefined numbers lie beyond the infinities. -/
def rank (x : Number) : Int := if x.negative then -1 - (x.code : Int) else x.code

/-- The total order of all patterns, in which the two zeros differ. -/
def totalCompare (x y : Number) : Ordering := compare x.rank y.rank

/-- The place of a number on the number line, on which the two zeros are one point. -/
def position (x : Number) : Int := if x.negative then -(x.code : Int) else x.code

/-- Numeric equality. An undefined number equals nothing. -/
def numericEq (x y : Number) : Bool :=
  !x.isUndefined && !y.isUndefined && x.position == y.position

/-- Numeric order. An undefined number is below nothing and above nothing. -/
def numericLt (x y : Number) : Bool :=
  !x.isUndefined && !y.isUndefined && x.position < y.position

/-- The bound below which every whole number has its own pattern. -/
def exactBound : Nat := Nat.pow 2 53

def integer? (x : Number) : Option Int :=
  if x.isFinite then
    let (num, den) := x.ratio
    if num % den = 0 ∧ num / den < exactBound then
      some (if x.negative then -((num / den : Nat) : Int) else (num / den : Nat))
    else none
  else none

def mulMagnitude (x y : Number) : Number :=
  ofRatio x.negative (x.ratio.1 * y.ratio.1) (x.ratio.2 * y.ratio.2)

def divMagnitude (x y : Number) : Number :=
  ofRatio x.negative (x.ratio.1 * y.ratio.2) (x.ratio.2 * y.ratio.1)

end Number
end IndexedStore
