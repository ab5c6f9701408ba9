import IndexedStore.Json
import IndexedStore.Decimal.Literal

/-!
Numbers in documents. An integer within 64 bits is kept as it is. Any other literal is read in
two steps: its leading digits that fit 64 bits make a significand, which is then scaled by powers
of ten, rounding after each step.
-/
namespace IndexedStore.Json

def significandBound : Nat := Nat.pow 2 64

/-- Adds digits to a significand until one would not fit; the second part counts those added. -/
def absorb (significand : Nat) : List Char → Nat × Nat
  | [] => (significand, 0)
  | c :: r =>
    let next := 10 * significand + Decimal.digitValue c
    if next < significandBound then
      let (last, count) := absorb next r
      (last, count + 1)
    else (significand, 0)

def scaleStep : Nat := 308

/-- A positive number times a power of ten, rounded after each step; nothing when it grows beyond
the finite numbers. -/
def scale (x : Number) (exponent : Int) : Option Number :=
  if exponent.natAbs ≤ scaleStep then
    let power := Number.ofRatio false (Nat.pow 10 exponent.natAbs) 1
    if 0 ≤ exponent then
      let product := x.mulMagnitude power
      if product.isFinite then some product else none
    else some (x.divMagnitude power)
  else if x.isZero then some x
  else if 0 ≤ exponent then none
  else scale (x.divMagnitude (Number.ofRatio false (Nat.pow 10 scaleStep) 1)) (exponent + scaleStep)
termination_by exponent.natAbs
decreasing_by simp only [scaleStep] at *; omega

def scaledNumber (negative : Bool) (whole fraction : List Char) (exponent : Int) :
    Option Number :=
  let (head, used) := absorb 0 whole
  let (significand, usedFraction) := absorb head fraction
  let exponent := ((whole.length - used : Nat) : Int) - usedFraction + exponent
  (scale (Number.ofInt significand) exponent).map fun x => { x with negative := negative }

def wholeNumber (negative : Bool) (digits : List Char) : Option Json :=
  let n := Decimal.ofDigits digits
  if significandBound ≤ n then (scaledNumber negative digits [] 0).map .float
  else if !negative then some (.int n)
  else if 0 < n ∧ n ≤ Nat.pow 2 63 then some (.int (-n))
  else some (.float (Number.ofRatio true n 1))

/-- The exponent after a literal's digits: `none` when there is none, and an inner `none` when it
is malformed. -/
def takeExponent : List Char → Option (Option (Int × List Char))
  | c :: r =>
    if c = 'e' ∨ c = 'E' then
      let (negative, r) := Decimal.takeSign r
      let digits := r.takeWhile Decimal.isDigit
      if digits.isEmpty then some none
      else
        let n : Int := Decimal.ofDigits digits
        some (some (if negative then -n else n, r.dropWhile Decimal.isDigit))
    else none
  | [] => none

def takeNumber (negative : Bool) (cs : List Char) : Option (Json × List Char) :=
  let whole := cs.takeWhile Decimal.isDigit
  let rest := cs.dropWhile Decimal.isDigit
  if whole.isEmpty ∨ (whole.head? = some '0' ∧ 1 < whole.length) then none
  else
    let (fraction, rest') := Decimal.takeFraction rest
    if rest.head? = some '.' ∧ fraction.isEmpty then none
    else match takeExponent rest' with
      | some none => none
      | some (some (exponent, rest)) =>
        (scaledNumber negative whole fraction exponent).map fun x => (.float x, rest)
      | none =>
        if fraction.isEmpty then (wholeNumber negative whole).map fun j => (j, rest')
        else (scaledNumber negative whole fraction 0).map fun x => (.float x, rest')

end IndexedStore.Json
