import IndexedStore.Decimal

/-!
The shortest decimal that reads back as a magnitude. A grid of `n` digits holds the multiples of
one power of ten; the first grid with a neighbour of the magnitude that reads back decides the
number of digits, and of two such neighbours the nearer is taken.
-/
namespace IndexedStore.Decimal

inductive Tie where
  | up
  | toEven
deriving DecidableEq, Repr

/-- The place of the point in the decimal digits of a positive quotient: the quotient is below
that power of ten and not below the one before. -/
def pointOf (num den : Nat) : Int :=
  if den ≤ num then digitCount (num / den)
  else 1 - (digitCount ((den - 1) / num) : Int)

/-- The upper neighbour is taken when it alone reads back, when it is nearer, or when the tie
goes to it. -/
def takesUpper (tie : Tie) (lower : Nat) (lowerReads upperReads : Bool) (twice den : Nat) :
    Bool :=
  upperReads && (!lowerReads || den < twice ||
    (twice == den && (tie == .up || lower % 2 == 1)))

def onGrid? (tie : Tie) (code num den : Nat) (exponent : Int) : Option Decimal :=
  let num := num * Nat.pow 10 (-exponent).toNat
  let den := den * Nat.pow 10 exponent.toNat
  let lower : Decimal := ⟨num / den, exponent⟩
  let upper : Decimal := ⟨num / den + 1, exponent⟩
  let lowerReads := lower.nearest == code
  if takesUpper tie lower.digits lowerReads (upper.nearest == code) (2 * (num % den)) den then
    some upper
  else if lowerReads then some lower
  else none

/-- The magnitude written out in full: its denominator is a power of two. -/
def exact (num den : Nat) : Decimal := ⟨num * Nat.pow 5 den.log2, -(den.log2 : Int)⟩

/-- Grids of this many digits tell all magnitudes apart. -/
def mostDigits : Nat := 17

def shortest (tie : Tie) (code : Nat) : Decimal :=
  let (num, den) := BinaryFormat.binary64.ratio code
  if num = 0 then ⟨0, 0⟩
  else
    let point := pointOf num den
    let found := (List.range mostDigits).findSome? fun n =>
      onGrid? tie code num den (point - (n + 1 : Nat))
    (found.getD (exact num den)).trimmed

end IndexedStore.Decimal
