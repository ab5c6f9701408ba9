import IndexedStore.Number

/-!
Decimals `digits · 10 ^ exponent` and the 64-bit magnitude nearest to one.
-/
namespace IndexedStore

/-- The decimal `digits · 10 ^ exponent`. -/
structure Decimal where
  digits : Nat
  exponent : Int
deriving DecidableEq, Repr

namespace Decimal

def digitCount (n : Nat) : Nat := (Nat.toDigits 10 n).length

def ratio (d : Decimal) : Nat × Nat :=
  (d.digits * Nat.pow 10 d.exponent.toNat, Nat.pow 10 (-d.exponent).toNat)

/-- A decimal with its point this far to the right is beyond every finite magnitude. -/
def largestPoint : Int := 310

/-- A decimal with its point this far to the left is nearest to zero. -/
def leastPoint : Int := -330

/-- The code of the 64-bit magnitude nearest to a decimal, a half going to the even code. -/
def nearest (d : Decimal) : Nat :=
  let point := digitCount d.digits + d.exponent
  if d.digits = 0 ∨ point < leastPoint then 0
  else if largestPoint < point then BinaryFormat.binary64.infinity
  else BinaryFormat.binary64.nearest d.ratio.1 d.ratio.2

def trimmed (d : Decimal) : Decimal :=
  if h : d.digits ≠ 0 ∧ d.digits % 10 = 0 then
    trimmed ⟨d.digits / 10, d.exponent + 1⟩
  else d
termination_by d.digits
decreasing_by exact Nat.div_lt_self (Nat.pos_of_ne_zero h.1) (by decide)

end Decimal
end IndexedStore
