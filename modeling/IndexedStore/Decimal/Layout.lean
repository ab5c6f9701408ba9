import IndexedStore.Decimal.Shortest

/-!
Written numbers. A layout fixes where the point goes, when an exponent is written, and what
stands for numbers that are not finite. `plain` is the form of keys and messages, `exchange` the
form of documents.
-/
namespace IndexedStore

structure NumberLayout where
  /-- Which of two equally near shortest decimals is written. -/
  tie : Decimal.Tie
  /-- The places of the point between which no exponent is written, when one ever is. -/
  positional : Option (Int × Int)
  /-- Whether a whole number keeps a point and a zero. -/
  keepsPoint : Bool
  infinite : String
  negativeInfinite : String
  undefined : String

namespace NumberLayout

/-- Never an exponent, and no point in a whole number. -/
def plain : NumberLayout := ⟨.up, none, false, "inf", "-inf", "NaN"⟩

/-- An exponent from 10 ^ 16 up and below 10 ^ -5; a whole number ends in a point and a zero. -/
def exchange : NumberLayout := ⟨.toEven, some (-4, 16), true, "null", "null", "null"⟩

def zeros (n : Nat) : List Char := List.replicate n '0'

def positionalChars (layout : NumberLayout) (digits : List Char) (point : Int) : List Char :=
  if point ≤ 0 then '0' :: '.' :: (zeros (-point).toNat ++ digits)
  else if digits.length ≤ point.toNat then
    digits ++ zeros (point.toNat - digits.length) ++ (if layout.keepsPoint then ['.', '0'] else [])
  else digits.take point.toNat ++ '.' :: digits.drop point.toNat

def exponentChars (digits : List Char) (exponent : Int) : List Char :=
  let fraction := if digits.length ≤ 1 then [] else '.' :: digits.drop 1
  digits.take 1 ++ fraction ++ 'e' :: (if exponent < 0 then '-' else '+') ::
    Nat.toDigits 10 exponent.natAbs

def decimalChars (layout : NumberLayout) (d : Decimal) : List Char :=
  let digits := Nat.toDigits 10 d.digits
  let point := if d.digits = 0 then 1 else digits.length + d.exponent
  match layout.positional with
  | some (low, high) =>
    if low ≤ point ∧ point ≤ high then layout.positionalChars digits point
    else exponentChars digits (point - 1)
  | none => layout.positionalChars digits point

/-- The number written by a layout, with the fewest digits that read back. -/
def chars (layout : NumberLayout) (x : Number) : List Char :=
  if x.isUndefined then layout.undefined.toList
  else if x.isFinite then
    (if x.negative then ['-'] else []) ++ layout.decimalChars (Decimal.shortest layout.tie x.code)
  else if x.negative then layout.negativeInfinite.toList
  else layout.infinite.toList

end NumberLayout

namespace Number

/-- The text of a number in keys: a whole number below the exact bound as an integer, any other
in the plain layout. -/
def keyText (x : Number) : String :=
  match x.integer? with
  | some n => toString n
  | none => String.ofList (NumberLayout.plain.chars x)

def documentText (x : Number) : String := String.ofList (NumberLayout.exchange.chars x)

end Number
end IndexedStore
