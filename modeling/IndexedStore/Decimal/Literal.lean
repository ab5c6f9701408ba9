import IndexedStore.Decimal

/-!
Decimal literals as fields of text. A literal has an optional sign, digits with an optional
point, and an optional exponent; `inf`, `infinity` and `nan` stand for themselves in any case.
-/
namespace IndexedStore.Decimal

def isDigit (c : Char) : Bool := '0' ≤ c && c ≤ '9'

def digitValue (c : Char) : Nat := c.toNat - '0'.toNat

def ofDigits (ds : List Char) : Nat := ds.foldl (fun n c => 10 * n + digitValue c) 0

def takeSign : List Char → Bool × List Char
  | '-' :: r => (true, r)
  | '+' :: r => (false, r)
  | r => (false, r)

def exponent? (cs : List Char) : Option Int :=
  let (negative, ds) := takeSign cs
  if ds.isEmpty || !ds.all isDigit then none
  else some (if negative then -(ofDigits ds : Int) else ofDigits ds)

def takeFraction : List Char → List Char × List Char
  | '.' :: r => (r.takeWhile isDigit, r.dropWhile isDigit)
  | r => ([], r)

def unsigned? (cs : List Char) : Option Decimal :=
  let whole := cs.takeWhile isDigit
  let (fraction, rest) := takeFraction (cs.dropWhile isDigit)
  if whole.isEmpty && fraction.isEmpty then none
  else
    let digits := ofDigits (whole ++ fraction)
    match rest with
    | [] => some ⟨digits, -(fraction.length : Int)⟩
    | c :: r =>
      if c = 'e' ∨ c = 'E' then
        (exponent? r).map fun e => ⟨digits, e - fraction.length⟩
      else none

def named? (negative : Bool) (cs : List Char) : Option Number :=
  match String.ofList (cs.map Char.toLower) with
  | "inf" => some (Number.infinity negative)
  | "infinity" => some (Number.infinity negative)
  | "nan" => some (Number.undefined negative)
  | _ => none

end IndexedStore.Decimal

namespace IndexedStore.Number

def read? (text : List Char) : Option Number :=
  let (negative, rest) := Decimal.takeSign text
  match Decimal.unsigned? rest with
  | some d => some (ofCode negative d.nearest)
  | none => Decimal.named? negative rest

end IndexedStore.Number
