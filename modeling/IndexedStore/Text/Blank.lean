import IndexedStore.Text.CharClass

/-!
Blank characters, and text taken apart at blanks and separators. Blanks are the white space of
the character database, which has members beyond ASCII.
-/
namespace IndexedStore.Text

def blankRanges : Array (Nat × Nat) := #[
  (0x9, 0xd), (0x20, 0x20), (0x85, 0x85), (0xa0, 0xa0), (0x1680, 0x1680), (0x2000, 0x200a),
  (0x2028, 0x2029), (0x202f, 0x202f), (0x205f, 0x205f), (0x3000, 0x3000)]

def isBlank (c : Char) : Bool := inRanges blankRanges c.toNat

def trim (cs : List Char) : List Char :=
  ((cs.dropWhile isBlank).reverse.dropWhile isBlank).reverse

/-- The pieces between separators; there is one more piece than there are separators. -/
def splitAt (separator : Char) : List Char → List (List Char)
  | [] => [[]]
  | c :: r =>
    if c = separator then [] :: splitAt separator r
    else match splitAt separator r with
      | [] => [[c]]
      | piece :: pieces => (c :: piece) :: pieces

def words : List Char → List (List Char)
  | [] => []
  | c :: r =>
    if isBlank c then words r
    else match r with
      | [] => [[c]]
      | d :: _ =>
        if isBlank d then [c] :: words r
        else match words r with
          | [] => [[c]]
          | word :: rest => (c :: word) :: rest

def eqIgnoringCase (a b : List Char) : Bool := a.map Char.toLower == b.map Char.toLower

def naturalBound : Nat := Nat.pow 2 64

/-- A whole number without a sign other than an optional plus. -/
def natural? (cs : List Char) : Option Nat :=
  let digits := match cs with
    | '+' :: r => r
    | r => r
  if digits.isEmpty || !digits.all Char.isDigit then none
  else
    let n := digits.foldl (fun n c => 10 * n + (c.toNat - '0'.toNat)) 0
    if n < naturalBound then some n else none

end IndexedStore.Text
