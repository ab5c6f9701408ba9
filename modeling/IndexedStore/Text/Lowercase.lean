import IndexedStore.Text.CaseTable
import IndexedStore.Text.CharClass

/-!
Lower case of whole texts. A capital sigma at the end of a word becomes the final sigma; every
other character is mapped by itself.
-/
namespace IndexedStore.Text

def isCased (c : Char) : Bool := inRanges casedRanges c.toNat

def isCaseless (c : Char) : Bool :=
  inRanges caselessRanges c.toNat || inRanges caselessRangesBeyond c.toNat

def meetsCased (cs : List Char) : Bool := ((cs.dropWhile isCaseless).head?.map isCased).getD false

def lowerChar (c : Char) : List Char :=
  if c = 'İ' then ['i', '\u0307']
  else
    let found := lowerRuns.find? fun (first, last, step, _) =>
      first ≤ c.toNat && c.toNat ≤ last && (c.toNat - first) % step == 0
    match found with
    | some (first, _, _, lower) => [Char.ofNat (lower + (c.toNat - first))]
    | none => [c]

/-- The lower-case form of a text whose preceding characters are given from the last one back. -/
def lowerFrom (before : List Char) : List Char → List Char
  | [] => []
  | c :: r =>
    let lower :=
      if c = 'Σ' then [if meetsCased before && !meetsCased r then 'ς' else 'σ'] else lowerChar c
    lower ++ lowerFrom (c :: before) r

def lowercase (text : String) : String := String.ofList (lowerFrom [] text.toList)

end IndexedStore.Text
