import IndexedStore.Text.HiddenTable
import IndexedStore.Text.CharClass

/-!
Quoted text in messages. Quotes, backslashes and hidden characters are escaped, so a message
shows exactly which characters a name has.
-/
namespace IndexedStore.Text

def isHidden (c : Char) : Bool :=
  [hiddenRangesLow, hiddenRangesMiddle, hiddenRangesHigh, hiddenRangesScripts,
    hiddenRangesBeyond].any fun ranges => inRanges ranges c.toNat

def hexDigits (n : Nat) : List Char := Nat.toDigits 16 n

def quotedChar (c : Char) : List Char :=
  match c with
  | '"' => ['\\', '"']
  | '\\' => ['\\', '\\']
  | '\n' => ['\\', 'n']
  | '\r' => ['\\', 'r']
  | '\t' => ['\\', 't']
  | '\x00' => ['\\', '0']
  | c => if isHidden c then ['\\', 'u', '\x7b'] ++ hexDigits c.toNat ++ ['\x7d'] else [c]

def quoted (text : String) : String :=
  String.ofList ('"' :: (text.toList.flatMap quotedChar ++ ['"']))

end IndexedStore.Text
