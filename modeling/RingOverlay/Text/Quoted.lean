import RingOverlay.Text.Unprintable

/-!
# Quoted Text

A text shown inside double quotes so that every character of it can be told
apart: the quote and the backslash are escaped, the common controls have short
escapes, and anything else without a mark of its own is spelled by its number.
A single quote needs no escape between double ones.

## Main definitions

* `Text.quoted`: A text in its quotes.
-/

namespace RingOverlay.Text

/-- A character's number, in lower case hexadecimal without leading zeros. -/
def numbered (c : Char) : List Char :=
  '\\' :: 'u' :: '\x7b' :: Nat.toDigits 16 c.toNat ++ ['\x7d']

/-- How a character is written between quotes. -/
def escaped (c : Char) : List Char :=
  match c with
  | '\x00' => ['\\', '0']
  | '\t' => ['\\', 't']
  | '\r' => ['\\', 'r']
  | '\n' => ['\\', 'n']
  | '\\' => ['\\', '\\']
  | '"' => ['\\', '"']
  | c => if isUnprintable c then numbered c else [c]

/-- A text in double quotes. -/
def quoted (text : String) : String :=
  String.ofList ('"' :: text.toList.flatMap escaped ++ ['"'])

end RingOverlay.Text
