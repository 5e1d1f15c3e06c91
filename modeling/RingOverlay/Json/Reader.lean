import RingOverlay.Fault

/-!
# Reading JSON

A reader takes what it needs off the front of a byte string and hands back the
rest. It never looks further than it has to, so the first fault met is the
fault reported, and a text with a misspelt value in front of a missing bracket
fails for the value.

Two rules decide what kind of fault it is. Where a byte was needed and there is
none, the text is truncated; where there is one but not an allowed one, the
text is syntactically wrong. Whether a well formed value fits what was wanted
is judged only after it has been read.

## Main definitions

* `Reader`: What reads.
* `skipBlank`: Blanks may stand in front of every token.
* `word`, `expect`: Fixed bytes.
* `token`: The first byte of the next token.
-/

namespace RingOverlay.Json

/-- A reader turns a text into a value and the rest of the text. -/
abbrev Reader (α : Type) := List UInt8 → Except Flaw (α × List UInt8)

/-- The bytes that notation is made of. -/
def quote : UInt8 := 0x22
def backslash : UInt8 := 0x5c
def comma : UInt8 := 0x2c
def colon : UInt8 := 0x3a
def minus : UInt8 := 0x2d
def plus : UInt8 := 0x2b
def point : UInt8 := 0x2e
def zero : UInt8 := 0x30
def openBracket : UInt8 := 0x5b
def closeBracket : UInt8 := 0x5d
def openBrace : UInt8 := 0x7b
def closeBrace : UInt8 := 0x7d

/-- Whether a byte may stand between two tokens. -/
def isBlank (b : UInt8) : Bool := b == 0x20 || b == 0x0a || b == 0x09 || b == 0x0d

/-- Whether a byte is a decimal digit. -/
def isDigit (b : UInt8) : Bool := 0x30 ≤ b && b ≤ 0x39

/-- Drop the blanks in front of the next token. -/
def skipBlank (s : List UInt8) : List UInt8 := s.dropWhile isBlank

/-- The first byte of the next token, and what follows that byte. -/
def token : Reader UInt8 := fun s =>
  match skipBlank s with
  | [] => .error .truncated
  | b :: rest => .ok (b, rest)

/-- Read the given bytes and no others. -/
def word : List UInt8 → Reader Unit
  | [], s => .ok ((), s)
  | _ :: _, [] => .error .truncated
  | b :: bs, c :: rest => if b = c then word bs rest else .error .syntactic

/-- Read one given byte. -/
def expect (b : UInt8) : Reader Unit := word [b]

/-- Read one given byte as the next token. -/
def expectToken (b : UInt8) : Reader Unit := fun s => expect b (skipBlank s)

/-- What is left of the words `null`, `true` and `false` after their first
    letter. -/
def nullTail : List UInt8 := [0x75, 0x6c, 0x6c]
def trueTail : List UInt8 := [0x72, 0x75, 0x65]
def falseTail : List UInt8 := [0x61, 0x6c, 0x73, 0x65]

/-- Read a whole text: one value, with nothing but blanks behind it. -/
def document {α : Type} (r : Reader α) (s : List UInt8) : Except Flaw α := do
  let (a, rest) ← r s
  if (skipBlank rest).isEmpty then .ok a else .error .syntactic

end RingOverlay.Json
