import RingOverlay.Json.Reader
import RingOverlay.Text.Utf8

/-!
# Strings in JSON

A string is read in one of two ways. Where its content matters it is decoded:
escapes are resolved, surrogates must come in pairs, and the bytes must be
UTF-8 in the end. Where it is only passed over, an escape has to look right but
need not mean anything, and the bytes may be any.

Either way a string ends at the first quote without a backslash in front, and
a control character inside it is a fault.

## Main definitions

* `stringTail`: Read a string whose opening quote has been taken.
* `skipStringTail`: Pass over one.
-/

namespace RingOverlay.Json

/-- The value of a hexadecimal digit. -/
def hexValue? (b : UInt8) : Option Nat :=
  if 0x30 ≤ b && b ≤ 0x39 then some (b.toNat - 0x30)
  else if 0x61 ≤ b && b ≤ 0x66 then some (b.toNat - 0x61 + 10)
  else if 0x41 ≤ b && b ≤ 0x46 then some (b.toNat - 0x41 + 10)
  else none

/-- Read four hexadecimal digits. All four are taken before any is judged. -/
def fourHex : Reader Nat
  | a :: b :: c :: d :: rest =>
    match hexValue? a, hexValue? b, hexValue? c, hexValue? d with
    | some x, some y, some z, some w => .ok (((x * 16 + y) * 16 + z) * 16 + w, rest)
    | _, _, _, _ => .error .syntactic
  | _ => .error .truncated

/-- What the short escapes stand for, by the byte after the backslash. -/
def shortEscape? (b : UInt8) : Option UInt8 :=
  if b = quote || b = backslash || b = 0x2f then some b
  else if b = 0x62 then some 0x08
  else if b = 0x66 then some 0x0c
  else if b = 0x6e then some 0x0a
  else if b = 0x72 then some 0x0d
  else if b = 0x74 then some 0x09
  else none

/-- The byte that begins a numbered escape. -/
def numberedMark : UInt8 := 0x75

/-- Whether a number is the first half of a surrogate pair. -/
def isLead (n : Nat) : Bool := 0xd800 ≤ n && n ≤ 0xdbff

/-- Whether a number is the second half of a surrogate pair. -/
def isTrail (n : Nat) : Bool := 0xdc00 ≤ n && n ≤ 0xdfff

/-- Read the number of a numbered escape, or the two numbers of a pair. -/
def numberedEscape : Reader Char := fun s => do
  let (n, s) ← fourHex s
  if isTrail n then .error .syntactic
  else if isLead n then
    let (_, s) ← expect backslash s
    let (_, s) ← expect numberedMark s
    let (m, s) ← fourHex s
    if isTrail m then .ok (Char.ofNat (0x10000 + (n - 0xd800) * 0x400 + (m - 0xdc00)), s)
    else .error .syntactic
  else .ok (Char.ofNat n, s)

/-- Read an escape whose backslash has been taken: the bytes it stands for. -/
def escape : Reader (List UInt8)
  | [] => .error .truncated
  | b :: rest =>
    if b = numberedMark then do
      let (c, rest) ← numberedEscape rest
      .ok (Utf8.encodeChar c, rest)
    else match shortEscape? b with
      | some c => .ok ([c], rest)
      | none => .error .syntactic

/-- The bytes of a string, up to its closing quote. Every round takes at least
    one byte, so the length of the text bounds their number. -/
def stringBytes : Nat → Reader (List UInt8)
  | 0, _ => .error .truncated
  | _ + 1, [] => .error .truncated
  | n + 1, b :: rest =>
    if b = quote then .ok ([], rest)
    else if b = backslash then do
      let (bytes, rest) ← escape rest
      let (more, rest) ← stringBytes n rest
      .ok (bytes ++ more, rest)
    else if b < 0x20 then .error .syntactic
    else do
      let (more, rest) ← stringBytes n rest
      .ok (b :: more, rest)

/-- Read a string whose opening quote has been taken. -/
def stringTail : Reader String := fun s => do
  let (bytes, rest) ← stringBytes s.length s
  match Utf8.decode bytes with
  | some text => .ok (String.ofList text, rest)
  | none => .error .syntactic

/-- Pass over an escape whose backslash has been taken. -/
def skipEscape : Reader Unit
  | [] => .error .truncated
  | b :: rest =>
    if b = numberedMark then do
      let (_, rest) ← fourHex rest
      .ok ((), rest)
    else if (shortEscape? b).isSome then .ok ((), rest)
    else .error .syntactic

/-- Pass over the bytes of a string, up to and with its closing quote. -/
def skipStringBytes : Nat → Reader Unit
  | 0, _ => .error .truncated
  | _ + 1, [] => .error .truncated
  | n + 1, b :: rest =>
    if b = quote then .ok ((), rest)
    else if b = backslash then do
      let (_, rest) ← skipEscape rest
      skipStringBytes n rest
    else if b < 0x20 then .error .syntactic
    else skipStringBytes n rest

/-- Pass over a string whose opening quote has been taken. -/
def skipStringTail : Reader Unit := fun s => skipStringBytes s.length s

end RingOverlay.Json
