/-!
# UTF-8

Characters as bytes. Decoding is strict: every character has exactly one
encoding, the shortest, and surrogates have none, so a byte string is text in
at most one way.

## Main definitions

* `Utf8.encodeChar`, `Utf8.encode`: Characters as bytes.
* `Utf8.decode`: The characters a byte string stands for, if it is text.
-/

namespace RingOverlay.Utf8

/-- The bytes of one character. -/
def encodeChar (c : Char) : List UInt8 :=
  let n := c.toNat
  if n < 0x80 then [UInt8.ofNat n]
  else if n < 0x800 then [UInt8.ofNat (0xc0 + n / 64), UInt8.ofNat (0x80 + n % 64)]
  else if n < 0x10000 then
    [UInt8.ofNat (0xe0 + n / 4096), UInt8.ofNat (0x80 + n / 64 % 64), UInt8.ofNat (0x80 + n % 64)]
  else
    [UInt8.ofNat (0xf0 + n / 262144), UInt8.ofNat (0x80 + n / 4096 % 64),
      UInt8.ofNat (0x80 + n / 64 % 64), UInt8.ofNat (0x80 + n % 64)]

/-- The bytes of a text. -/
def encode (text : List Char) : List UInt8 := text.flatMap encodeChar

/-- The bytes of a text of ASCII characters, one for each. -/
def ascii (text : List Char) : List UInt8 := text.map fun c => UInt8.ofNat c.toNat

/-- The six bits that a byte adds to a character begun by another. -/
def trail? (b : UInt8) : Option Nat :=
  if 0x80 ≤ b && b < 0xc0 then some (b.toNat - 0x80) else none

/-- The character with a number that needs more than the given bound, so that
    no shorter encoding of it exists. -/
def charAbove? (bound n : Nat) : Option Char :=
  if bound ≤ n && n.isValidChar then some (Char.ofNat n) else none

/-- The characters of a byte string. -/
def decode : List UInt8 → Option (List Char)
  | [] => some []
  | a :: r1 =>
    if a < 0x80 then (decode r1).map (Char.ofNat a.toNat :: ·)
    else match r1 with
      | [] => none
      | b :: r2 =>
        if 0xc0 ≤ a && a < 0xe0 then do
          let y ← trail? b
          let c ← charAbove? 0x80 ((a.toNat - 0xc0) * 64 + y)
          (decode r2).map (c :: ·)
        else match r2 with
          | [] => none
          | d :: r3 =>
            if 0xe0 ≤ a && a < 0xf0 then do
              let y ← trail? b
              let z ← trail? d
              let c ← charAbove? 0x800 ((a.toNat - 0xe0) * 4096 + y * 64 + z)
              (decode r3).map (c :: ·)
            else match r3 with
              | [] => none
              | e :: r4 =>
                if 0xf0 ≤ a then do
                  let y ← trail? b
                  let z ← trail? d
                  let w ← trail? e
                  let c ← charAbove? 0x10000 ((a.toNat - 0xf0) * 262144 + y * 4096 + z * 64 + w)
                  (decode r4).map (c :: ·)
                else none

end RingOverlay.Utf8
