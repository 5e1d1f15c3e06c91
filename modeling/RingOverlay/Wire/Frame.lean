import RingOverlay.Wire.Reading
import RingOverlay.Wire.Written

/-!
# Frames

A datagram holds one message: the length of its text in eight bytes, the most
significant first, and then the text. The length is checked against what
arrived before the text is looked at, so a datagram that was cut short or that
carries something extra is refused whatever it says.

## Main definitions

* `pack`: The datagram of a message.
* `unpack`: The message of a datagram.
-/

namespace RingOverlay.Wire

/-- How many bytes the length takes. -/
def lengthSize : Nat := 8

/-- The longest datagram that the network carries. -/
def maxDatagram : Nat := 65507

/-- The lowest `8 * n` bits of a number as `n` bytes, the most significant
    first. -/
def bigEndian : Nat → Nat → List UInt8
  | 0, _ => []
  | n + 1, x => bigEndian n (x / 256) ++ [UInt8.ofNat x]

/-- The number that bytes stand for, the most significant first. -/
def ofBigEndian (bytes : List UInt8) : Nat := bytes.foldl (fun n b => 256 * n + b.toNat) 0

/-- A text with its length in front. -/
def frame (text : List UInt8) : List UInt8 := bigEndian lengthSize text.length ++ text

/-- The datagram of a message. -/
def pack (m : Message) : List UInt8 := frame (messageBytes m)

/-- The text of a datagram whose length in front is right. -/
def unframe (datagram : List UInt8) : Except FrameFault (List UInt8) :=
  if datagram.length < lengthSize then .error (.short datagram.length)
  else
    let claimed := ofBigEndian (datagram.take lengthSize)
    let text := datagram.drop lengthSize
    if claimed = text.length then .ok text else .error (.mismatch claimed text.length)

/-- The message of a datagram. -/
def unpack (datagram : List UInt8) : Except Fault Message :=
  match unframe datagram with
  | .error fault => .error (.frame fault.text)
  | .ok text =>
    match Reading.decode text with
    | .error flaw => .error (.codec flaw)
    | .ok m => .ok m

end RingOverlay.Wire
