/-!
# Endpoints

Where a datagram goes: a host given by four octets, and a port. The written
form of a host is the dotted quad, and it is strict in both directions. Writing
uses the shortest decimal form of each octet; reading accepts nothing else, so
a host has exactly one written form and `01.2.3.4` is no host at all.

## Main definitions

* `Host`, `Endpoint`: The two halves of an address and their pair.
* `Host.text`, `Endpoint.text`: The written forms.
* `Host.parse?`, `Endpoint.parse?`: Reading a written form back.
* `Endpoint.octets`: The six bytes that an endpoint is hashed by.
-/

namespace RingOverlay

/-- An address of the network layer, as four octets. -/
structure Host where
  first : UInt8
  second : UInt8
  third : UInt8
  fourth : UInt8
deriving DecidableEq, Repr, Inhabited

/-- A host and a port on it. -/
structure Endpoint where
  host : Host
  port : UInt16
deriving DecidableEq, Repr, Inhabited

/-- A number in decimal, without leading zeros. -/
def decimal (n : Nat) : List Char := Nat.toDigits 10 n

/-- The number that a run of decimal digits stands for. -/
def decimalValue (digits : List Char) : Nat :=
  digits.foldl (fun n c => 10 * n + (c.toNat - '0'.toNat)) 0

/-- Cut a text at every occurrence of a separator. There is always one piece
    more than there are separators. -/
def pieces (separator : Char) : List Char → List (List Char)
  | [] => [[]]
  | c :: rest =>
    if c = separator then [] :: pieces separator rest
    else match pieces separator rest with
      | [] => [[c]]
      | piece :: others => (c :: piece) :: others

/-- Read a number in its shortest decimal form: at least one digit, nothing but
    digits, and no leading zero in front of another digit. The text may hold at
    most `width` digits and the number may be at most `limit`. -/
def shortDecimal? (width limit : Nat) (text : List Char) : Option Nat :=
  if text.isEmpty || text.length > width || !text.all Char.isDigit then none
  else if text.head? = some '0' && text.length > 1 then none
  else
    let n := decimalValue text
    if n ≤ limit then some n else none

namespace Host

/-- The address that stands for no particular host. -/
def unspecified : Host := ⟨0, 0, 0, 0⟩

/-- The address that stands for every host at once. -/
def broadcast : Host := ⟨255, 255, 255, 255⟩

/-- The dotted quad. -/
def spelling (h : Host) : List Char :=
  decimal h.first.toNat ++ '.' :: decimal h.second.toNat ++ '.' :: decimal h.third.toNat
    ++ '.' :: decimal h.fourth.toNat

/-- The dotted quad as a string. -/
def text (h : Host) : String := String.ofList h.spelling

/-- Read one octet of a dotted quad. -/
def octet? (text : List Char) : Option UInt8 :=
  (shortDecimal? 3 255 text).map UInt8.ofNat

/-- Read a dotted quad: four octets, each in its shortest decimal form. -/
def parse? (text : List Char) : Option Host :=
  match pieces '.' text with
  | [a, b, c, d] => do
    return ⟨← octet? a, ← octet? b, ← octet? c, ← octet? d⟩
  | _ => none

/-- The four bytes of a host, in order. -/
def octets (h : Host) : List UInt8 := [h.first, h.second, h.third, h.fourth]

end Host

namespace Endpoint

/-- The endpoint that stands for none. -/
def unspecified : Endpoint := ⟨Host.unspecified, 0⟩

/-- Host and port, with a colon between them. -/
def spelling (e : Endpoint) : List Char :=
  e.host.spelling ++ ':' :: decimal e.port.toNat

/-- Host and port as a string. -/
def text (e : Endpoint) : String := String.ofList e.spelling

/-- Read an endpoint from its written form. -/
def parse? (text : List Char) : Option Endpoint :=
  match pieces ':' text with
  | [host, port] => do
    return ⟨← Host.parse? host, UInt16.ofNat (← shortDecimal? 5 65535 port)⟩
  | _ => none

/-- The bytes an endpoint is hashed by: the host's octets, then the port with
    its more significant byte first. -/
def octets (e : Endpoint) : List UInt8 :=
  e.host.octets ++ [(e.port >>> 8).toUInt8, e.port.toUInt8]

end Endpoint

end RingOverlay
