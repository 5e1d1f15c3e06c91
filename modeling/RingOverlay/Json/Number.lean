import RingOverlay.Json.Reader

/-!
# Numbers in JSON

A number is read by its written form: a whole part, perhaps a fraction, perhaps
an exponent. Only the plain form, a whole part and nothing else, can stand for
an integer; `1.0` and `1e2` cannot, and neither can `-0`, which is a different
zero.

Other numbers still have to be numbers. One that is too large for a double
precision number is a fault of notation and not of fit, so that bound is
decided here, exactly, in whole numbers. The leading digits are gathered as
long as they fit into 64 bits and the digits after them only shift the
exponent; the gathered number and the power of ten are each rounded to 53
significant bits before they are multiplied.

## Main definitions

* `Literal`: The parts of a written number.
* `literal`: Read the parts.
* `Literal.natural?`: The integer that a plain literal stands for.
* `Literal.isFinite`: Whether a double precision number can hold it.
-/

namespace RingOverlay.Json

/-- The parts of a written number. -/
structure Literal where
  negative : Bool
  /-- The digits in front of the point. -/
  whole : List UInt8
  /-- The digits after the point, if there is one. -/
  fraction : Option (List UInt8)
  /-- The sign and the digits of the exponent, if there is one. -/
  exponent : Option (Bool × List UInt8)
deriving DecidableEq, Repr

/-- One or more digits. `early` is the fault if the text ends before them. -/
def digits (early : Flaw) : Reader (List UInt8) := fun s =>
  match s.takeWhile isDigit, s.dropWhile isDigit with
  | [], [] => .error early
  | [], _ :: _ => .error .syntactic
  | ds, rest => .ok (ds, rest)

/-- The fraction of a number, if one follows. -/
def fractionPart (early : Flaw) : Reader (Option (List UInt8)) := fun s =>
  match s with
  | b :: rest =>
    if b = point then do
      let (ds, rest) ← digits early rest
      .ok (some ds, rest)
    else .ok (none, s)
  | [] => .ok (none, s)

/-- The sign of an exponent: whether it is negative. -/
def exponentSign : List UInt8 → Bool × List UInt8
  | b :: rest =>
    if b = plus then (false, rest) else if b = minus then (true, rest) else (false, b :: rest)
  | [] => (false, [])

/-- The exponent of a number, if one follows. -/
def exponentPart (early : Flaw) : Reader (Option (Bool × List UInt8)) := fun s =>
  match s with
  | b :: rest =>
    if b = 0x65 || b = 0x45 then do
      let (negative, rest) := exponentSign rest
      let (ds, rest) ← digits early rest
      .ok (some (negative, ds), rest)
    else .ok (none, s)
  | [] => .ok (none, s)

/-- The sign of a number: whether it is negative. -/
def literalSign : List UInt8 → Bool × List UInt8
  | b :: rest => if b = minus then (true, rest) else (false, b :: rest)
  | [] => (false, [])

/-- Read a number. `early` is the fault if the text ends where a digit is
    needed. A zero in front of another digit is refused. -/
def literal (early : Flaw) : Reader Literal := fun s => do
  let (negative, s) := literalSign s
  let (whole, s) ← digits early s
  if whole.head? = some zero && whole.length > 1 then .error .syntactic
  else
    let (fraction, s) ← fractionPart early s
    let (exponent, s) ← exponentPart early s
    .ok (⟨negative, whole, fraction, exponent⟩, s)

/-- The number that a run of digits stands for. -/
def digitsValue (ds : List UInt8) : Nat := ds.foldl (fun n d => 10 * n + (d.toNat - 0x30)) 0

/-- Append digits to a number for as long as it stays below `2 ^ 64`; the
    second component counts the digits that were appended. -/
def gather : Nat → List UInt8 → Nat × Nat
  | n, [] => (n, 0)
  | n, d :: rest =>
    let grown := 10 * n + (d.toNat - 0x30)
    if grown < UInt64.size then
      let (m, count) := gather grown rest
      (m, count + 1)
    else (n, 0)

/-- The nearest number with at most 53 significant bits; of two equally near
    ones the one whose last bit is clear. -/
def nearestDouble (n : Nat) : Nat :=
  let drop := n.log2 - 52
  let step := Nat.pow 2 drop
  let whole := n / step
  let left := n % step
  if 2 * left > step || (2 * left = step && whole % 2 = 1) then (whole + 1) * step else whole * step

/-- The first whole number that a double precision number rounds to infinity. -/
def doubleLimit : Nat := Nat.pow 2 1024 - Nat.pow 2 970

/-- Whether `n` times a power of ten is finite in double precision. Zero is,
    whatever the exponent; nothing else is with an exponent above 308. -/
def finiteScaled (n : Nat) (exponent : Int) : Bool :=
  if n = 0 || exponent < 0 then true
  else if exponent > 308 then false
  else nearestDouble n * nearestDouble (Nat.pow 10 exponent.toNat) < doubleLimit

namespace Literal

/-- Whether the literal is a whole part and nothing else. -/
def isPlain (l : Literal) : Bool := l.fraction.isNone && l.exponent.isNone

/-- The integer that a literal stands for, if it is plain, carries no sign and
    fits into 64 bits. -/
def natural? (l : Literal) : Option Nat :=
  let value := digitsValue l.whole
  if l.isPlain && !l.negative && value < UInt64.size then some value else none

/-- Whether a double precision number can hold the literal. -/
def isFinite (l : Literal) : Bool :=
  let (n, taken) := gather 0 l.whole
  let (m, used) := gather n (l.fraction.getD [])
  let shift : Int := match l.exponent with
    | none => 0
    | some (true, ds) => -(digitsValue ds : Int)
    | some (false, ds) => digitsValue ds
  finiteScaled m ((l.whole.length - taken : Nat) - (used : Int) + shift)

end Literal

/-- Read a number where an integer is wanted: the integer, or `none` for a
    number that is none. -/
def numeral : Reader (Option Nat) := fun s => do
  let (l, rest) ← literal .truncated s
  match l.natural? with
  | some n => .ok (some n, rest)
  | none => if l.isFinite then .ok (none, rest) else .error .syntactic

end RingOverlay.Json
