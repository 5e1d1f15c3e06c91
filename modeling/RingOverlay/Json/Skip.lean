import RingOverlay.Json.Number
import RingOverlay.Json.Text

/-!
# Passing Over a Value

A value that nobody wants is passed over without being built. It still has to
be JSON, so a fault inside it is found; but nothing in it is judged for what it
means, and how deeply it is nested does not matter, because the open brackets
are kept in a list and not on a stack of calls.

The walk alternates between two points. At the first a value is due; at the
second a value has just ended, and the innermost open bracket decides whether a
comma, a closing bracket or nothing may follow.

## Main definitions

* `Bracket`: An open array or object.
* `skipWalk`: The walk itself.
* `skipValue`: Pass over one value.
-/

namespace RingOverlay.Json

/-- An array or an object that is still open. -/
inductive Bracket where
  | array
  | object
deriving DecidableEq, Repr

/-- The byte that closes a bracket. -/
def Bracket.close : Bracket → UInt8
  | array => closeBracket
  | object => closeBrace

/-- Pass over a value that is neither an array nor an object; its first byte
    has been taken. A number that ends too early is syntactically wrong here,
    because the byte that is missing is never asked for. -/
def skipScalar (b : UInt8) : Reader Unit := fun s =>
  if b = quote then skipStringTail s
  else if b = 0x6e then word nullTail s
  else if b = 0x74 then word trueTail s
  else if b = 0x66 then word falseTail s
  else if b = minus || isDigit b then do
    let (_, rest) ← literal .syntactic (b :: s)
    .ok ((), rest)
  else .error .syntactic

/-- Pass over the name of a member and the colon behind it. -/
def skipName : Reader Unit := fun s => do
  let (_, s) ← expectToken quote s
  let (_, s) ← skipStringTail s
  expectToken colon s

/-- Pass over what may stand in front of the first item of a bracket, or the
    whole bracket if it is empty: then the result is `true`. -/
def skipOpening (k : Bracket) : Reader Bool := fun s => do
  let (b, rest) ← token s
  if b = k.close then .ok (true, rest)
  else match k with
    | .array => .ok (false, skipBlank s)
    | .object => do
      let (_, rest) ← skipName s
      .ok (false, rest)

/-- Pass over what stands between two items of a bracket; the result is `true`
    if the bracket closes instead. -/
def skipBetween (k : Bracket) : Reader Bool := fun s => do
  let (b, rest) ← token s
  if b = k.close then .ok (true, rest)
  else if b = comma then
    match k with
    | .array => .ok (false, rest)
    | .object => do
      let (_, rest) ← skipName rest
      .ok (false, rest)
  else .error .syntactic

/-- The walk over a value, innermost open bracket first. With `due` a value
    comes next, and otherwise one has just ended. -/
def skipWalk : Nat → Bool → List Bracket → Reader Unit
  | 0, _, _, _ => .error .truncated
  | _ + 1, false, [], s => .ok ((), s)
  | n + 1, false, k :: outer, s => do
    let (closed, s) ← skipBetween k s
    if closed then skipWalk n false outer s else skipWalk n true (k :: outer) s
  | n + 1, true, enclosing, s => do
    let (b, rest) ← token s
    if b = openBracket || b = openBrace then
      let k := if b = openBracket then Bracket.array else Bracket.object
      let (closed, rest) ← skipOpening k rest
      if closed then skipWalk n false enclosing rest else skipWalk n true (k :: enclosing) rest
    else
      let (_, rest) ← skipScalar b rest
      skipWalk n false enclosing rest

/-- Pass over one value. Every round of the walk but the last takes a byte. -/
def skipValue : Reader Unit := fun s => skipWalk (s.length + 1) true [] s

end RingOverlay.Json
