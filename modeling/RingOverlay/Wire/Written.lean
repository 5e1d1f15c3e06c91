import RingOverlay.Message
import RingOverlay.Text.Utf8

/-!
# Messages as Text

How a message is written: as JSON without blanks, members in a fixed order.
A body with content is an object whose single member is named for its kind; a
body without is just that name.

All of it is ASCII, so the text is given as characters and each character is
one byte.

## Main definitions

* `member`, `object`, `array`: The marks of the format.
* `contact`, `body`, `message`: What is written.
* `messageBytes`: A message as bytes.
-/

namespace RingOverlay.Wire

/-- Items with commas between them. -/
def separated : List (List Char) → List Char
  | [] => []
  | [item] => item
  | item :: rest => item ++ ',' :: separated rest

/-- A name in quotes. The names used here need no escapes. -/
def quotedName (name : String) : List Char := '"' :: name.toList ++ ['"']

/-- A member of an object. -/
def member (name : String) (value : List Char) : List Char := quotedName name ++ ':' :: value

/-- An object. -/
def object (members : List (List Char)) : List Char := '\x7b' :: separated members ++ ['\x7d']

/-- An array. -/
def array (items : List (List Char)) : List Char := '[' :: separated items ++ [']']

/-- A truth value. -/
def truth (b : Bool) : List Char := if b then "true".toList else "false".toList

/-- A contact. -/
def contact (c : Contact) : List Char :=
  object [
    member "key" (decimal c.key.toNat),
    member "address" ('"' :: c.endpoint.host.spelling ++ ['"']),
    member "port" (decimal c.endpoint.port.toNat)]

/-- The members of a body's content, if it has any. -/
def content : Body → Option (List (List Char))
  | .predecessor c | .claim c => some [member "node" (contact c)]
  | .askOwner id => some [member "key" (decimal id.toNat)]
  | .owner c resolved => some [member "node" (contact c), member "resolved" (truth resolved)]
  | .successors cs => some [member "successors" (array (cs.map contact))]
  | .askPredecessor | .askSuccessors | .askAlive | .alive => none

/-- A body. -/
def body (b : Body) : List Char :=
  match content b with
  | none => quotedName b.kind.name
  | some members => object [member b.kind.name (object members)]

/-- A message. -/
def message (m : Message) : List Char :=
  object [
    member "version" (decimal m.version.toNat),
    member "seq" (decimal m.seq.toNat),
    member "msg" (body m.body)]

/-- A message as bytes. -/
def messageBytes (m : Message) : List UInt8 := Utf8.ascii (message m)

end RingOverlay.Wire
