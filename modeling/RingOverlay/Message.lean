import RingOverlay.Contact

/-!
# Messages

The nine things nodes say to each other. Four of them are questions that are
answered at once from the view of the node asked, four are the answers, and one
is a claim that nobody answers. A message is such a body in an envelope with
the version of the protocol and a sequence number; an answer carries the number
of its question, which is all that ties the two together.

A caller that waits for an answer never sees a message, only the `Reply` cut
from it: the number, the kind, and whatever the four kinds of answer can carry.
What is not an answer at all becomes a reply of kind `absent`.

## Main definitions

* `Body`, `Message`: What is said, and its envelope.
* `Kind`: Which of the nine, or none of them.
* `Reply`: What a waiting caller sees.
* `Message.answer`: The envelope of an answer.
-/

namespace RingOverlay

/-- The version every node of this library speaks. -/
def protocolVersion : UInt32 := 417

/-- What a message says. -/
inductive Body where
  /-- Who comes before you? -/
  | askPredecessor
  /-- This one comes before me, or nobody does. -/
  | predecessor (node : Contact)
  /-- This one believes that it comes before you. -/
  | claim (node : Contact)
  /-- Who owns this point? Answer from what you know. -/
  | askOwner (id : Id)
  /-- This one owns the point, or at least is the next to ask. -/
  | owner (node : Contact) (resolved : Bool)
  /-- Who comes after you? -/
  | askSuccessors
  /-- These come after me, nearest first. -/
  | successors (nodes : List Contact)
  /-- Are you there? -/
  | askAlive
  /-- I am. -/
  | alive
deriving DecidableEq, Repr

/-- The kinds of message, and `absent` for no message. -/
inductive Kind where
  | absent
  | askPredecessor
  | predecessor
  | claim
  | askOwner
  | owner
  | askSuccessors
  | successors
  | askAlive
  | alive
deriving DecidableEq, Repr

namespace Kind

/-- Every kind of message there is. -/
def all : List Kind :=
  [askPredecessor, predecessor, claim, askOwner, owner, askSuccessors, successors, askAlive, alive]

/-- The name of a kind, as it stands on the wire and in diagnostics. -/
def name : Kind → String
  | absent => "NotSet"
  | askPredecessor => "GetPredecessorRequest"
  | predecessor => "GetPredecessorResponse"
  | claim => "NotifyRequest"
  | askOwner => "StartFindSuccessorRequest"
  | owner => "StartFindSuccessorResponse"
  | askSuccessors => "GetSuccessorListRequest"
  | successors => "GetSuccessorListResponse"
  | askAlive => "CheckPredecessorRequest"
  | alive => "CheckPredecessorResponse"

/-- The kind of message with a name. -/
def ofName? (name : String) : Option Kind := all.find? fun k => k.name = name

end Kind

namespace Body

/-- The kind of a body. -/
def kind : Body → Kind
  | askPredecessor => .askPredecessor
  | predecessor _ => .predecessor
  | claim _ => .claim
  | askOwner _ => .askOwner
  | owner _ _ => .owner
  | askSuccessors => .askSuccessors
  | successors _ => .successors
  | askAlive => .askAlive
  | alive => .alive

/-- Whether a body answers a question. -/
def isAnswer : Body → Bool
  | predecessor _ | owner _ _ | successors _ | alive => true
  | askPredecessor | claim _ | askOwner _ | askSuccessors | askAlive => false

end Body

/-- A body in its envelope. -/
structure Message where
  version : UInt32
  seq : UInt64
  body : Body
deriving DecidableEq, Repr

/-- What a waiting caller sees of a message. -/
structure Reply where
  seq : UInt64
  kind : Kind
  node : Contact
  resolved : Bool
  nodes : List Contact
deriving DecidableEq, Repr

/-- The reply a caller is left with when nothing came. -/
def Reply.silence : Reply := ⟨0, .absent, Contact.unset, false, []⟩

namespace Message

/-- A message of the current version. -/
def new (seq : UInt64) (body : Body) : Message := ⟨protocolVersion, seq, body⟩

/-- An answer to a message. The number is the question's; the version is this
    node's own, whatever the question's was. -/
def answer (m : Message) (body : Body) : Message := new m.seq body

/-- What a waiting caller sees of the message. A question or a claim keeps its
    number but is of kind `absent`, so that no caller can be waiting for it. -/
def toReply (m : Message) : Reply :=
  let bare : Reply := { Reply.silence with seq := m.seq }
  match m.body with
  | .predecessor c => { bare with kind := .predecessor, node := c }
  | .owner c resolved => { bare with kind := .owner, node := c, resolved := resolved }
  | .successors cs => { bare with kind := .successors, nodes := cs }
  | .alive => { bare with kind := .alive }
  | .askPredecessor | .claim _ | .askOwner _ | .askSuccessors | .askAlive => bare

end Message

end RingOverlay
