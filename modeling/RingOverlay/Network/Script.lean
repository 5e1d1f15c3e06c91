import RingOverlay.Wire.Frame

/-!
# Scripted Peers

A stand-in for a peer that follows a script instead of the protocol. When a
node asks it something or makes a claim, the first rule that fits says which
datagrams come back, and to whom, and how much later. A rule can be used up.

What comes back need not be an answer, need not carry the right number and need
not be a message at all, so everything a node can be told can be put into a
script.

## Main definitions

* `Payload`, `Letter`: What is sent, and where and when.
* `Rule`: When a peer sends which letters.
* `Rule.react`: The reaction of a peer to a message.
-/

namespace RingOverlay.Network

/-- What a scripted datagram holds. -/
inductive Payload where
  /-- Bytes that may mean anything. -/
  | raw (bytes : List UInt8)
  /-- A message. Without a number of its own an answer takes that of the message
      it reacts to, and anything else takes zero; `shift` is added to either. -/
  | message (body : Body) (seq : Option UInt64) (shift : UInt64) (version : UInt32)
deriving DecidableEq, Repr

/-- Where a datagram seems to come from. Nodes take no notice of what comes from
    a place that is no endpoint of theirs. -/
inductive Origin where
  | endpoint (e : Endpoint)
  | foreign
deriving DecidableEq, Repr

/-- A scripted datagram with what is written on its cover. -/
structure Letter where
  payload : Payload
  /-- Where it seems to come from, if not from the peer itself. -/
  origin : Option Origin
  /-- Where it goes, if not to the one that is reacted to. -/
  dest : Option Endpoint
  /-- How much later it arrives. -/
  delay : Nat
deriving DecidableEq, Repr

/-- What a peer sends on which messages. -/
structure Rule where
  /-- The kind of message it is for, if not for all. -/
  kind : Option Kind
  /-- The point asked for, if it is only for lookups of that point. -/
  id : Option Id
  /-- How often it may still be used, if not for ever. -/
  left : Option Nat
  letters : List Letter
deriving DecidableEq, Repr

/-- The bytes of a payload that reacts to a message with a number. -/
def Payload.bytes (asked : UInt64) : Payload → List UInt8
  | raw bytes => bytes
  | message body seq shift version =>
    let base := seq.getD (if body.isAnswer then asked else 0)
    Wire.pack ⟨version, base + shift, body⟩

/-- Whether a rule is for a message. -/
def Rule.fits (r : Rule) (m : Message) : Bool :=
  r.left != some 0 && r.kind.all (· = m.body.kind)
    && r.id.all fun id => m.body = .askOwner id

/-- The letters of the first rule that fits a message, and the rules with that
    one used once more. -/
def Rule.react (m : Message) : List Rule → List Letter × List Rule
  | [] => ([], [])
  | r :: rest =>
    if r.fits m then (r.letters, { r with left := r.left.map (· - 1) } :: rest)
    else
      let (letters, rest) := react m rest
      (letters, r :: rest)

end RingOverlay.Network
