import RingOverlay.Json.Record

/-!
# Messages from Text

How a message is read. Reading is wider than writing: members may come in any
order, members nobody knows are passed over, every record may be written as an
array, blanks may stand anywhere, and a body without content may be written as
an object whose single member is `null`.

Every field of every record is required, so a draft is a message only once each
of its fields is there.

## Main definitions

* `contact`, `body`, `message`: Readers for what is written.
* `decode`: A whole message.
-/

namespace RingOverlay.Wire.Reading

open RingOverlay.Json

/-- A contact that is still being read. -/
structure ContactDraft where
  key : Option Nat := none
  host : Option Host := none
  port : Option Nat := none

/-- The fields of a contact. -/
def contactFields : List (RecordField ContactDraft) :=
  [ .of "key" (·.key) (fun d a => { d with key := some a }) (unsigned 64),
    .of "address" (·.host) (fun d a => { d with host := some a })
      (stringAs fun s => Host.parse? s.toList),
    .of "port" (·.port) (fun d a => { d with port := some a }) (unsigned 16) ]

/-- The contact of a full draft. -/
def ContactDraft.finish (d : ContactDraft) : Option Contact := do
  return ⟨UInt64.ofNat (← d.key), ← d.host, UInt16.ofNat (← d.port)⟩

/-- Read a contact. -/
def contact : Reader Contact := record contactFields {} ContactDraft.finish

/-- Read a record with a single field. -/
def single {α : Type} (name : String) (r : Reader α) : Reader α :=
  record [.of name id (fun _ a => some a) r] none id

/-- The answer to a lookup while it is being read. -/
structure OwnerDraft where
  node : Option Contact := none
  resolved : Option Bool := none

/-- The fields of the answer to a lookup. -/
def ownerFields : List (RecordField OwnerDraft) :=
  [ .of "node" (·.node) (fun d a => { d with node := some a }) contact,
    .of "resolved" (·.resolved) (fun d a => { d with resolved := some a }) boolean ]

/-- The body of a full draft. -/
def OwnerDraft.finish (d : OwnerDraft) : Option Body := do
  return .owner (← d.node) (← d.resolved)

/-- Turn what a reader reads into something else. -/
def mapped {α β : Type} (f : α → β) (r : Reader α) : Reader β := fun s => do
  let (a, rest) ← r s
  .ok (f a, rest)

/-- The body of a kind that has no content. -/
def bare? : Kind → Option Body
  | .askPredecessor => some .askPredecessor
  | .askSuccessors => some .askSuccessors
  | .askAlive => some .askAlive
  | .alive => some .alive
  | .absent | .predecessor | .claim | .askOwner | .owner | .successors => none

/-- Read the content that belongs to a kind. -/
def content (k : Kind) : Reader Body :=
  match k with
  | .predecessor => mapped .predecessor (single "node" contact)
  | .claim => mapped .claim (single "node" contact)
  | .askOwner => mapped (fun n => .askOwner (UInt64.ofNat n)) (single "key" (unsigned 64))
  | .owner => record ownerFields {} OwnerDraft.finish
  | .successors => mapped .successors (single "successors" (listOf contact))
  | .askPredecessor => mapped (fun _ => .askPredecessor) null
  | .askSuccessors => mapped (fun _ => .askSuccessors) null
  | .askAlive => mapped (fun _ => .askAlive) null
  | .alive => mapped (fun _ => .alive) null
  | .absent => fun _ => .error .unfit

/-- Read a body. A name that no kind has is refused as soon as it is read; so
    is, on its own, the name of a kind that has content. -/
def body : Reader Body := fun s => do
  let (b, rest) ← token s
  if b = openBrace then
    let (k, rest) ← stringAs Kind.ofName? rest
    let (_, rest) ← expectToken colon rest
    let (said, rest) ← content k rest
    let (_, rest) ← expectToken closeBrace rest
    .ok (said, rest)
  else if b = quote then
    let (name, rest) ← stringTail rest
    match (Kind.ofName? name).bind bare? with
    | some said => .ok (said, rest)
    | none => .error .unfit
  else .error .syntactic

/-- A message that is still being read. -/
structure MessageDraft where
  version : Option Nat := none
  seq : Option Nat := none
  body : Option Body := none

/-- The fields of a message. -/
def messageFields : List (RecordField MessageDraft) :=
  [ .of "version" (·.version) (fun d a => { d with version := some a }) (unsigned 32),
    .of "seq" (·.seq) (fun d a => { d with seq := some a }) (unsigned 64),
    .of "msg" (·.body) (fun d a => { d with body := some a }) body ]

/-- The message of a full draft. -/
def MessageDraft.finish (d : MessageDraft) : Option Message := do
  return ⟨UInt32.ofNat (← d.version), UInt64.ofNat (← d.seq), ← d.body⟩

/-- Read a message. -/
def message : Reader Message := record messageFields {} MessageDraft.finish

/-- Read a whole text as one message. -/
def decode (text : List UInt8) : Except Flaw Message := document message text

end RingOverlay.Wire.Reading
