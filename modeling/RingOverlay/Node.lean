import RingOverlay.Procedure
import RingOverlay.Wire.Frame

/-!
# A Running Node

A node that runs procedures for several callers over one socket. It owns three
things besides its view: a counter for sequence numbers, an inbox of replies
nobody has looked at yet, and the line in which callers wait to ask.

Only one question is under way at a time. The caller at the head of the line
asks it; everybody else waits behind in the order they came. When the head has
its answer it leaves the line before it goes on, so if it has another question
it joins the line again at the end.

A question draws a fresh number and waits for a reply with that number and of
the right kind. Everything already in the inbox when it is sent is thrown away,
and so is everything that does not match while it waits: a late answer to an
earlier question can never be taken for the answer to this one. Nothing is ever
asked twice; when the time is up, no answer is the answer.

The functions of this module are the whole of what a node does. They take the
time and the refusals of the socket as arguments and give back what has to
happen outside as a list of effects, in order, so that a node can be put into
any network.

## Main definitions

* `Node`: The state of a running node.
* `Node.begin`: A caller gives the node a task.
* `Node.poll`: A caller gets its chance to go on.
* `Node.receive`: A datagram arrives.
* `Effect`: What has to happen outside.
-/

namespace RingOverlay

/-- Who has given a node a task. -/
inductive Caller where
  /-- The one that starts the node. -/
  | starter
  /-- Somebody who holds the node's handle. -/
  | holder (number : Nat)
  /-- The node's own timers. -/
  | upkeep
deriving DecidableEq, Repr

/-- A question that has been sent. -/
structure Flight where
  seq : UInt64
  /-- From this moment on an answer is too late. -/
  deadline : Nat
deriving DecidableEq, Repr

/-- A place in the line. -/
structure Ticket where
  caller : Caller
  question : Question
  /-- Empty until the question has been sent. -/
  flight : Option Flight
deriving DecidableEq, Repr

/-- What has to happen outside of a node. -/
inductive Effect where
  /-- A message is sent. -/
  | send (dest : Endpoint) (m : Message)
  /-- A caller should get a chance to go on. -/
  | wake (c : Caller)
  /-- A caller's task has ended. -/
  | finish (c : Caller) (outcome : Outcome)
deriving DecidableEq, Repr

/-- The state of a running node. -/
structure Node where
  settings : Settings
  /-- The endpoint of its socket. -/
  home : Endpoint
  view : View
  /-- The next sequence number. -/
  nextSeq : UInt64
  /-- Replies nobody has looked at, oldest first. -/
  inbox : List Reply
  /-- Callers that have a question, the one whose turn it is first. -/
  line : List Ticket
  /-- Whether the node still receives. -/
  running : Bool
deriving DecidableEq

/-- The refusals of a socket: which datagrams it will not send to which endpoints,
    and why. -/
abbrev Refusals := Endpoint → List UInt8 → Option Errno

/-- How many replies an inbox holds. -/
def inboxSize : Nat := 50

namespace Node

/-- A node that has just been bound to an endpoint. -/
def bound (settings : Settings) (me : Contact) (firstSeq : UInt64) : Node where
  settings := settings
  home := me.endpoint
  view := View.alone me
  nextSeq := firstSeq
  inbox := []
  line := []
  running := true

/-- Whether an outcome stops the node: any failure to start it, and a fatal
    failure of its own timers. A holder is only told. -/
def stopsOn (c : Caller) (outcome : Outcome) : Bool :=
  match c, outcome with
  | .starter, .failed _ => true
  | .upkeep, .failed f => f.isFatal
  | _, _ => false

/-- A task has ended. -/
def conclude (n : Node) (c : Caller) (outcome : Outcome) : Node × List Effect :=
  ({ n with running := n.running && !stopsOn c outcome }, [.finish c outcome])

/-- The caller at the head of the line, if any, is told that it is its turn. -/
def callHead (line : List Ticket) : List Effect :=
  match line with
  | [] => []
  | t :: _ => [.wake t.caller]

/-- Send a body under the next number. The number is used up even if the socket
    refuses. -/
def dispatch (refuses : Refusals) (n : Node) (dest : Endpoint) (body : Body) :
    Node × Except Fault Effect :=
  let after := { n with nextSeq := n.nextSeq + 1 }
  let m := Message.new n.nextSeq body
  match refuses dest (Wire.pack m) with
  | some reason => (after, .error (.send dest reason))
  | none => (after, .ok (.send dest m))

/-- The caller at the head of the line sends its question. What came for earlier
    questions is thrown away first. A question that cannot be sent ends the
    caller's task, and the next in line has its turn. -/
def launch (refuses : Refusals) (now : Nat) (n : Node) (c : Caller) (q : Question)
    (waiting : List Ticket) : Node × List Effect :=
  let seq := n.nextSeq
  match dispatch refuses { n with inbox := [] } q.target q.body with
  | (n, .ok sent) =>
    ({ n with line := ⟨c, q, some ⟨seq, now + n.settings.responseTimeout⟩⟩ :: waiting }, [sent])
  | (n, .error f) =>
    let (n, ended) := conclude { n with line := waiting } c (.failed f)
    (n, callHead waiting ++ ended)

/-- The end of a turn: the task ends, or the caller joins the line and asks at
    once if nobody is in front. -/
def proceed (refuses : Refusals) (now : Nat) (n : Node) (c : Caller) : Next → Node × List Effect
  | .finish outcome => n.conclude c outcome
  | .ask q =>
    match n.line with
    | [] => n.launch refuses now c q []
    | line => ({ n with line := line ++ [⟨c, q, none⟩] }, [])

/-- Carry out a turn. -/
def follow (refuses : Refusals) (now : Nat) (n : Node) (c : Caller) (turn : Turn) :
    Node × List Effect :=
  let n := { n with view := turn.view }
  match turn.claim with
  | none => n.proceed refuses now c turn.next
  | some dest =>
    match dispatch refuses n dest (.claim n.view.me) with
    | (n, .error f) => n.conclude c (.failed f)
    | (n, .ok sent) =>
      let (n, more) := n.proceed refuses now c turn.next
      (n, sent :: more)

/-- A caller gives the node a task. -/
def begin (refuses : Refusals) (now : Nat) (n : Node) (c : Caller) (t : Task) :
    Node × List Effect :=
  n.follow refuses now c (t.begin n.view)

/-- The first reply with a number and of a kind, and what lies behind it. -/
def firstMatch (seq : UInt64) (k : Kind) : List Reply → Option (Reply × List Reply)
  | [] => none
  | r :: rest => if r.seq = seq && r.kind = k then some (r, rest) else firstMatch seq k rest

/-- The question at the head of the line has its answer, or has waited long
    enough: its caller leaves the line and takes its next turn. -/
def resolve (refuses : Refusals) (now : Nat) (n : Node) (t : Ticket) (waiting : List Ticket)
    (answer : Option Reply) : Node × List Effect :=
  let turn := t.question.resume n.settings n.view answer
  let (n, effects) := { n with line := waiting }.follow refuses now t.caller turn
  (n, callHead waiting ++ effects)

/-- A caller gets its chance to go on. If it heads the line it sends its
    question, or looks through the inbox for the answer. Once the time is up
    the inbox is not looked at any more. -/
def poll (refuses : Refusals) (now : Nat) (n : Node) (c : Caller) : Node × List Effect :=
  match n.line with
  | [] => (n, [])
  | t :: waiting =>
    if t.caller ≠ c then (n, [])
    else match t.flight with
      | none => n.launch refuses now c t.question waiting
      | some f =>
        if f.deadline ≤ now then n.resolve refuses now t waiting none
        else match firstMatch f.seq t.question.expects n.inbox with
          | some (r, rest) => { n with inbox := rest }.resolve refuses now t waiting (some r)
          | none => ({ n with inbox := [] }, [])

/-- Whether a caller's question is under way but its time is up already. -/
def isOverdue (now : Nat) (n : Node) (c : Caller) : Bool :=
  match n.line with
  | [] => false
  | t :: _ => t.caller = c && t.flight.any fun f => f.deadline ≤ now

/-- When the question that is under way runs out of time. -/
def deadline? (n : Node) : Option Nat := do
  let t ← n.line.head?
  let f ← t.flight
  return f.deadline

/-- Put a reply into the inbox, unless it is full. -/
def deliver (n : Node) (r : Reply) : Node × List Effect :=
  if n.inbox.length < inboxSize then ({ n with inbox := n.inbox ++ [r] }, callHead n.line)
  else (n, [])

/-- A message has arrived. An answer goes to the inbox; anything else may change
    the view, and is answered at once if it is a question. If the socket refuses
    the answer, the node stops. -/
def hear (refuses : Refusals) (n : Node) (sender : Endpoint) (m : Message) : Node × List Effect :=
  if m.body.isAnswer then n.deliver m.toReply
  else
    let n := { n with view := n.view.heard m.body }
    match n.view.answer? m.body with
    | none => (n, [])
    | some body =>
      let answer := m.answer body
      match refuses sender (Wire.pack answer) with
      | some _ => ({ n with running := false }, [])
      | none => (n, [.send sender answer])

/-- A datagram has arrived. One that cannot be decoded is dropped; so is all that
    arrives once the node has stopped. -/
def receive (refuses : Refusals) (n : Node) (sender : Endpoint) (datagram : List UInt8) :
    Node × List Effect :=
  if !n.running then (n, [])
  else match Wire.unpack datagram with
    | .error _ => (n, [])
    | .ok m => n.hear refuses sender m

/-- The node is stopped from outside. Its own timers are given up wherever they
    stand, so what they were waiting to ask or to hear is forgotten. -/
def stop (n : Node) : Node :=
  { n with running := false, line := n.line.filter (·.caller ≠ .upkeep) }

end Node

end RingOverlay
