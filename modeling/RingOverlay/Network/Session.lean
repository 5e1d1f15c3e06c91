import RingOverlay.Network.Scene

/-!
# Sessions

A session is a list of steps that are put to a network one after the other. A
step is one order or several orders that run side by side; an order is a job, to
be done once or a number of times. The report of a step says what each order
came to, how long it took, and what the nodes sent in the meantime.

Sequence numbers start anywhere, so a report counts them from the first one
that its node sent. The number of an answer belongs to whoever asked, so it is
counted from the first number of the node that the answer went to.

## Main definitions

* `Order`, `Step`: What a session consists of.
* `Report`: What became of a step.
* `Network.step`: Put a step to a network.
-/

namespace RingOverlay.Network

/-- A job, with how often it is to be done if it is not just once. -/
structure Order where
  job : Job
  times : Option Nat

/-- Orders that run side by side, begun in the order given. -/
structure Step where
  orders : List Order

/-- What became of an order: one result, or those of every round. -/
inductive Answer where
  | one (r : Result)
  | many (rs : List Result)
deriving DecidableEq, Repr

/-- A message that was sent, as a report shows it. -/
structure Shown where
  source : Endpoint
  dest : Endpoint
  version : UInt32
  seq : UInt64
  body : Body
deriving DecidableEq, Repr

/-- What became of a step. -/
structure Report where
  answers : List Answer
  elapsed : Nat
  /-- What the nodes sent, oldest first. -/
  sent : List Shown

/-- The first number of the node that was bound to an endpoint last. -/
def firstSeqAt? (n : Network) (e : Endpoint) : Option UInt64 :=
  (n.stations.toList.reverse.find? fun h => h.node.home = e).bind (·.firstSeq)

/-- A message that was sent, with its number counted from where its node began.
    The number of an answer to somebody else stays as it is. -/
def shown (n : Network) (s : Sent) : Shown :=
  let source := match n.stations[s.station]? with
    | some h => h.node.home
    | none => Endpoint.unspecified
  let first? :=
    if s.message.body.isAnswer then n.firstSeqAt? s.dest
    else n.stations[s.station]?.bind (·.firstSeq)
  ⟨source, s.dest, s.message.version, s.message.seq - first?.getD 0, s.message.body⟩

/-- The call that carries out an order. -/
def Order.call (o : Order) : Call :=
  let rounds := o.times.getD 1
  ⟨o.job, rounds, if rounds = 0 then .over else .ready, []⟩

/-- What became of an order, from its call. -/
def Order.answer (o : Order) (c : Call) : Answer :=
  match o.times with
  | some _ => .many c.results.reverse
  | none => .one (c.results.headD .nothing)

/-- More rounds of work and time than any step needs. -/
def patience : Nat := 1000000000

/-- Put a step to a network. -/
def step (n : Network) (s : Step) : Network × Report :=
  let calls := s.orders.map Order.call
  let begun := (calls.zipIdx.filter fun c => c.1.phase ≠ .over).map fun c => Work.call c.2
  let after := { n with calls := calls.toArray, sent := [], work := begun }.run patience
  let answers := (s.orders.zip after.calls.toList).map fun (o, c) => o.answer c
  (after, ⟨answers, after.now - n.now, after.sent.reverse.map after.shown⟩)

end RingOverlay.Network
