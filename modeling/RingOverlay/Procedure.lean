import RingOverlay.Fault
import RingOverlay.Settings
import RingOverlay.View

/-!
# Procedures

What a node does when it is asked to do something. A procedure runs in turns. A
turn reads and changes the view in one go, and ends either with a result or
with a `Question` to another node; the answer to the question, or its absence,
starts the next turn. Between two turns the view belongs to everybody: other
procedures and other nodes' messages may change it. So a question remembers
what was read before it was asked, and its turn decides what of that still
counts.

Nothing here sends anything. A question says where it wants to go and which
kind of answer it waits for, and whoever runs the procedure sees to that. A
question that cannot even be sent ends its procedure, which is why no turn is
started by one.

A lookup is the one procedure that asks more than twice. Each answer either
names the owner or the next node to ask, so all that it has to remember is whom
it asked and how many questions it may still ask.

## Main definitions

* `Task`: What a node can be asked to do.
* `Question`: Where a procedure waits.
* `Turn`: What a procedure does between two waits.
* `Task.begin`: The first turn.
* `Question.resume`: The turn after a question.
* `judge`: What one answer to a lookup means.
-/

namespace RingOverlay

/-- What a node can be asked to do. -/
inductive Task where
  /-- Find the owner of a point. -/
  | find (id : Id)
  /-- Check the successor, and make this node known to it. -/
  | stabilize
  /-- Refresh the finger whose turn it is. -/
  | fixFinger
  /-- Refresh the list of successors. -/
  | fixSuccessors
  /-- Check whether the predecessor is still there. -/
  | checkPredecessor
  /-- Join a ring through one of these endpoints, tried in order. With `alone`
      the node stays alone if none of them helps. -/
  | enter (through : List Endpoint) (alone : Bool)
deriving DecidableEq, Repr

/-- What a lookup is for. -/
inductive Purpose where
  /-- Its result is handed to the caller. -/
  | report
  /-- Its result goes into a finger slot. -/
  | finger (slot : Fin slotCount)
  /-- Its result becomes the successor. The endpoints not tried yet, and how
      many there were. -/
  | enter (untried : List Endpoint) (total : Nat) (alone : Bool)
deriving DecidableEq, Repr

/-- A lookup that waits for an answer. -/
structure Hop where
  /-- The point whose owner is looked for. -/
  id : Id
  /-- The endpoint asked. -/
  asked : Endpoint
  /-- How many questions may follow this one. -/
  left : Nat
  /-- The entry of the node's own view that the lookup started from, if it
      started from the view. -/
  start : Option Contact
  purpose : Purpose
deriving DecidableEq, Repr

/-- Where a procedure waits. -/
inductive Question where
  /-- A lookup waits for the next hop or the owner. -/
  | hop (h : Hop)
  /-- The successor was asked for its predecessor. -/
  | probe (successor : Contact)
  /-- The successor was asked for its list. -/
  | list (successor : Contact)
  /-- The predecessor was asked whether it is there. -/
  | pulse (predecessor : Contact)
deriving DecidableEq, Repr

namespace Question

/-- Where a question goes. -/
def target : Question → Endpoint
  | hop h => h.asked
  | probe c | list c | pulse c => c.endpoint

/-- What a question says. -/
def body : Question → Body
  | hop h => .askOwner h.id
  | probe _ => .askPredecessor
  | list _ => .askSuccessors
  | pulse _ => .askAlive

/-- The kind of answer that a question waits for. -/
def expects : Question → Kind
  | hop _ => .owner
  | probe _ => .predecessor
  | list _ => .successors
  | pulse _ => .alive

end Question

/-- How a procedure ends. -/
inductive Outcome where
  /-- The owner that was looked for. -/
  | found (c : Contact)
  /-- All went well and there is nothing to report. -/
  | done
  | failed (f : Fault)
deriving DecidableEq, Repr

/-- How a turn ends. -/
inductive Next where
  | ask (q : Question)
  | finish (outcome : Outcome)
deriving DecidableEq, Repr

/-- What a procedure does between two waits. -/
structure Turn where
  /-- The view after the turn. -/
  view : View
  /-- Where this node makes itself known before the turn ends. Nobody answers
      that; if it cannot be sent, the procedure ends there. -/
  claim : Option Endpoint := none
  next : Next

/-- How many questions a lookup asks at most. -/
def hopLimit : Nat := slotCount

/-- What an answer to a lookup means. -/
inductive Verdict where
  /-- This is the owner. -/
  | found (c : Contact)
  /-- Ask there next. -/
  | onward (next : Endpoint)
  /-- The lookup has failed. -/
  | failed (f : Fault)
deriving DecidableEq, Repr

/-- Judge an answer to a lookup, or its absence. A contact that nobody can reach
    is refused even as an owner, and a node that names itself as the next to ask
    would be asked for ever. -/
def judge (id : Id) (asked : Endpoint) : Option Reply → Verdict
  | none => .failed (.timeout asked .owner)
  | some r =>
    if !r.node.isSet then .failed (.unsetNode asked id)
    else if !r.node.isRoutable then .failed (.unroutableNode asked id r.node)
    else if r.resolved then .found r.node
    else if r.node.endpoint = asked then .failed (.routingLoop asked id)
    else .onward r.node.endpoint

/-- Look for the owner of the node's own key through the first endpoint that is
    left. With none left, the node stays alone if it may, or if there was
    nobody to join in the first place. -/
def approach (v : View) (total : Nat) (alone : Bool) : List Endpoint → Turn
  | [] =>
    if alone || total = 0 then { view := v, next := .finish .done }
    else { view := v, next := .finish (.failed (.joinFailed total)) }
  | e :: untried =>
    { view := v
      next := .ask (.hop ⟨v.key, e, hopLimit - 1, none, .enter untried total alone⟩) }

/-- What becomes of a lookup that has found an owner. -/
def Purpose.succeed (v : View) (owner : Contact) : Purpose → Turn
  | report => { view := v, next := .finish (.found owner) }
  | finger slot => { view := v.setFinger slot owner, next := .finish .done }
  | enter _ _ _ => { view := View.joined v.me owner, next := .finish .done }

/-- What becomes of a lookup that has failed. A finger that could not be
    refreshed is no failure: its turn will come again. -/
def Purpose.fail (v : View) (f : Fault) : Purpose → Turn
  | report => { view := v, next := .finish (.failed f) }
  | finger _ => { view := v, next := .finish .done }
  | enter untried total alone => approach v total alone untried

/-- Whether a lookup that got no answer was asking the very endpoint that the
    node's own view had named. -/
def Hop.atStart (h : Hop) : Option Contact :=
  h.start.filter fun c => c.endpoint = h.asked

/-- The turn of a lookup after an answer or its absence. An entry of the view
    that does not answer is cleared from the fingers. -/
def Hop.resume (h : Hop) (v : View) (answer : Option Reply) : Turn :=
  match judge h.id h.asked answer with
  | .found c => h.purpose.succeed v c
  | .onward next =>
    match h.left with
    | 0 => h.purpose.fail v (.hopLimit h.id hopLimit)
    | left + 1 => { view := v, next := .ask (.hop { h with asked := next, left := left }) }
  | .failed f =>
    match answer, h.atStart with
    | none, some c => h.purpose.fail (v.forget c) f
    | _, _ => h.purpose.fail v f

/-- The first turn of a lookup that starts from the node's own view. -/
def seek (v : View) (id : Id) (purpose : Purpose) : Turn :=
  match v.lookup id with
  | (c, true) => purpose.succeed v c
  | (c, false) =>
    { view := v, next := .ask (.hop ⟨id, c.endpoint, hopLimit - 1, some c, purpose⟩) }

/-- Ask the successor for its list, if there is a successor. -/
def askList (v : View) : Next :=
  if v.successor.isSet then .ask (.list v.successor) else .finish .done

/-- Make this node known to its successor and then ask that one for its list. -/
def introduce (v : View) : Turn :=
  { view := v
    claim := if v.successor.isSet then some v.successor.endpoint else none
    next := askList v }

/-- The first turn of a task. -/
def Task.begin (v : View) : Task → Turn
  | find id => seek v id .report
  | stabilize =>
    { view := v
      next := if v.successor.isSet then .ask (.probe v.successor) else .finish .done }
  | fixFinger => seek v.advance (fingerTarget v.key v.nextFinger) (.finger v.nextFinger)
  | fixSuccessors => { view := v, next := askList v }
  | checkPredecessor =>
    { view := v
      next := match v.predecessor with
        | some p => .ask (.pulse p)
        | none => .finish .done }
  | enter through alone => approach v through.length alone through

/-- The turn after a question: what its answer means, or what it means that
    none came. -/
def Question.resume (s : Settings) (v : View) (q : Question) (answer : Option Reply) : Turn :=
  match q with
  | hop h => h.resume v answer
  | probe _ =>
    match answer with
    | some r => introduce (v.probed r.node)
    | none => introduce (v.missed s.failureThreshold)
  | list c =>
    match answer with
    | some r => { view := v.reported c r.nodes s.ceiling, next := .finish .done }
    | none => { view := v, next := .finish .done }
  | pulse p =>
    match answer with
    | some _ => { view := v, next := .finish .done }
    | none => { view := v.bereaved p, next := .finish .done }

namespace View

/-- What a node answers to a body at once, from its view alone. A claim and an
    answer are answered by nobody. -/
def answer? (v : View) : Body → Option Body
  | .askPredecessor => some (.predecessor (v.predecessor.getD Contact.unset))
  | .askOwner id => some (.owner (v.lookup id).1 (v.lookup id).2)
  | .askSuccessors => some (.successors v.successors)
  | .askAlive => some .alive
  | .claim _ | .predecessor _ | .owner _ _ | .successors _ | .alive => none

/-- The view after a body has been heard. Only a claim can change it. -/
def heard (v : View) : Body → View
  | .claim c => v.notified c
  | _ => v

end View

end RingOverlay
