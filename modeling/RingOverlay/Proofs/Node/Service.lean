import Mathlib.Logic.Function.Basic
import RingOverlay.Proofs.Growth.Nodes
import RingOverlay.Proofs.Node.History
import RingOverlay.Proofs.Predecessor
import RingOverlay.Proofs.Wire.RoundTrip

/-!
# What Others Can Do to a Node

A node that is only spoken to. Its own callers rest, and what arrives is up to others:
any bytes at all, under any version, in any order, again and again. This module says
what can come of that.

Of what the node believes, only the predecessor is ever at stake, and only a claim puts
it there. Who follows the node, whom it falls back on, its fingers and its counters are
beyond the reach of others; they change when the node itself asks, and not when it is
told. And for each question that arrives, exactly one datagram leaves: to the one who
asked, under the number of the question, with what the node believed at that moment.
Nothing else makes it send anything.

From this it follows that nodes cannot be made to talk to each other for ever. What a
node sends is an answer, whoever reads it reads an answer or nothing at all, and an
answer is not answered. In any number of nodes, whatever they believe, the replies are
no more than the questions that were on their way when it started, and each of these is
answered once.

The bytes are the point where this has to be argued and not just looked up: a datagram
asks if it *reads* as a question, and reading is wider than writing. So what a node has
written has to be read back, as that or as nothing, and `eq_of_unpack_pack` says so of
messages of any length.

## Main definitions

* `Datagram`, `Letter`: What arrives, and what is on its way.
* `sends`: What is sent.
* `Node.take`, `Node.serve`: What comes of one datagram, and of any number of them.
* `Served`: What is sent in return for a datagram.
* `Correspondence`: Any number of nodes with letters between them.
* `Correspondence.Runs`: What may be delivered and lost, and what is replied.

## Theorems

* `eq_of_unpack_pack`: What was packed is read as it was, or not at all.
* `serves_take`: What comes of a datagram.
* `view_serve`: What any number of datagrams leaves of the view.
* `length_sends_serve`: There is one reply for each question.
* `Runs.bounded`: A correspondence ends when its questions are answered.
* `served_of_running`: What others can do to a node.
-/

namespace RingOverlay

namespace Wire

theorem eq_drop_of_unframe {datagram text : List UInt8} (h : unframe datagram = .ok text) :
    text = datagram.drop lengthSize := by
  simp only [unframe] at h
  split_ifs at h
  exact (Except.ok.inj h).symm

/-- What was packed is read as it was, or not at all. -/
theorem eq_of_unpack_pack {m a : Message} (h : unpack (pack a) = .ok m) : m = a := by
  rw [unpack] at h
  cases hframe : unframe (pack a) with
  | error fault =>
      rw [hframe] at h
      cases h
  | ok text =>
      have htext : text = messageBytes a := by
        rw [eq_drop_of_unframe hframe, pack, frame]
        exact List.drop_left' (length_bigEndian _ _)
      simp only [hframe, htext, decode_messageBytes] at h
      exact (Except.ok.inj h).symm

end Wire

/-- Whether a body is a question. -/
def Body.asks : Body → Bool
  | askPredecessor | askOwner _ | askSuccessors | askAlive => true
  | predecessor _ | claim _ | owner _ _ | successors _ | alive => false

theorem Body.asks_of_isAnswer {b : Body} (h : b.isAnswer = true) : b.asks = false := by
  cases b <;> cases h <;> rfl

/-- A datagram as it arrives: who has sent it, and its bytes. -/
structure Datagram where
  sender : Endpoint
  bytes : List UInt8
deriving DecidableEq, Repr

namespace Datagram

/-- What a datagram says, if it says anything. -/
def body? (d : Datagram) : Option Body := (Wire.unpack d.bytes).toOption.map Message.body

/-- Whether a datagram is a question. -/
def asks (d : Datagram) : Bool := d.body?.any Body.asks

/-- Who claims in a datagram to be the predecessor, if anybody does. -/
def claimant? (d : Datagram) : Option Contact :=
  d.body?.bind fun
    | .claim c => some c
    | _ => none

theorem body?_of_ok {d : Datagram} {m : Message} (h : Wire.unpack d.bytes = .ok m) :
    d.body? = some m.body := by
  rw [body?, h]
  rfl

theorem body?_of_error {d : Datagram} {f : Fault} (h : Wire.unpack d.bytes = .error f) :
    d.body? = none := by
  rw [body?, h]
  rfl

theorem read_of_claimant? {d : Datagram} {c : Contact} (h : d.claimant? = some c) :
    ∃ version seq, Wire.unpack d.bytes = .ok ⟨version, seq, .claim c⟩ := by
  cases hread : Wire.unpack d.bytes with
  | error f =>
      rw [claimant?, body?_of_error hread] at h
      cases h
  | ok m =>
      rw [claimant?, body?_of_ok hread] at h
      rcases m with ⟨version, seq, body⟩
      cases body <;> cases h
      exact ⟨version, seq, rfl⟩

/-- An answer does not ask, however long it is. -/
theorem asks_of_pack {d : Datagram} {a : Message} (hd : d.bytes = Wire.pack a)
    (h : a.body.isAnswer = true) : d.asks = false := by
  cases hread : Wire.unpack d.bytes with
  | error f => rw [asks, body?_of_error hread, Option.any_none]
  | ok m =>
      rw [asks, body?_of_ok hread, Option.any_some]
      rw [hd] at hread
      rw [Wire.eq_of_unpack_pack hread]
      exact Body.asks_of_isAnswer h

end Datagram

/-- What is sent, and where. -/
def sends (effects : List Effect) : List (Endpoint × Message) :=
  effects.filterMap fun
    | .send dest m => some (dest, m)
    | .wake _ | .finish _ _ => none

@[simp] theorem sends_append (some more : List Effect) :
    sends (some ++ more) = sends some ++ sends more :=
  List.filterMap_append

@[simp] theorem sends_callHead (line : List Ticket) : sends (Node.callHead line) = [] := by
  cases line <;> rfl

/-- What is sent in return for what was read, by a node with a certain view. -/
inductive Served (v : View) (sender : Endpoint) :
    Except Fault Message → List (Endpoint × Message) → Prop where
  | garbled {f : Fault} : Served v sender (.error f) []
  | predecessor {version : UInt32} {seq : UInt64} :
      Served v sender (.ok ⟨version, seq, .askPredecessor⟩)
        [(sender, ⟨protocolVersion, seq, .predecessor (v.predecessor.getD Contact.unset)⟩)]
  | owner {version : UInt32} {seq : UInt64} {id : Id} :
      Served v sender (.ok ⟨version, seq, .askOwner id⟩)
        [(sender, ⟨protocolVersion, seq, .owner (v.lookup id).1 (v.lookup id).2⟩)]
  | successors {version : UInt32} {seq : UInt64} :
      Served v sender (.ok ⟨version, seq, .askSuccessors⟩)
        [(sender, ⟨protocolVersion, seq, .successors v.successors⟩)]
  | alive {version : UInt32} {seq : UInt64} :
      Served v sender (.ok ⟨version, seq, .askAlive⟩) [(sender, ⟨protocolVersion, seq, .alive⟩)]
  | claim {version : UInt32} {seq : UInt64} {c : Contact} :
      Served v sender (.ok ⟨version, seq, .claim c⟩) []
  | answer {m : Message} (hm : m.body.isAnswer = true) : Served v sender (.ok m) []

section Served

variable {v : View} {d : Datagram} {replies : List (Endpoint × Message)}

/-- There is one reply to a question, and none to anything else. -/
theorem Served.length_replies (h : Served v d.sender (Wire.unpack d.bytes) replies) :
    replies.length = if d.asks then 1 else 0 := by
  generalize hread : Wire.unpack d.bytes = read at h
  cases h with
  | garbled => simp [Datagram.asks, Datagram.body?_of_error hread]
  | answer hm => simp [Datagram.asks, Datagram.body?_of_ok hread, Body.asks_of_isAnswer hm]
  | _ => simp [Datagram.asks, Datagram.body?_of_ok hread, Body.asks]

theorem Served.isAnswer {sender : Endpoint} {read : Except Fault Message}
    (h : Served v sender read replies) : ∀ p ∈ replies, p.2.body.isAnswer = true := by
  cases h <;> simp [Body.isAnswer]

-- What a node answers is what is sent in return.
theorem served_of_answer {m : Message} {answer : Body} (h : v.answer? m.body = some answer)
    (sender : Endpoint) : Served v sender (.ok m) [(sender, m.answer answer)] := by
  rcases m with ⟨version, seq, body⟩
  cases body with
  | askPredecessor =>
      cases h
      exact .predecessor
  | askOwner id =>
      cases h
      exact .owner
  | askSuccessors =>
      cases h
      exact .successors
  | askAlive =>
      cases h
      exact .alive
  | claim | predecessor | owner | successors | alive => cases h

end Served

namespace Node

/-- What comes of a datagram, as long as whatever is sent can be sent. -/
def take (n : Node) (d : Datagram) : Node × List Effect := n.receive openSocket d.sender d.bytes

/-- What comes of any number of datagrams, when nothing else happens. -/
def serve (n : Node) (traffic : List Datagram) : Node × List Effect :=
  n.live (traffic.map fun d => .receive openSocket d.sender d.bytes)

theorem serve_cons (n : Node) (d : Datagram) (traffic : List Datagram) :
    n.serve (d :: traffic) = (((n.take d).1.serve traffic).1,
      (n.take d).2 ++ ((n.take d).1.serve traffic).2) := rfl

theorem serve_append (n : Node) (past future : List Datagram) :
    n.serve (past ++ future) = (((n.serve past).1.serve future).1,
      (n.serve past).2 ++ ((n.serve past).1.serve future).2) := by
  simp only [serve, List.map_append, live_append]

/-- What comes of a datagram at a node that runs: the claim in it is heard, if there is
    one, an answer may go to the inbox, and a question is answered. -/
structure Serves (n : Node) (d : Datagram) (r : Node × List Effect) : Prop where
  node : r.1 = { n with view := n.view.claimed d.claimant?.toList, inbox := r.1.inbox }
  served : Served n.view d.sender (Wire.unpack d.bytes) (sends r.2)

section Datagrams

variable {n : Node} {d : Datagram} {r : Node × List Effect}

-- Nobody claims anything.
theorem serves_of_quiet {inbox : List Reply} (hclaim : d.claimant? = none)
    (hserved : Served n.view d.sender (Wire.unpack d.bytes) (sends r.2))
    (hr : r.1 = { n with inbox := inbox }) : n.Serves d r := by
  refine ⟨?_, hserved⟩
  rw [hclaim, hr]
  rfl

theorem claimant?_of_isAnswer {m : Message} (hread : Wire.unpack d.bytes = .ok m)
    (hm : m.body.isAnswer = true) : d.claimant? = none := by
  rw [Datagram.claimant?, Datagram.body?_of_ok hread]
  rcases m with ⟨version, seq, body⟩
  cases body <;> cases hm <;> rfl

theorem served_of_isAnswer {m : Message} (hread : Wire.unpack d.bytes = .ok m)
    (hm : m.body.isAnswer = true) {v : View} : Served v d.sender (Wire.unpack d.bytes) [] := by
  rw [hread]
  exact .answer hm

/-- Nothing else comes of a datagram. -/
theorem serves_take (hn : n.running = true) (d : Datagram) : n.Serves d (n.take d) := by
  have h := receives_receive openSocket n d.sender d.bytes
  rw [take]
  generalize n.receive openSocket d.sender d.bytes = r at h ⊢
  cases h with
  | deaf hdeaf => cases hn.symm.trans hdeaf
  | garbled hread =>
      have hclaim : d.claimant? = none := by
        rw [Datagram.claimant?, Datagram.body?_of_error hread]
        rfl
      refine serves_of_quiet hclaim ?_ rfl
      rw [hread]
      exact .garbled
  | delivers hread hm =>
      refine serves_of_quiet (claimant?_of_isAnswer hread hm) ?_ rfl
      rw [sends_callHead]
      exact served_of_isAnswer hread hm
  | overflows hread hm =>
      exact serves_of_quiet (claimant?_of_isAnswer hread hm) (served_of_isAnswer hread hm) rfl
  | @notes m hread hm hnone =>
      rcases m with ⟨version, seq, body⟩
      -- Of what is no answer, only a claim is not answered.
      cases body with
      | claim c =>
          refine ⟨?_, ?_⟩
          · rw [Datagram.claimant?, Datagram.body?_of_ok hread]
            rfl
          · rw [hread]
            exact .claim
      | askPredecessor | askOwner | askSuccessors | askAlive => cases hnone
      | predecessor | owner | successors | alive => cases hm
  | @answers m answer hread hbody =>
      have hclaim : d.claimant? = none ∧ n.view.heard m.body = n.view := by
        rw [Datagram.claimant?, Datagram.body?_of_ok hread]
        rcases m with ⟨version, seq, body⟩
        cases body <;> cases hbody <;> exact ⟨rfl, rfl⟩
      rw [hclaim.2] at hbody ⊢
      refine serves_of_quiet hclaim.1 ?_ rfl
      rw [hread]
      exact served_of_answer hbody d.sender
  | halts _ _ hsend => cases hsend

theorem Serves.running (h : n.Serves d r) : r.1.running = n.running := by
  rw [h.node]

theorem Serves.view (h : n.Serves d r) : r.1.view = n.view.claimed d.claimant?.toList := by
  rw [h.node]

/-- The predecessor is another one only if it has claimed to be the predecessor and can
    be reached. -/
theorem Serves.predecessor (h : n.Serves d r)
    (hchange : r.1.view.predecessor ≠ n.view.predecessor) :
    ∃ version seq c, Wire.unpack d.bytes = .ok ⟨version, seq, .claim c⟩ ∧
      c.isRoutable = true ∧ r.1.view.predecessor = some c := by
  cases hclaim : d.claimant? with
  | none =>
      rw [h.view, hclaim] at hchange
      exact absurd rfl hchange
  | some c =>
      rcases Datagram.read_of_claimant? hclaim with ⟨version, seq, hread⟩
      have hview : r.1.view = n.view.notified c := by
        rw [h.view, hclaim]
        rfl
      cases haccept : n.view.accepts c with
      | false =>
          rw [hview, View.notified_of_rejects haccept] at hchange
          exact absurd rfl hchange
      | true =>
          refine ⟨version, seq, c, hread, View.routable_of_accepts haccept, ?_⟩
          rw [hview, View.notified_of_accepts haccept]

theorem running_serve (hn : n.running = true) (traffic : List Datagram) :
    (n.serve traffic).1.running = true := by
  induction traffic generalizing n with
  | nil => exact hn
  | cons d traffic ih => exact ih ((serves_take hn d).running.trans hn)

/-- However much arrives: a node that runs is as it was, but for the claims that it has
    heard and what lies in its inbox. -/
theorem node_serve (hn : n.running = true) (traffic : List Datagram) :
    (n.serve traffic).1 = { n with
      view := n.view.claimed (traffic.filterMap Datagram.claimant?)
      inbox := (n.serve traffic).1.inbox } := by
  induction traffic generalizing n with
  | nil => rfl
  | cons d traffic ih =>
      have hd := serves_take hn d
      have hrest := ih (hd.running.trans hn)
      have hclaims : (d :: traffic).filterMap Datagram.claimant? =
          d.claimant?.toList ++ traffic.filterMap Datagram.claimant? := by
        cases hclaim : d.claimant? with
        | none => exact List.filterMap_cons_none hclaim
        | some c => exact List.filterMap_cons_some hclaim
      rw [serve_cons, hclaims, View.claimed_append, ← hd.view]
      refine hrest.trans ?_
      rw [hd.node]

/-- There is one reply for each question. -/
theorem length_sends_serve (hn : n.running = true) (traffic : List Datagram) :
    (sends (n.serve traffic).2).length = traffic.countP Datagram.asks := by
  induction traffic generalizing n with
  | nil => rfl
  | cons d traffic ih =>
      have hd := serves_take hn d
      rw [serve_cons, sends_append, List.length_append, hd.served.length_replies,
        ih (hd.running.trans hn), List.countP_cons, Nat.add_comm]

/-- What is sent is an answer. -/
theorem isAnswer_of_serve (hn : n.running = true) (traffic : List Datagram) :
    ∀ p ∈ sends (n.serve traffic).2, p.2.body.isAnswer = true := by
  induction traffic generalizing n with
  | nil => exact fun p hp => absurd hp List.not_mem_nil
  | cons d traffic ih =>
      have hd := serves_take hn d
      intro p hp
      rw [serve_cons, sends_append, List.mem_append] at hp
      rcases hp with hnow | hlater
      · exact hd.served.isAnswer p hnow
      · exact ih (hd.running.trans hn) p hlater

/-- What is sent in return for a datagram: answers, one if it was a question and the
    node runs. -/
theorem sends_take (n : Node) (d : Datagram) :
    (sends (n.take d).2).length ≤ (if d.asks then 1 else 0) ∧
      ∀ p ∈ sends (n.take d).2, p.2.body.isAnswer = true := by
  cases hn : n.running with
  | true =>
      have hd := serves_take hn d
      exact ⟨Nat.le_of_eq hd.served.length_replies, hd.served.isAnswer⟩
  | false =>
      have hdeaf : (n.take d).2 = [] := by
        rw [take, receive, hn]
        rfl
      rw [hdeaf]
      exact ⟨Nat.zero_le _, fun p hp => absurd hp List.not_mem_nil⟩

/-- What a node has been answered makes it send nothing. -/
theorem sends_take_answer {a : Message} (h : a.body.isAnswer = true) (n : Node)
    (sender : Endpoint) : sends (n.take ⟨sender, Wire.pack a⟩).2 = [] := by
  have hle := (sends_take n ⟨sender, Wire.pack a⟩).1
  rw [Datagram.asks_of_pack rfl h] at hle
  exact List.eq_nil_of_length_eq_zero (Nat.le_zero.mp hle)

end Datagrams

end Node

/-- A datagram on its way. -/
structure Letter extends Datagram where
  dest : Endpoint
deriving DecidableEq, Repr

/-- Any number of nodes, and the letters on their way between them. -/
structure Correspondence where
  node : Endpoint → Node
  transit : List Letter

namespace Correspondence

/-- What is sent in reply to a letter when it arrives. -/
def replies (x : Correspondence) (l : Letter) : List Letter :=
  (sends ((x.node l.dest).take l.toDatagram).2).map fun p => ⟨⟨l.dest, Wire.pack p.2⟩, p.1⟩

/-- A letter arrives. -/
def deliver (x : Correspondence) (l : Letter) : Correspondence where
  node := Function.update x.node l.dest ((x.node l.dest).take l.toDatagram).1
  transit := x.replies l ++ x.transit.erase l

/-- A letter is lost. -/
def lose (x : Correspondence) (l : Letter) : Correspondence :=
  { x with transit := x.transit.erase l }

/-- What may happen to the letters on their way, one after the other: those that arrive,
    and all that is replied. -/
inductive Runs : Correspondence → List Letter → List Letter → Correspondence → Prop where
  | rest {x : Correspondence} : Runs x [] [] x
  | delivers {x y : Correspondence} {l : Letter} {arrived replied : List Letter}
      (hl : l ∈ x.transit) (h : Runs (x.deliver l) arrived replied y) :
      Runs x (l :: arrived) (x.replies l ++ replied) y
  | loses {x y : Correspondence} {l : Letter} {arrived replied : List Letter}
      (hl : l ∈ x.transit) (h : Runs (x.lose l) arrived replied y) :
      Runs x arrived replied y

/-- How many of the letters on their way are questions. -/
def questions (x : Correspondence) : Nat := x.transit.countP fun l => l.asks

variable {x y : Correspondence} {l : Letter} {arrived replied : List Letter}

theorem length_replies_le (x : Correspondence) (l : Letter) :
    (x.replies l).length ≤ if l.asks then 1 else 0 := by
  rw [replies, List.length_map]
  exact (Node.sends_take _ _).1

theorem asks_of_mem_replies (x : Correspondence) (l : Letter) :
    ∀ r ∈ x.replies l, r.asks = false := by
  intro r hr
  rcases List.mem_map.mp hr with ⟨p, hp, rfl⟩
  exact Datagram.asks_of_pack rfl ((Node.sends_take _ _).2 p hp)

-- A letter that is on its way counts once among those that are.
theorem questions_of_mem (hl : l ∈ x.transit) :
    x.questions = (x.lose l).questions + if l.asks then 1 else 0 := by
  rw [questions, (List.perm_cons_erase hl).countP_eq, List.countP_cons]
  rfl

-- Replies are no questions.
theorem questions_deliver (x : Correspondence) (l : Letter) :
    (x.deliver l).questions = (x.lose l).questions := by
  have hnone : (x.replies l).countP (fun r => r.asks) = 0 :=
    List.countP_eq_zero.mpr fun r hr => by
      rw [x.asks_of_mem_replies l r hr]
      exact Bool.false_ne_true
  rw [questions, deliver, List.countP_append, hnone, Nat.zero_add]
  rfl

theorem length_transit_deliver (hl : l ∈ x.transit) :
    (x.deliver l).transit.length + 1 = (x.replies l).length + x.transit.length := by
  have hlength := (List.perm_cons_erase hl).length_eq
  rw [List.length_cons] at hlength
  rw [deliver, List.length_append]
  omega

/-- The induction is on what happens. Each letter that arrives is one less on its way, and
    the reply that takes its place is no question; so the questions pay for the replies,
    and the letters and the questions together for all that arrives. -/
theorem Runs.bounded (h : Runs x arrived replied y) :
    (∀ r ∈ replied, r.asks = false) ∧ replied.length ≤ x.questions ∧
      arrived.length ≤ x.transit.length + x.questions := by
  induction h with
  | rest =>
      exact ⟨fun r hr => absurd hr List.not_mem_nil, Nat.zero_le _, Nat.zero_le _⟩
  | @delivers x y l arrived replied hl _ ih =>
      rcases ih with ⟨hquiet, hreplied, harrived⟩
      have hreplies := x.length_replies_le l
      have hquestions := questions_of_mem hl
      have htransit := length_transit_deliver hl
      rw [questions_deliver] at hreplied harrived
      refine ⟨fun r hr => ?_, ?_, ?_⟩
      · rcases List.mem_append.mp hr with hnow | hlater
        · exact x.asks_of_mem_replies l r hnow
        · exact hquiet r hlater
      · rw [List.length_append]
        omega
      · rw [List.length_cons]
        omega
  | @loses x y l arrived replied hl _ ih =>
      rcases ih with ⟨hquiet, hreplied, harrived⟩
      have hquestions := questions_of_mem hl
      have htransit : (x.lose l).transit.length ≤ x.transit.length := List.length_erase_le
      exact ⟨hquiet, by omega, by omega⟩

theorem questions_le (x : Correspondence) : x.questions ≤ x.transit.length :=
  List.countP_le_length

end Correspondence

namespace Node

/-- What others can do to a node that runs, as long as whatever is sent can be sent.
    However much arrives and whatever it is, the node keeps everything but its
    predecessor and its inbox. At each datagram the predecessor stays, or becomes somebody
    who can be reached and claims to be it in that datagram; and what is sent is what
    `Served` says of the view at that moment. So there is one reply for each question, and
    nothing else is sent.

    No reply makes anybody send anything. In any number of nodes, whatever they believe,
    there are no more replies than questions that were on their way, which is at most one
    for each letter; once these letters and the replies have arrived or are lost, it is
    over. -/
theorem served_of_running {n : Node} (hn : n.running = true) (traffic : List Datagram) :
    (∃ predecessor inbox, (n.serve traffic).1 =
        { n with view := { n.view with predecessor := predecessor }, inbox := inbox }) ∧
      (∀ past d future, traffic = past ++ d :: future →
        let before := (n.serve past).1
        let r := before.take d
        n.serve traffic = ((r.1.serve future).1,
            (n.serve past).2 ++ (r.2 ++ (r.1.serve future).2)) ∧
          Served before.view d.sender (Wire.unpack d.bytes) (sends r.2) ∧
            (r.1.view.predecessor ≠ before.view.predecessor →
              ∃ version seq c, Wire.unpack d.bytes = .ok ⟨version, seq, .claim c⟩ ∧
                c.isRoutable = true ∧ r.1.view.predecessor = some c)) ∧
      (sends (n.serve traffic).2).length = traffic.countP Datagram.asks ∧
      (∀ p ∈ sends (n.serve traffic).2, ∀ (k : Node) (sender : Endpoint),
        sends (k.take ⟨sender, Wire.pack p.2⟩).2 = []) ∧
      ∀ x y arrived replied, Correspondence.Runs x arrived replied y →
        (∀ r ∈ replied, r.asks = false) ∧ replied.length ≤ x.questions ∧
          x.questions ≤ x.transit.length ∧
            arrived.length ≤ x.transit.length + x.questions := by
  refine ⟨?_, fun past d future htraffic => ?_, length_sends_serve hn traffic,
    fun p hp k sender => ?_, fun x y arrived replied hruns => ?_⟩
  · have hnode := node_serve hn traffic
    rw [View.claimed_eq] at hnode
    exact ⟨_, _, hnode⟩
  · have hd := serves_take (running_serve hn past) d
    refine ⟨?_, hd.served, hd.predecessor⟩
    rw [htraffic, serve_append, serve_cons]
  · exact sends_take_answer (isAnswer_of_serve hn traffic p hp) k sender
  · rcases hruns.bounded with ⟨hquiet, hreplied, harrived⟩
    exact ⟨hquiet, hreplied, x.questions_le, harrived⟩

/-- `middle` claims to come before `early`, `late` asks who does, speaking another version
    of the protocol, and asks again in vain: its datagram is cut short. -/
def smallTalk : List Datagram :=
  [⟨Contact.middle.endpoint, Wire.pack (.new 1 (.claim .middle))⟩,
    ⟨Contact.late.endpoint, Wire.pack ⟨1, 5, .askPredecessor⟩⟩,
    ⟨Contact.late.endpoint, (Wire.pack (.new 6 .askPredecessor)).dropLast⟩]

/-- `late` hears of `middle`, once, and whoever reads that has nothing to say to it. -/
theorem smallTalk_answered :
    (bound {} .early 7).running = true ∧
      sends ((bound {} .early 7).serve smallTalk).2 =
        [(Contact.late.endpoint, ⟨417, 5, .predecessor .middle⟩)] ∧
      (sends ((bound {} .early 7).serve smallTalk).2).length = 1 ∧
      ∀ p ∈ sends ((bound {} .early 7).serve smallTalk).2, ∀ (k : Node) (sender : Endpoint),
        sends (k.take ⟨sender, Wire.pack p.2⟩).2 = [] := by
  have hcount : smallTalk.countP Datagram.asks = 1 := by decide +kernel
  rcases served_of_running (n := bound {} .early 7) rfl smallTalk with
    ⟨-, -, hlength, hquiet, -⟩
  rw [hcount] at hlength
  exact ⟨rfl, by decide +kernel, hlength, hquiet⟩

end Node

end RingOverlay
