import RingOverlay.Network.State
import RingOverlay.View.Summary

/-!
# Running the Network

How the network moves: what a node's effects do to it, what each piece of work
does, and how the clock advances when there is no work left.

A run stops once every call is over and nothing more can happen at the present
moment, so whatever a call set off has run its course before its result is
looked at. Timers alone do not keep a run going.

## Main definitions

* `Network.apply`: What an effect of a node does.
* `Network.perform`: What a piece of work does.
* `Network.arrive`: What a new moment brings.
* `Network.run`: Work and moments in turn.
-/

namespace RingOverlay.Network

/-- A piece of work joins the end of the list, unless it is on it already. -/
def push (n : Network) (w : Work) : Network :=
  if w ∈ n.work then n else { n with work := n.work ++ [w] }

/-- Whoever is running goes on before anything else does. -/
def pushFront (n : Network) (w : Work) : Network :=
  { n with work := w :: n.work.filter (· ≠ w) }

/-- Change one station. -/
def modifyStation (n : Network) (i : Nat) (f : Station → Station) : Network :=
  { n with stations := n.stations.modify i f }

/-- Change one call. -/
def modifyCall (n : Network) (k : Nat) (f : Call → Call) : Network :=
  { n with calls := n.calls.modify k f }

/-- The station that is bound to an endpoint. -/
def stationAt? (n : Network) (e : Endpoint) : Option Nat :=
  n.stations.findIdx? fun h => h.bound && h.node.home = e

/-- The station with a name. -/
def stationNamed? (n : Network) (name : String) : Option Nat := n.names.lookup name

/-- What the sockets refuse to send: whatever goes to certain endpoints, and what is
    longer than the longest datagram there is. -/
def refusals (n : Network) : Refusals := fun dest datagram =>
  match n.unsendable.lookup dest with
  | some reason => some reason
  | none => if Wire.maxDatagram < datagram.length then some Errno.messageTooLong else none

/-- Put a datagram into the queue of the node that is bound to an endpoint. A
    node reads no more of it than the longest datagram there is. -/
def place (n : Network) (origin : Origin) (dest : Endpoint) (bytes : List UInt8) : Network :=
  match n.stationAt? dest with
  | none => n
  | some i =>
    (n.modifyStation i fun h =>
      { h with mail := h.mail ++ [(origin, bytes.take Wire.maxDatagram)] }).push (.listen i)

/-- Send a scripted letter. -/
def mailLetter (peer sender : Endpoint) (asked : UInt64) (n : Network) (l : Letter) : Network :=
  let origin := l.origin.getD (.endpoint peer)
  let dest := l.dest.getD sender
  let bytes := l.payload.bytes asked
  if l.delay = 0 then n.place origin dest bytes
  else { n with parcels := n.parcels ++ [⟨n.now + l.delay, origin, dest, bytes⟩] }

/-- The scripted peer at an endpoint, if there is one, reacts to a message. -/
def react (n : Network) (peer sender : Endpoint) (m : Message) : Network :=
  match n.peers.lookup peer with
  | none => n
  | some rules =>
    let (letters, rules) := Rule.react m rules
    let n := { n with peers := n.peers.map fun p => if p.1 = peer then (peer, rules) else p }
    letters.foldl (mailLetter peer sender m.seq) n

/-- Carry a message that a node has sent. -/
def carry (n : Network) (i : Nat) (dest : Endpoint) (m : Message) : Network :=
  match n.stations[i]? with
  | none => n
  | some h =>
    let n := { n with sent := ⟨i, dest, m⟩ :: n.sent }
    let n :=
      if m.body.isAnswer then n
      else n.modifyStation i fun h => { h with firstSeq := h.firstSeq.or (some m.seq) }
    match n.stationAt? dest with
    | some _ => n.place (.endpoint h.node.home) dest (Wire.pack m)
    | none => if m.body.isAnswer then n else n.react dest h.node.home m

/-- A round of a call has come to a result. If there is another round the call
    goes on with it at once. -/
def record (n : Network) (k : Nat) (r : Result) : Network :=
  match n.calls[k]? with
  | none => n
  | some c =>
    let left := c.left - 1
    let phase := if left = 0 then Phase.over else .ready
    let n := n.modifyCall k fun c =>
      { c with left := left, phase := phase, results := r :: c.results }
    if left = 0 then n else n.pushFront (.call k)

/-- The result of a task as its caller sees it. -/
def Result.ofOutcome : Outcome → Result
  | .found c => .contact c
  | .done => .done
  | .failed f => .fault f

/-- A node has been started, or could not be. One that has been is known by its
    name from now on; one that could not be gives its endpoint back. -/
def opened (n : Network) (i : Nat) (outcome : Outcome) : Network :=
  match n.stations[i]? with
  | none => n
  | some h =>
    match outcome, n.calls[h.opener]?.map Call.job with
    | .failed f, _ =>
      (n.modifyStation i fun h => { h with bound := false }).record h.opener (.fault f)
    | _, some (.start o) =>
      let upkeep := if o.upkeep then some (Upkeep.start n.now h.node.settings) else none
      let n := n.modifyStation i fun h => { h with upkeep := upkeep }
      let n := { n with names := (o.name, i) :: n.names.filter (·.1 ≠ o.name) }
      n.record h.opener (.contact h.node.view.me)
    | _, _ => n

/-- A task of a node has ended. -/
def finished (n : Network) (i : Nat) (c : Caller) (outcome : Outcome) : Network :=
  match c with
  | .holder k => n.record k (.ofOutcome outcome)
  | .starter => n.opened i outcome
  | .upkeep =>
    let n := n.modifyStation i fun h => { h with upkeep := h.upkeep.map Upkeep.free }
    n.pushFront (.tick i)

/-- What an effect of a node does. -/
def apply (i : Nat) (n : Network) : Effect → Network
  | .send dest m => n.carry i dest m
  | .wake c => n.push (.poll i c)
  | .finish c outcome => n.finished i c outcome

/-- A node has done something for a caller: its new state, and its effects. If
    the caller's question is overdue before it can wait, it goes on at once. -/
def acted (n : Network) (i : Nat) (c : Caller) (result : Node × List Effect) : Network :=
  let n := n.modifyStation i fun h => { h with node := result.1 }
  let n := result.2.foldl (apply i) n
  if result.1.isOverdue n.now c then n.pushFront (.poll i c) else n

/-- Give a node a task. -/
def assign (n : Network) (i : Nat) (c : Caller) (t : Task) : Network :=
  match n.stations[i]? with
  | none => n
  | some h => n.acted i c (h.node.begin n.refusals n.now c t)

/-- The number a node starts to count from. They lie far apart, so no two nodes
    ever use the same number. -/
def numberBase (i : Nat) : UInt64 := UInt64.ofNat (Nat.pow 2 31 + i * Nat.pow 2 24)

/-- Start a node: bind it, and let it enter its ring. -/
def openNode (n : Network) (k : Nat) (o : Opening) : Network :=
  match o.settings with
  | .error f => n.record k (.fault f)
  | .ok settings =>
    match n.unbindable.lookup o.listen with
    | some reason => n.record k (.fault (.bind o.listen reason))
    | none =>
      let home : Endpoint :=
        if o.listen.port = 0 then ⟨o.listen.host, UInt16.ofNat n.nextPort⟩ else o.listen
      let n := if o.listen.port = 0 then { n with nextPort := n.nextPort + 1 } else n
      match n.stationAt? home with
      | some _ => n.record k (.fault (.bind o.listen Errno.addressInUse))
      | none =>
        let i := n.stations.size
        let me : Contact := match o.key with
          | some key => ⟨key, home⟩
          | none => Contact.ofEndpoint home
        let station : Station := ⟨Node.bound settings me (numberBase i), true, [], none, none, k⟩
        { n with stations := n.stations.push station }.assign i .starter (.enter o.through o.alone)

/-- Stop a node. It gives its endpoint and its name back. -/
def closeNode (n : Network) (k : Nat) (name : String) (i : Nat) : Network :=
  let n := n.modifyStation i fun h =>
    { h with node := h.node.stop, bound := false, mail := [], upkeep := none }
  let n := { n with names := n.names.filter (·.1 ≠ name) }
  n.record k .done

/-- Do something with the node of a name. -/
def withStation (n : Network) (k : Nat) (name : String) (f : Nat → Station → Network) : Network :=
  match n.stationNamed? name with
  | none => n.record k .noNode
  | some i =>
    match n.stations[i]? with
    | none => n.record k .noNode
    | some h => f i h

/-- Put an entry in front of a list of pairs, in place of the one with its key. -/
def insert {α β : Type} [DecidableEq α] (a : α) (b : β) (pairs : List (α × β)) : List (α × β) :=
  (a, b) :: pairs.filter (·.1 ≠ a)

/-- Start a round of a call. -/
def startRound (n : Network) (k : Nat) : Job → Network
  | .start o => n.openNode k o
  | .stop name => n.withStation k name fun i _ => n.closeNode k name i
  | .run name t => n.withStation k name fun i _ => n.assign i (.holder k) t
  | .closest name id => n.withStation k name fun _ h =>
    n.record k (.contact (h.node.view.closestPreceding id))
  | .identify name => n.withStation k name fun _ h => n.record k (.contact h.node.view.me)
  | .describe name => n.withStation k name fun _ h => n.record k (.text h.node.view.text)
  | .look name => n.withStation k name fun _ _ => n.record k .nothing
  | .isRunning name => n.withStation k name fun _ h => n.record k (.flag h.node.running)
  | .awaitStop name within => n.withStation k name fun i h =>
    if h.node.running then n.modifyCall k fun c => { c with phase := .watching i (n.now + within) }
    else n.record k (.flag true)
  | .survey => n.record k .nothing
  | .sleep duration => n.modifyCall k fun c => { c with phase := .asleep (n.now + duration) }
  | .inject dest origin payload count =>
    let n := (List.replicate count (payload.bytes 0)).foldl (place · origin dest ·) n
    n.record k .nothing
  | .script place rules =>
    { n with peers := insert place rules n.peers }.record k .nothing
  | .refuseSend dest (some reason) =>
    { n with unsendable := insert dest reason n.unsendable }.record k .nothing
  | .refuseSend dest none =>
    { n with unsendable := n.unsendable.filter (·.1 ≠ dest) }.record k .nothing
  | .refuseBind place reason =>
    { n with unbindable := insert place reason n.unbindable }.record k .nothing
  -- A receive that fails is tried again at once, so nothing comes of it.
  | .refuseReceive _ _ => n.record k .nothing

/-- A node takes the first datagram from its queue, and goes on with the next
    one at once. A node that has stopped takes none. -/
def listen (n : Network) (i : Nat) : Network :=
  match n.stations[i]? with
  | none => n
  | some h =>
    match h.mail with
    | [] => n
    | (origin, bytes) :: rest =>
      let n := n.modifyStation i fun h => { h with mail := rest }
      match origin with
      | .foreign => n.pushFront (.listen i)
      | .endpoint sender =>
        let (node, effects) := h.node.receive n.refusals sender bytes
        let n := n.modifyStation i fun h => { h with node := node }
        (effects.foldl (apply i) n).pushFront (.listen i)

/-- A node's timers are looked at: the first task that is due begins. The timers
    of a node that has stopped are gone. -/
def tick (n : Network) (i : Nat) : Network :=
  match n.stations[i]? with
  | none => n
  | some h =>
    if !h.node.running then n.modifyStation i fun h => { h with upkeep := none }
    else match h.upkeep.bind (Upkeep.due? n.now) with
      | none => n
      | some (t, upkeep) =>
        (n.modifyStation i fun h => { h with upkeep := some upkeep }).assign i .upkeep t

/-- What a piece of work does. -/
def perform (n : Network) : Work → Network
  | .listen i => n.listen i
  | .poll i c =>
    match n.stations[i]? with
    | none => n
    | some h => n.acted i c (h.node.poll n.refusals n.now c)
  | .call k =>
    match n.calls[k]? with
    | none => n
    | some c => (n.modifyCall k fun c => { c with phase := .pending }).startRound k c.job
  | .tick i => n.tick i

/-- Whether a station that is watched has stopped. -/
def hasStopped (n : Network) (i : Nat) : Bool :=
  match n.stations[i]? with
  | none => true
  | some h => !h.node.running

/-- When a station does something of its own accord. -/
def Station.moments (h : Station) : List Nat :=
  h.node.deadline?.toList ++ if h.node.running then (h.upkeep.bind Upkeep.next?).toList else []

/-- When a call goes on of its own accord. -/
def Call.moments (n : Network) (c : Call) : List Nat :=
  match c.phase with
  | .asleep moment => [moment]
  | .watching i moment => if n.hasStopped i then [n.now] else [moment]
  | .ready | .pending | .over => []

/-- The next moment at which something happens. -/
def nextMoment? (n : Network) : Option Nat :=
  (n.parcels.map (·.due) ++ n.stations.toList.flatMap Station.moments
    ++ n.calls.toList.flatMap (Call.moments n)).min?

/-- What the present moment brings a station. -/
def wakeStation (n : Network) (i : Nat) : Network :=
  match n.stations[i]? with
  | none => n
  | some h =>
    let n := match h.node.line with
      | t :: _ => if h.node.isOverdue n.now t.caller then n.push (.poll i t.caller) else n
      | [] => n
    match h.upkeep.bind Upkeep.next? with
    | some due => if due ≤ n.now then n.push (.tick i) else n
    | none => n

/-- What the present moment brings a call. -/
def wakeCall (n : Network) (k : Nat) : Network :=
  match n.calls[k]?.map Call.phase with
  | some (.asleep moment) => if moment ≤ n.now then n.record k .nothing else n
  | some (.watching i moment) =>
    if n.hasStopped i then n.record k (.flag true)
    else if moment ≤ n.now then n.record k (.flag false)
    else n
  | _ => n

/-- A moment comes: what was under way arrives, in the order it was sent, and
    whoever waited for it can go on. -/
def arrive (n : Network) (moment : Nat) : Network :=
  let (here, later) := n.parcels.partition fun p => p.due ≤ moment
  let n := { n with now := moment, parcels := later }
  let n := here.foldl (fun n p => n.place p.origin p.dest p.bytes) n
  let n := (List.range n.stations.size).foldl wakeStation n
  (List.range n.calls.size).foldl wakeCall n

/-- Whether a call is still on its way. -/
def isBusy (n : Network) : Bool := n.calls.any fun c => c.phase ≠ .over

/-- Work while there is work, and move to the next moment when there is none. -/
def run : Nat → Network → Network
  | 0, n => n
  | fuel + 1, n =>
    match n.work with
    | w :: rest => run fuel ({ n with work := rest }.perform w)
    | [] =>
      match n.nextMoment? with
      | none => n
      | some moment =>
        if moment ≤ n.now || n.isBusy then run fuel (n.arrive (max moment n.now)) else n

end RingOverlay.Network
