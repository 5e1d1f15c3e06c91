import RingOverlay.Network.Script
import RingOverlay.Node
import RingOverlay.Upkeep

/-!
# A Network in Memory

Nodes that run on one clock and reach each other through queues instead of
sockets. Nothing is lost, reordered or doubled: what is sent to an endpoint
that a node is bound to is in that node's queue at once, what is sent to a
scripted peer makes it react at once, and what is sent anywhere else is gone.

Time stands still while anything can run. Only when everything waits does the
clock move, and then straight to the next moment at which something happens.

The order in which things run is fixed too. Whatever becomes able to run joins
the end of a work list, once; whoever runs goes on until it has to wait.

## Main definitions

* `Station`: A node in the network, with its queue and its timers.
* `Job`, `Call`: Something the network is asked to do, and how far it has got.
* `Network`: The state of the whole.
-/

namespace RingOverlay

namespace Network

/-- A node in the network. -/
structure Station where
  node : Node
  /-- Whether it still holds its endpoint. -/
  bound : Bool
  /-- Datagrams that have arrived and not been looked at, oldest first. -/
  mail : List (Origin × List UInt8)
  /-- The timers, if it has any. -/
  upkeep : Option Upkeep
  /-- The number of the first question or claim that went out. -/
  firstSeq : Option UInt64
  /-- The call that started it. -/
  opener : Nat
deriving DecidableEq

/-- How a node is to be started. -/
structure Opening where
  name : String
  listen : Endpoint
  key : Option Id
  /-- The settings, or why there are none. -/
  settings : Except Fault Settings
  through : List Endpoint
  alone : Bool
  upkeep : Bool

/-- Something the network is asked to do. Nodes go by their names. -/
inductive Job where
  | start (o : Opening)
  | stop (name : String)
  /-- Give a node a task. -/
  | run (name : String) (t : Task)
  /-- Ask a node for its closest finger in front of a point. -/
  | closest (name : String) (id : Id)
  | identify (name : String)
  | describe (name : String)
  | look (name : String)
  | isRunning (name : String)
  /-- Wait until a node has stopped, but no longer than this. -/
  | awaitStop (name : String) (within : Nat)
  | survey
  | sleep (duration : Nat)
  /-- Put datagrams into a node's queue. -/
  | inject (dest : Endpoint) (origin : Origin) (payload : Payload) (count : Nat)
  | script (place : Endpoint) (rules : List Rule)
  | refuseSend (dest : Endpoint) (reason : Option Errno)
  | refuseBind (place : Endpoint) (reason : Errno)
  | refuseReceive (place : Endpoint) (reason : Errno)

/-- What a job came to. -/
inductive Result where
  | nothing
  | done
  | contact (c : Contact)
  | flag (b : Bool)
  | text (s : String)
  | fault (f : Fault)
  | noNode
deriving DecidableEq, Repr

/-- How far a call has got. -/
inductive Phase where
  /-- It can start its next round. -/
  | ready
  /-- It waits for a node to finish its task. -/
  | pending
  /-- It waits for a moment. -/
  | asleep (moment : Nat)
  /-- It waits for a node to stop, or for a moment. -/
  | watching (station : Nat) (moment : Nat)
  | over
deriving DecidableEq, Repr

/-- A job on its way, to be done a number of times in a row. -/
structure Call where
  job : Job
  left : Nat
  phase : Phase
  /-- The results so far, newest first. -/
  results : List Result

/-- What can be run. -/
inductive Work where
  /-- A node looks at its queue. -/
  | listen (station : Nat)
  /-- A caller of a node goes on. -/
  | poll (station : Nat) (c : Caller)
  /-- A call starts its next round. -/
  | call (number : Nat)
  /-- A node's timers are looked at. -/
  | tick (station : Nat)
deriving DecidableEq, Repr

/-- A message that a node has sent. -/
structure Sent where
  station : Nat
  dest : Endpoint
  message : Message
deriving DecidableEq, Repr

/-- A datagram under way. -/
structure Parcel where
  due : Nat
  origin : Origin
  dest : Endpoint
  bytes : List UInt8
deriving DecidableEq, Repr

end Network

open Network

/-- Nodes, scripted peers, and everything between them. -/
structure Network where
  now : Nat := 0
  stations : Array Station := #[]
  /-- The nodes that can be named. -/
  names : List (String × Nat) := []
  peers : List (Endpoint × List Rule) := []
  unsendable : List (Endpoint × Errno) := []
  unbindable : List (Endpoint × Errno) := []
  /-- The next port for a node that does not care. -/
  nextPort : Nat := 49152
  /-- What can run now, in order. -/
  work : List Work := []
  /-- What arrives later, in the order it was sent. -/
  parcels : List Parcel := []
  calls : Array Call := #[]
  /-- What nodes have sent, newest first. -/
  sent : List Sent := []

end RingOverlay
