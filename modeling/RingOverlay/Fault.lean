import RingOverlay.Message
import RingOverlay.Text.Quoted

/-!
# Faults

What can go wrong, by cause. A fault keeps what is needed to act on it and to
describe it; the describing is done in one place, `Fault.message`.

Only two causes are fatal, and both lie between the node and its own socket. A
peer that is silent, lies or sends nonsense never stops a node: such faults end
one operation, and the next round tries again.

## Main definitions

* `Errno`: A refusal by the operating system.
* `Flaw`: What kind of mistake a text holds.
* `Fault`: The causes.
* `Fault.message`: The text that describes a fault.
* `Fault.isFatal`: Whether a fault stops the node.
-/

namespace RingOverlay

/-- A refusal by the operating system, by its number. -/
structure Errno where
  code : Nat
deriving DecidableEq, Repr

namespace Errno

/-- The named file or directory is not there. -/
def notFound : Errno := ⟨2⟩

/-- A directory stands where a file was wanted. -/
def isDirectory : Errno := ⟨21⟩

/-- A datagram is longer than any that can be sent. -/
def messageTooLong : Errno := ⟨90⟩

/-- The address is taken. -/
def addressInUse : Errno := ⟨98⟩

/-- What the operating system calls the refusal. -/
def title (e : Errno) : String :=
  match e.code with
  | 1 => "Operation not permitted"
  | 2 => "No such file or directory"
  | 5 => "Input/output error"
  | 13 => "Permission denied"
  | 21 => "Is a directory"
  | 90 => "Message too long"
  | 98 => "Address already in use"
  | 101 => "Network is unreachable"
  | 111 => "Connection refused"
  | n => s!"Unknown error {n}"

/-- The title with the number behind it. -/
def text (e : Errno) : String := s!"{e.title} (os error {e.code})"

end Errno

/-- What kind of mistake a text holds, judged by the first one met. -/
inductive Flaw where
  /-- The text breaks the rules of its notation. -/
  | syntactic
  /-- The text stops too early. -/
  | truncated
  /-- The text is well formed so far, but says something that does not fit. -/
  | unfit
deriving DecidableEq, Repr

/-- Why a datagram is not a frame. -/
inductive FrameFault where
  /-- The datagram is too short to hold the length in front. -/
  | short (size : Nat)
  /-- The length in front is not that of what follows. -/
  | mismatch (claimed actual : Nat)
deriving DecidableEq, Repr

/-- Why a file could not be read as text. -/
inductive FileFault where
  | refused (reason : Errno)
  | notText
deriving DecidableEq, Repr

/-- The causes of failure. -/
inductive Fault where
  /-- The node's own endpoint could not be had. -/
  | bind (endpoint : Endpoint) (reason : Errno)
  /-- A datagram could not be handed over for sending. -/
  | send (peer : Endpoint) (reason : Errno)
  /-- A datagram is not a frame. -/
  | frame (description : String)
  /-- A frame or a file does not hold what it should. -/
  | codec (flaw : Flaw)
  /-- No answer of the expected kind came in time. -/
  | timeout (peer : Endpoint) (expected : Kind)
  /-- A peer answered a lookup with nobody. -/
  | unsetNode (peer : Endpoint) (id : Id)
  /-- A peer answered a lookup with somebody nobody can reach. -/
  | unroutableNode (peer : Endpoint) (id : Id) (node : Contact)
  /-- A peer sent a lookup back to itself. -/
  | routingLoop (peer : Endpoint) (id : Id)
  /-- A lookup was passed on too often. -/
  | hopLimit (id : Id) (hops : Nat)
  /-- Every address to join through failed. -/
  | joinFailed (count : Nat)
  /-- A settings file could not be read. -/
  | settings (path : String) (reason : FileFault)
deriving DecidableEq, Repr

/-- Why a datagram is not a frame, in words. -/
def FrameFault.text : FrameFault → String
  | short size => s!"{size} bytes is shorter than the length prefix"
  | mismatch claimed actual => s!"length prefix says {claimed} bytes but {actual} followed"

/-- Why a file could not be read, in words. -/
def FileFault.text : FileFault → String
  | refused reason => reason.text
  | notText => "stream did not contain valid UTF-8"

namespace Fault

/-- Whether the fault stops the node. -/
def isFatal : Fault → Bool
  | bind _ _ | send _ _ => true
  | _ => false

/-- The fault in words. What exactly is wrong with a text that could not be
    decoded is not kept, so that one is described by its cause alone. -/
def message : Fault → String
  | bind endpoint reason => s!"failed to bind udp socket on {endpoint.text}: {reason.text}"
  | send peer reason => s!"failed to send datagram to {peer.text}: {reason.text}"
  | frame description => s!"malformed frame: {description}"
  | codec _ => "chord message codec error"
  | timeout peer expected => s!"no {expected.name} from {peer.text} before the response deadline"
  | unsetNode peer id => s!"{peer.text} answered the lookup for {id} with an unset node"
  | unroutableNode peer id node =>
    s!"{peer.text} pointed the lookup for {id} at unreachable node {node.text}"
  | routingLoop peer id => s!"lookup for {id} was routed back to {peer.text}"
  | hopLimit id hops => s!"lookup for {id} did not resolve within {hops} hops"
  | joinFailed count => s!"could not join the ring through any of {count} addresses"
  | settings path reason =>
    let shown := Text.quoted path
    s!"failed to read config {shown}: {reason.text}"

end Fault

end RingOverlay
