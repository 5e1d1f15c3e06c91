import RingOverlay.Arc
import RingOverlay.Digest
import RingOverlay.Endpoint

/-!
# Contacts

What one node knows of another: the key that places it on the circle and the
endpoint that reaches it. Key zero is kept for "nobody", so a contact that came
from outside has to pass two separate tests. It is *set* if its key names a
node at all, and *routable* if a datagram could be sent to it; nothing a peer
reports is taken into a node's view before it has passed the second.

## Main definitions

* `Contact`: A key and an endpoint.
* `Contact.unset`: Nobody.
* `Contact.isRoutable`: Whether a datagram can be sent there at all.
* `Contact.ofEndpoint`: The contact placed by the digest of its endpoint.
-/

namespace RingOverlay

/-- A node as others know it. -/
structure Contact where
  key : Id
  endpoint : Endpoint
deriving DecidableEq, Repr

/-- The key of an endpoint when nobody chose one: the leading word of its
    digest, moved off zero because zero means nobody. -/
def Endpoint.key (e : Endpoint) : Id :=
  let digest := Digest.leadingWord e.octets
  if digest = 0 then 1 else digest

namespace Contact

/-- Nobody. -/
def unset : Contact := ⟨0, Endpoint.unspecified⟩

instance : Inhabited Contact := ⟨unset⟩

/-- Whether the contact names a node. Only the key counts. -/
def isSet (c : Contact) : Bool := c.key != 0

/-- Whether a datagram could reach the contact: it names a node, and its
    endpoint has a port and a host that is a single, particular one. -/
def isRoutable (c : Contact) : Bool :=
  c.isSet && c.endpoint.port != 0 && c.endpoint.host != Host.unspecified
    && c.endpoint.host != Host.broadcast

/-- The contact whose place follows from its endpoint alone. -/
def ofEndpoint (e : Endpoint) : Contact := ⟨e.key, e⟩

/-- How a contact is shown: its key and its endpoint. -/
def text (c : Contact) : String :=
  if c.isSet then String.ofList (decimal c.key.toNat ++ ' ' :: c.endpoint.spelling) else "<unset>"

end Contact

end RingOverlay
