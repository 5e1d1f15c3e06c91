import RingOverlay.Contact

/-!
# A Node's View of the Ring

Everything one node believes about the ring: who it is, who comes before and
after it, a list of fallbacks for the one after it, and a table of fingers that
reach further round. All of it is belief. Entries may be stale, out of order or
dead, and every operation here has to make sense whatever the entries are.

The view changes only through the operations of this module, and each of them
is one atomic step: a node asks a question over the network between two of
them, never inside one. What the node was told is passed in as an argument, so
the operations say what an answer *means* and not how it was obtained.

Two bounds live in the types. The finger table has one entry for each slot, so
writing a finger needs a slot that exists. The cursor that walks over the
slots has no such bound: a view may start with it anywhere, and the first step
brings it back onto the table.

## Main definitions

* `View`: What a node believes.
* `View.alone`, `View.joined`: The views a node starts from.
* `View.closestPreceding`: The finger to ask when nothing better is known.
* `View.lookup`: One step of a lookup, answered from the view alone.
* `View.adopt`, `View.refresh`, `View.promote`: How the successor and its
  fallbacks change.
* `View.advance`, `View.setFinger`, `View.forget`: How fingers change.
* `View.accepts`, `View.notified`: When a claimed predecessor is believed.
-/

namespace RingOverlay

/-- What a node believes about the ring. -/
structure View where
  /-- The node itself. -/
  me : Contact
  /-- The node before it, once one has made itself known. -/
  predecessor : Option Contact
  /-- The node after it. -/
  successor : Contact
  /-- One contact for each slot, unset where none is known. -/
  fingers : Vector Contact slotCount
  /-- The successor and those to fall back on, nearest first. -/
  successors : List Contact
  /-- The slot refreshed last. -/
  cursor : Nat
  /-- How many probes of the successor in a row went unanswered. -/
  misses : Nat
deriving DecidableEq

namespace View

/-- The view of a node that is alone on a new ring: it follows itself. The
    cursor stands on the last slot, so the first refresh starts at slot zero. -/
def alone (me : Contact) : View where
  me := me
  predecessor := none
  successor := me
  fingers := Vector.replicate slotCount Contact.unset
  successors := [me]
  cursor := slotCount - 1
  misses := 0

/-- The view of a node that has just learned its successor. -/
def joined (me successor : Contact) : View :=
  { alone me with successor := successor, successors := [successor] }

/-- The place of the node on the circle. -/
def key (v : View) : Id := v.me.key

/-- The finger in the highest slot that lies strictly between the node and a
    point, or the node itself if no finger does. -/
def closestPreceding (v : View) (id : Id) : Contact :=
  let precedes (f : Contact) : Bool := f.isSet && (Arc.between v.key id).contains f.key
  (v.fingers.toList.reverse.find? precedes).getD v.me

/-- One step of a lookup. The contact is the owner of the point if the second
    component is true, and otherwise the next node to ask. Without a usable
    finger the lookup walks along the successors; a node that knows nobody else
    owns every point. -/
def lookup (v : View) (id : Id) : Contact × Bool :=
  if (Arc.upTo v.key v.successor.key).contains id then (v.successor, true)
  else
    let closest := v.closestPreceding id
    if closest ≠ v.me then (closest, false)
    else if v.successor.isSet && v.successor != v.me then (v.successor, false)
    else (v.me, true)

/-- A node was found between this one and its successor. It takes the
    successor's place; the fallbacks behind it stay. -/
def adopt (v : View) (c : Contact) : View :=
  { v with successor := c, successors := c :: v.successors.tail, misses := 0 }

/-- The entries of a reported list that are kept as fallbacks, at most `room`
    of them. An entry nobody can reach is passed over; the node itself or its
    successor ends the list, since from there on it only repeats. -/
def fallbacks (v : View) : Nat → List Contact → List Contact
  | _, [] => []
  | room, c :: rest =>
    if room = 0 || c = v.me || c = v.successor then []
    else if c.isRoutable then c :: v.fallbacks (room - 1) rest
    else v.fallbacks room rest

/-- Rebuild the successor list from the list that the successor reported, to
    at most `ceiling` entries and never less than the successor itself. -/
def refresh (v : View) (reported : List Contact) (ceiling : Nat) : View :=
  { v with successors := v.successor :: v.fallbacks (ceiling - 1) reported }

/-- Clear every finger that is the given contact. -/
def forget (v : View) (c : Contact) : View :=
  { v with fingers := v.fingers.map fun f => if f = c then Contact.unset else f }

/-- The fallbacks that could take over from the successor; the node itself
    does if there is none. -/
def heirs (v : View) : List Contact :=
  match v.successors.tail.filter Contact.isSet with
  | [] => [v.me]
  | c :: rest => c :: rest

/-- Give the successor up: the first heir takes over, and the lost successor
    is cleared from the fingers too. -/
def promote (v : View) : View :=
  let heirs := v.heirs
  { v with successor := heirs.headD v.me, successors := heirs, misses := 0 }.forget v.successor

/-- The slot whose turn it is. -/
def nextFinger (v : View) : Fin slotCount := ⟨nextSlot v.cursor, nextSlot_lt v.cursor⟩

/-- Move the cursor onto the slot whose turn it is. -/
def advance (v : View) : View := { v with cursor := nextSlot v.cursor }

/-- Write a finger. -/
def setFinger (v : View) (slot : Fin slotCount) (c : Contact) : View :=
  { v with fingers := v.fingers.set slot c }

/-- Whether a claim to be the predecessor is believed: the claimant must be
    reachable, and nearer than the predecessor known so far. -/
def accepts (v : View) (c : Contact) : Bool :=
  c.isRoutable &&
    match v.predecessor with
    | none => true
    | some p => (Arc.between p.key v.key).contains c.key

/-- Write a finger by the number of its slot, if there is such a slot. -/
def setFinger? (v : View) (slot : Nat) (c : Contact) : Option View :=
  if h : slot < slotCount then some (v.setFinger ⟨slot, h⟩ c) else none

/-- Another node claims to be the predecessor. -/
def notified (v : View) (c : Contact) : View :=
  if v.accepts c then { v with predecessor := some c } else v

/-- A probe of the successor went unanswered. Once that has happened
    `threshold` times in a row the successor is given up. -/
def missed (v : View) (threshold : Nat) : View :=
  let counted := { v with misses := v.misses + 1 }
  if counted.misses ≥ threshold then counted.promote else counted

/-- A probe of the successor was answered with the successor's predecessor.
    If that one can be reached and lies between, it is the nearer successor. -/
def probed (v : View) (candidate : Contact) : View :=
  let answered := { v with misses := 0 }
  if candidate.isRoutable && (Arc.between v.key v.successor.key).contains candidate.key then
    answered.adopt candidate
  else answered

/-- A probe of a predecessor went unanswered. It is dropped if it is still the
    one believed in. -/
def bereaved (v : View) (silent : Contact) : View :=
  if v.predecessor = some silent then { v with predecessor := none } else v

/-- A successor reported its list. It counts only if that successor is still
    the one followed. -/
def reported (v : View) (source : Contact) (list : List Contact) (ceiling : Nat) : View :=
  if v.successor = source then v.refresh list ceiling else v

end View

end RingOverlay
