import RingOverlay.Network.Run

/-!
# Setting the Scene and Looking On

What a session needs besides what nodes and networks do of themselves: to put a view into a
state that nothing has brought about, to read settings where there is no file, and to see what
the nodes believe. Nothing here is an operation of a node, and no node makes use of it.

## Main definitions

* `View.setFingers`, `View.advances`: A view in a certain state.
* `View.fingerRuns`: The finger table, cut into runs of equal neighbours.
* `Settings.Source.inEmptyDirectory`: A place without files.
* `Network.viewOf?`, `Network.views`: What the nodes of a network believe.
-/

namespace RingOverlay

namespace View

/-- Write one contact into a run of slots. -/
def setFingers (v : View) (first last : Nat) (c : Contact) : View :=
  { v with fingers := v.fingers.mapIdx fun i f => if first ≤ i && i ≤ last then c else f }

/-- Move the cursor several times. The slots it came to, each with the point it
    looks for, and the view in the end. -/
def advances (v : View) : Nat → List (Nat × Id) × View
  | 0 => ([], v)
  | n + 1 =>
    let (rest, last) := v.advance.advances n
    ((v.nextFinger.val, fingerTarget v.key v.nextFinger.val) :: rest, last)

/-- Cut a table into runs of equal neighbours, each with its first and last
    slot. `slot` is the slot of the first contact. -/
def runs (slot : Nat) : List Contact → List (Nat × Nat × Contact)
  | [] => []
  | c :: rest =>
    match runs (slot + 1) rest with
    | (first, last, d) :: others =>
      if c = d then (slot, last, c) :: others else (slot, slot, c) :: (first, last, d) :: others
    | [] => [(slot, slot, c)]

/-- The runs of the finger table, without those of unset slots. -/
def fingerRuns (v : View) : List (Nat × Nat × Contact) :=
  (runs 0 v.fingers.toList).filter fun run => run.2.2 != Contact.unset

end View

/-- What becomes of reading a path in a directory that holds nothing. Only a
    path that leads nowhere but to the directory itself, or above it, is there
    at all, and what is there is a directory. -/
def Settings.Source.inEmptyDirectory (path : String) : Settings.Source :=
  let stays := (pieces '/' path.toList).all (· ∈ [[], ['.'], ['.', '.']])
  if path ≠ "" && stays then .refused Errno.isDirectory else .refused Errno.notFound

namespace Network

/-- What the node of a name believes, if there is one. -/
def viewOf? (n : Network) (name : String) : Option View := do
  let i ← n.stationNamed? name
  let h ← n.stations[i]?
  return h.node.view

/-- What every node that can be named believes. -/
def views (n : Network) : List (String × View) :=
  n.names.filterMap fun (name, i) => n.stations[i]?.map fun h => (name, h.node.view)

end Network

end RingOverlay
