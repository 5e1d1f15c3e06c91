import RingOverlay.View

/-!
# Showing a View

A view as lines of text: the node, its neighbours, the successor list with its
positions, and the fingers. Fingers come in runs, because most slots of a small
ring find the same owner, so the text names the first slot of each run only.
Unset slots are left out and do not end a run.

## Main definitions

* `View.fingerLines`: The slots that the text shows.
* `View.text`: The whole text.
-/

namespace RingOverlay.View

/-- The fingers shown, each with its slot: those that are set and differ from
    the one shown before. `shown` is the last one shown, `slot` the slot that
    the first of the contacts sits in. -/
def fingerLines (shown : Contact) (slot : Nat) : List Contact → List (Nat × Contact)
  | [] => []
  | f :: rest =>
    if f.isSet && f != shown then (slot, f) :: fingerLines f (slot + 1) rest
    else fingerLines shown (slot + 1) rest

/-- One line for an entry of a numbered list. -/
def entryLine (entry : Nat × Contact) : String :=
  s!"  [{entry.1}] {entry.2.text}\n"

/-- The view as text. -/
def text (v : View) : String :=
  let predecessor := match v.predecessor with
    | none => "<none>"
    | some p => p.text
  let list := v.successors.zipIdx.map fun (c, i) => entryLine (i, c)
  let fingers := (fingerLines Contact.unset 0 v.fingers.toList).map entryLine
  s!"Self: {v.me.text}\nPredecessor: {predecessor}\nSuccessor: {v.successor.text}\n"
    ++ "Successor list:\n" ++ String.join list ++ "Finger table:\n" ++ String.join fingers

end RingOverlay.View
