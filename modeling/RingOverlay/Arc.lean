/-!
# Identifiers and Arcs

Keys and node positions are 64-bit words, read as points of a circle of
`2 ^ 64` places. Every routing decision asks one question about that circle:
does a point lie on the clockwise stretch from one point to another? `Arc` is
such a stretch and `Arc.contains` answers the question by comparing the raw
words, without ever forming a difference, so that the case where the stretch
passes the largest word is visible as a case of its own.

An arc never holds its lower end, with one exception that follows from its
upper end being counted in: the arc from a point all the way round to itself
holds every other point, and the point too if the upper end is included.

## Main definitions

* `Id`: A point of the circle.
* `Arc.contains`: Whether a point lies on an arc.
* `Id.distance`: How far one point lies clockwise of another.
* `fingerTarget`: The point that a finger slot looks for.
* `nextSlot`: The slot refreshed after a given one.
-/

namespace RingOverlay

/-- A point of the identifier circle. -/
abbrev Id := UInt64

/-- The clockwise stretch of the circle that starts after `lower` and ends
    before `upper`, or at `upper` if that end is included. -/
structure Arc where
  /-- The point the arc starts after. -/
  lower : Id
  /-- The point the arc runs to. -/
  upper : Id
  /-- Whether `upper` itself belongs to the arc. -/
  inclusive : Bool
deriving DecidableEq, Repr

namespace Arc

/-- The arc strictly between two points. -/
def between (lower upper : Id) : Arc := ⟨lower, upper, false⟩

/-- The arc after one point, up to and including another. -/
def upTo (lower upper : Id) : Arc := ⟨lower, upper, true⟩

/-- Whether a point lies strictly between the ends of the arc. With equal
    ends the arc goes once round, so only the shared end is missing. -/
def interior (a : Arc) (x : Id) : Bool :=
  if a.lower < a.upper then a.lower < x && x < a.upper
  else if a.upper < a.lower then a.lower < x || x < a.upper
  else x != a.lower

/-- Whether a point lies on the arc. -/
def contains (a : Arc) (x : Id) : Bool :=
  (a.inclusive && x == a.upper) || a.interior x

end Arc

/-- The clockwise distance from one point to another: how far one has to go
    forward from `a` to stand on `b`. Word subtraction wraps, which is what
    walking past the largest word does. -/
def Id.distance (a b : Id) : UInt64 := b - a

/-- How many finger slots a node keeps: one for each bit of an identifier. -/
def slotCount : Nat := 64

/-- The point whose owner belongs in a finger slot: the node's own key moved
    forward by the slot's power of two, round the circle if need be. -/
def fingerTarget (key : Id) (slot : Nat) : Id :=
  key + UInt64.ofNat (Nat.pow 2 slot)

/-- The slot to refresh after `slot`. The walk goes back to the first slot
    once it runs past the last, from wherever it stood. -/
def nextSlot (slot : Nat) : Nat :=
  if slot + 1 < slotCount then slot + 1 else 0

/-- The slot to refresh next always exists. -/
theorem nextSlot_lt (slot : Nat) : nextSlot slot < slotCount := by
  unfold nextSlot
  split
  · assumption
  · decide

end RingOverlay
