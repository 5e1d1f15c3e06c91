import RingOverlay.Procedure

/-!
# Upkeep

The timers that keep a node's view in order. Each of four tasks has a clock of
its own, and they run one at a time: a clock that comes due while a task is
under way waits for it to end. A clock that went off late does not catch up; it
is due again one period after it went off.

The first time a clock goes off it does so one whole period after the start.

## Main definitions

* `Clock`, `Upkeep`: One timer, and a node's four.
* `Upkeep.start`: The timers of a node that has just started.
* `Upkeep.due?`: The task to run now, if one is due.
-/

namespace RingOverlay

/-- A task that is run again and again. -/
structure Clock where
  task : Task
  period : Nat
  /-- When it goes off next. -/
  next : Nat
deriving DecidableEq, Repr

/-- The timers of a node. -/
structure Upkeep where
  clocks : List Clock
  /-- Whether one of their tasks is under way. -/
  busy : Bool
deriving DecidableEq, Repr

namespace Upkeep

/-- A clock that starts now. A period of zero is one millisecond. -/
def clock (now : Nat) (task : Task) (period : Nat) : Clock :=
  ⟨task, max period 1, now + max period 1⟩

/-- The timers of a node that starts now. -/
def start (now : Nat) (s : Settings) : Upkeep where
  clocks := [
    clock now .stabilize s.stabilizeInterval,
    clock now .fixFinger s.fixFingersInterval,
    clock now .fixSuccessors s.fixSuccessorsInterval,
    clock now .checkPredecessor s.checkPredecessorInterval]
  busy := false

/-- Set off the first clock that is due. -/
def setOff (now : Nat) : List Clock → Option (Task × List Clock)
  | [] => none
  | c :: rest =>
    if c.next ≤ now then some (c.task, { c with next := now + c.period } :: rest)
    else (setOff now rest).map fun (t, others) => (t, c :: others)

/-- The task to run now, if none is under way and a clock is due, and the timers
    with that task under way. -/
def due? (now : Nat) (u : Upkeep) : Option (Task × Upkeep) :=
  if u.busy then none
  else (setOff now u.clocks).map fun (t, clocks) => (t, ⟨clocks, true⟩)

/-- The task that was under way has ended. -/
def free (u : Upkeep) : Upkeep := { u with busy := false }

/-- When the next clock goes off, unless a task is under way. -/
def next? (u : Upkeep) : Option Nat :=
  if u.busy then none else (u.clocks.map Clock.next).min?

end Upkeep

end RingOverlay
