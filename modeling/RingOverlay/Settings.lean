import RingOverlay.Json.Record

/-!
# Settings

The timers and limits of a node. They can be read from a file, which names only
what differs from the defaults; a file that names nothing leaves them as they
are.

## Main definitions

* `Settings`: The timers and limits, with their defaults.
* `Settings.ceiling`: How long a successor list may grow.
* `Settings.decode`: Settings from the text of a file.
* `Settings.ofFile`: Settings from what became of reading a file.
-/

namespace RingOverlay

open Json

/-- The timers and limits of a node. Times are in milliseconds. -/
structure Settings where
  stabilizeInterval : Nat := 1000
  fixFingersInterval : Nat := 500
  fixSuccessorsInterval : Nat := 1000
  checkPredecessorInterval : Nat := 2000
  /-- How long a question waits for its answer in all. -/
  responseTimeout : Nat := 1000
  /-- How many successors are kept, the first included. -/
  maxSuccessors : Nat := 8
  /-- How many probes in a row may fail before the successor is given up. -/
  failureThreshold : Nat := 3
deriving DecidableEq, Repr

namespace Settings

/-- How long a successor list may grow: never shorter than one entry, since the
    successor itself always stands in it. -/
def ceiling (s : Settings) : Nat := max s.maxSuccessors 1

theorem one_le_ceiling (s : Settings) : 1 ≤ s.ceiling := Nat.le_max_right _ _

/-- Settings that are still being read. -/
structure Draft where
  stabilizeInterval : Option Nat := none
  fixFingersInterval : Option Nat := none
  fixSuccessorsInterval : Option Nat := none
  checkPredecessorInterval : Option Nat := none
  responseTimeout : Option Nat := none
  maxSuccessors : Option Nat := none
  failureThreshold : Option Nat := none

/-- The fields of a settings file. -/
def fields : List (RecordField Draft) :=
  [ .of "stabilize_interval_ms" (·.stabilizeInterval)
      (fun d a => { d with stabilizeInterval := some a }) (unsigned 64),
    .of "fix_fingers_interval_ms" (·.fixFingersInterval)
      (fun d a => { d with fixFingersInterval := some a }) (unsigned 64),
    .of "fix_successor_list_interval_ms" (·.fixSuccessorsInterval)
      (fun d a => { d with fixSuccessorsInterval := some a }) (unsigned 64),
    .of "check_predecessor_interval_ms" (·.checkPredecessorInterval)
      (fun d a => { d with checkPredecessorInterval := some a }) (unsigned 64),
    .of "response_timeout_ms" (·.responseTimeout)
      (fun d a => { d with responseTimeout := some a }) (unsigned 64),
    .of "max_successors" (·.maxSuccessors)
      (fun d a => { d with maxSuccessors := some a }) (unsigned 64),
    .of "successor_failure_threshold" (·.failureThreshold)
      (fun d a => { d with failureThreshold := some a }) (unsigned 32) ]

/-- The settings of a draft: what was not named keeps its default. -/
def Draft.finish (d : Draft) : Settings :=
  let base : Settings := {}
  { stabilizeInterval := d.stabilizeInterval.getD base.stabilizeInterval
    fixFingersInterval := d.fixFingersInterval.getD base.fixFingersInterval
    fixSuccessorsInterval := d.fixSuccessorsInterval.getD base.fixSuccessorsInterval
    checkPredecessorInterval := d.checkPredecessorInterval.getD base.checkPredecessorInterval
    responseTimeout := d.responseTimeout.getD base.responseTimeout
    maxSuccessors := d.maxSuccessors.getD base.maxSuccessors
    failureThreshold := d.failureThreshold.getD base.failureThreshold }

/-- Settings from a text. -/
def decode (text : List UInt8) : Except Flaw Settings :=
  document (record fields {} fun d => some d.finish) text

/-- What became of reading a file. -/
inductive Source where
  /-- The file is there and has this content. -/
  | content (bytes : List UInt8)
  /-- The operating system refused to read it. -/
  | refused (reason : Errno)

/-- Settings from a file with a name. A file that is no text at all is refused
    before it is read as JSON. -/
def ofFile (path : String) : Source → Except Fault Settings
  | .refused reason => .error (.settings path (.refused reason))
  | .content bytes =>
    if (Utf8.decode bytes).isNone then .error (.settings path .notText)
    else match decode bytes with
      | .error flaw => .error (.codec flaw)
      | .ok s => .ok s

end Settings

end RingOverlay
