import Mathlib.Logic.Function.Basic
import RingOverlay.Proofs.Conduct
import RingOverlay.Proofs.Roster

/-!
# Overlays

The members of a roster together with what each of them believes: the ring as
it really is, right or wrong. Nothing ties the beliefs to the roster except
that every member knows who it is itself.

An overlay is also a set of peers. A question that reaches the endpoint of a
member is answered by that member, from its own view and at once; this is what
`Overlay.answer` says, and it is the only way in which the views of the members
meet. So `Overlay.perform` gives meaning to "this member carries out this task
in this overlay", and `Overlay.after` to the overlay that results.

`InOrder` is the one property that every result about lookups starts from: the
successors are right. Of the finger tables, `FingersKnown` says that nobody
believes in strangers, and `FingersExact` that they are as good as they can be.

## Main definitions

* `Overlay`: Members and what they believe.
* `Overlay.answer`: The answer a question gets.
* `Overlay.perform`: A member carries out a task.
* `Overlay.revise`, `Overlay.after`: The overlay once a member's view has changed.
* `Overlay.find`, `Overlay.findFrom`: The two ways to start a lookup.
* `Overlay.enter`: A newcomer joins.
* `Overlay.InOrder`: Every member's successor follows it.
* `Overlay.FingersKnown`: Every finger is a member or nobody.
* `Overlay.FingersExact`: Every finger owns the point its slot looks for.
* `Overlay.trio`: Three members in order.

## Theorems

* `answer_of_mem`: A question to a member is answered from that member's view.
* `view_after_self`: A task changes the view of the member that carries it out.
* `view_after_other`: It changes no other view.
-/

namespace RingOverlay

/-- Members and what each of them believes. -/
structure Overlay extends Roster where
  view : Contact → View
  view_me : ∀ c ∈ members, (view c).me = c
  settings : Contact → Settings

namespace Overlay

/-- The answer a question gets: that of the member at the endpoint it goes to,
    from what this member believes. Procedures take no notice of the number of
    an answer, so it is left at zero. -/
def answer (o : Overlay) (q : Question) : Option Reply :=
  (o.memberAt? q.target).bind fun c =>
    ((o.view c).answer? q.body).map fun body => (Message.new 0 body).toReply

/-- The members as peers: everything can be sent, and every question to a
    member is answered in time. -/
def peers (o : Overlay) : Peers where
  refuses := fun _ _ => none
  answer := fun _ q => o.answer q

/-- What becomes of a task that a member carries out while nothing else
    happens. -/
def perform (o : Overlay) (x : Contact) (t : Task) : Run :=
  (t.begin (o.view x)).conduct (o.settings x) o.peers []

/-- A member looks for the owner of a point, starting from its own view. -/
def find (o : Overlay) (x : Contact) (id : Id) : Run := o.perform x (.find id)

/-- Somebody looks for the owner of a point, starting at an endpoint. -/
def findFrom (o : Overlay) (s : Settings) (v : View) (e : Endpoint) (id : Id) : Run :=
  ({ view := v, next := .ask (.hop ⟨id, e, hopLimit - 1, none, .report⟩) } : Turn).conduct
    s o.peers []

/-- A newcomer enters the ring through endpoints that it was given. -/
def enter (o : Overlay) (s : Settings) (v : View) (through : List Endpoint) (alone : Bool) : Run :=
  ((Task.enter through alone).begin v).conduct s o.peers []

theorem perform_view_me (o : Overlay) (x : Contact) (t : Task) :
    (o.perform x t).view.me = (t.begin (o.view x)).view.me :=
  conduct_view_me _ _ _ _

theorem begin_view_me (v : View) (t : Task) : (t.begin v).view.me = v.me := by
  have hseek (w : View) (id : Id) (p : Purpose) : (seek w id p).view.me = w.me := by
    unfold seek
    split
    · exact succeed_view_me p w _
    · rfl
  cases t with
  | find id => exact hseek v id _
  | stabilize => rfl
  | fixFinger => exact hseek v.advance _ _
  | fixSuccessors => rfl
  | checkPredecessor => rfl
  | enter through alone => rw [Task.begin, approach_view]

/-- The overlay after a member has changed its mind. Who it is itself is not
    open to change. -/
def revise (o : Overlay) (x : Contact) (v : View) (h : v.me = (o.view x).me) : Overlay :=
  { o with
    view := Function.update o.view x v
    view_me := fun c hc => by
      by_cases hcx : c = x
      · rw [hcx, Function.update_self, h]
        exact o.view_me x (hcx ▸ hc)
      · rw [Function.update_of_ne hcx]
        exact o.view_me c hc }

/-- The overlay after a member has carried out a task. -/
def after (o : Overlay) (x : Contact) (t : Task) : Overlay :=
  o.revise x (o.perform x t).view ((o.perform_view_me x t).trans (begin_view_me _ t))

theorem view_after_self (o : Overlay) (x : Contact) (t : Task) :
    (o.after x t).view x = (o.perform x t).view := Function.update_self x _ _

theorem view_after_other (o : Overlay) {x y : Contact} (t : Task) (h : y ≠ x) :
    (o.after x t).view y = o.view y := Function.update_of_ne h _ _

/-- A question to a member is answered from that member's view. -/
theorem answer_of_mem (o : Overlay) {q : Question} {y : Contact} (hy : y ∈ o.members)
    (hq : q.target = y.endpoint) :
    o.answer q = ((o.view y).answer? q.body).map fun body => (Message.new 0 body).toReply := by
  have hat : o.memberAt? q.target = some y :=
    (o.memberAt?_eq_some_iff q.target y).mpr ⟨hy, hq.symm⟩
  rw [answer, hat, Option.bind_some]

/-- Every member's successor is the member that follows it. -/
def InOrder (o : Overlay) : Prop :=
  ∀ x ∈ o.members, o.Follows (o.view x).successor x

/-- Every finger is a member or nobody. -/
def FingersKnown (o : Overlay) : Prop :=
  ∀ x ∈ o.members, ∀ i : Fin slotCount,
    ((o.view x).finger i).isSet = false ∨ (o.view x).finger i ∈ o.members

/-- Every finger owns the point that its slot looks for. -/
def FingersExact (o : Overlay) : Prop :=
  ∀ x ∈ o.members, ∀ i : Fin slotCount,
    o.Owns ((o.view x).finger i) (fingerTarget x.key i)

instance (o : Overlay) : Decidable o.InOrder :=
  inferInstanceAs (Decidable (∀ x ∈ o.members, _))

instance (o : Overlay) : Decidable o.FingersKnown :=
  inferInstanceAs (Decidable (∀ x ∈ o.members, _))

instance (o : Overlay) : Decidable o.FingersExact :=
  inferInstanceAs (Decidable (∀ x ∈ o.members, _))

end Overlay

section Trio

namespace Contact

/-- The first of three nodes to try things out on. -/
def early : Contact := ⟨1000, ⟨⟨127, 0, 0, 1⟩, 4001⟩⟩

/-- The second of them, half way round. -/
def middle : Contact := ⟨9223372036854775808, ⟨⟨127, 0, 0, 1⟩, 4002⟩⟩

/-- The last of them, so near the largest word that almost all its slots look
    past it. -/
def late : Contact := ⟨18446744073709551610, ⟨⟨127, 0, 0, 1⟩, 4003⟩⟩

/-- Which of the three owns a point. -/
def ofTrio (id : Id) : Contact :=
  if id ≤ early.key then early
  else if id ≤ middle.key then middle
  else if id ≤ late.key then late
  else early

end Contact

/-- The three in order, with any fingers. -/
def Overlay.trio (fingers : Contact → Fin slotCount → Contact) : Overlay where
  members := [.early, .middle, .late]
  routable := by decide
  keys_nodup := by decide
  endpoints_nodup := by decide
  view := fun c => { View.joined c (.ofTrio (c.key + 1)) with
    fingers := Vector.ofFn (fingers c) }
  view_me := fun _ _ => rfl
  settings := fun _ => {}

end Trio

end RingOverlay
