import Mathlib.Logic.Relation
import RingOverlay.Proofs.Conduct
import RingOverlay.Proofs.Lookup.Step

/-!
# Everything That Can Happen to a View

A view belongs to everybody: several procedures take turns on it, and what
other nodes send is heard in between. All of them write to it in one of nine
ways. `View.Change` lists these, each with what is known of the contacts that
are written, and the theorems below say that there is nothing else: the first
turn of a task, the turn after a question and a body that is heard all take the
view along a chain of such changes.

So a property of views that every change keeps holds of a node for ever,
however its procedures interleave, and nothing that is proved in this way
depends on how a procedure is cut into turns.

Where a contact that came from outside is written without a look at it, that is
the end of a lookup: the contact was looked at when the answer was judged, or
it was the view's own successor, or the node itself. That is what
`View.Vouches` says. The other operations look for themselves.

## Main definitions

* `View.Vouches`: A contact that a lookup may end with.
* `View.Change`: One write to a view.
* `View.Changes`: Any number of them.

## Theorems

* `lookup_resolved`: A view resolves a point to the successor or to the node
  itself.
* `changes_begin`, `changes_resume`, `changes_heard`: There is no other way to
  change a view.
* `Change.me`: No change makes another node of it.
-/

namespace RingOverlay

namespace View

/-- A contact that a lookup may end with: it can be reached, or the view itself
    had it as its successor or as the node. -/
def Vouches (v : View) (c : Contact) : Prop :=
  c.isRoutable = true ∨ c = v.successor ∨ c = v.me

/-- One write to a view. -/
inductive Change (s : Settings) (v : View) : View → Prop where
  | advance : Change s v v.advance
  | setFinger (slot : Fin slotCount) (c : Contact) (h : v.Vouches c) :
      Change s v (v.setFinger slot c)
  | forget (c : Contact) : Change s v (v.forget c)
  | joined (c : Contact) (h : c.isRoutable = true) : Change s v (View.joined v.me c)
  | probed (c : Contact) : Change s v (v.probed c)
  | missed : Change s v (v.missed s.failureThreshold)
  | reported (source : Contact) (list : List Contact) :
      Change s v (v.reported source list s.ceiling)
  | bereaved (c : Contact) : Change s v (v.bereaved c)
  | notified (c : Contact) : Change s v (v.notified c)

/-- Any number of writes to a view, one after the other. -/
abbrev Changes (s : Settings) : View → View → Prop := Relation.ReflTransGen (Change s)

theorem lookup_resolved {v : View} {id : Id} {c : Contact} (h : v.lookup id = (c, true)) :
    c = v.successor ∨ c = v.me := by
  rcases v.lookup_cases id with ⟨_, heq⟩ | ⟨_, ⟨_, heq⟩ | ⟨_, ⟨_, heq⟩ | ⟨_, heq⟩⟩⟩ <;>
    rw [heq, Prod.mk.injEq] at h
  · exact Or.inl h.1.symm
  · exact absurd h.2 Bool.false_ne_true
  · exact absurd h.2 Bool.false_ne_true
  · exact Or.inr h.1.symm

variable {s : Settings} {v w : View}

theorem Change.me (h : Change s v w) : w.me = v.me := by
  cases h <;>
    simp only [advance_me, setFinger_me, forget_me, joined_me, probed_me, missed_me, reported_me,
      bereaved_me, notified_me]

/-- A property that every single change keeps is kept by all of them. -/
theorem Changes.keep {P : View → Prop} (hstep : ∀ v w, P v → Change s v w → P w)
    (h : Changes s v w) (hv : P v) : P w := by
  induction h with
  | refl => exact hv
  | tail _ hc ih => exact hstep _ _ ih hc

theorem Changes.me (h : Changes s v w) : w.me = v.me :=
  h.keep (P := fun u => u.me = v.me) (fun _ _ ih hc => hc.me.trans ih) rfl

theorem changes_succeed (s : Settings) (v : View) (p : Purpose) {c : Contact}
    (h : c.isRoutable = true) : Changes s v (p.succeed v c).view := by
  cases p with
  | report => exact .refl
  | finger slot => exact .single (.setFinger slot c (Or.inl h))
  | enter untried total alone => exact .single (.joined c h)

theorem changes_fail (s : Settings) (v : View) (p : Purpose) (f : Fault) :
    Changes s v (p.fail v f).view := by
  rw [fail_view]

/-- The first turn of a task. -/
theorem changes_begin (s : Settings) (v : View) (t : Task) : Changes s v (t.begin v).view := by
  cases t with
  | find id =>
      rcases seek_cases v id .report with ⟨c, _, h⟩ | ⟨c, _, h⟩
      · rw [Task.begin, h]
        exact .refl
      · rw [Task.begin, h]
  | fixFinger =>
      rcases seek_cases v.advance (fingerTarget v.key v.nextFinger) (.finger v.nextFinger) with
        ⟨c, hc, h⟩ | ⟨c, _, h⟩
      · rw [Task.begin, h]
        exact .tail (.single .advance) (.setFinger _ c (Or.inr (lookup_resolved hc)))
      · rw [Task.begin, h]
        exact .single .advance
  | enter through alone =>
      rw [Task.begin, approach_view]
  | stabilize => exact .refl
  | fixSuccessors => exact .refl
  | checkPredecessor => exact .refl

/-- The turn after a question, whatever the answer. -/
theorem changes_resume (s : Settings) (v : View) (q : Question) (answer : Option Reply) :
    Changes s v (q.resume s v answer).view := by
  cases q with
  | hop h =>
      cases answer with
      | some r =>
          rcases h.resume_cases v r with ⟨hr, _, heq⟩ | ⟨f, heq⟩ | ⟨_, left, heq⟩ <;>
            rw [Question.resume, heq]
          · exact changes_succeed s v h.purpose hr
          · exact changes_fail s v h.purpose f
      | none =>
          rcases h.resume_none v with ⟨w, f, heq, rfl | ⟨c, rfl⟩⟩ <;>
            rw [Question.resume, heq, fail_view]
          exact .single (.forget c)
  | probe c =>
      cases answer with
      | some r => exact .single (.probed r.node)
      | none => exact .single .missed
  | list c =>
      cases answer with
      | some r => exact .single (.reported c r.nodes)
      | none => exact .refl
  | pulse c =>
      cases answer with
      | some r => exact .refl
      | none => exact .single (.bereaved c)

/-- A body that is heard. -/
theorem changes_heard (s : Settings) (v : View) (body : Body) : Changes s v (v.heard body) := by
  cases body with
  | claim c => exact .single (.notified c)
  | _ => exact .refl

end View

end RingOverlay
