import Mathlib.Data.List.Basic
import Mathlib.Logic.Relation
import RingOverlay.Proofs.Overlay

/-!
# Growing Rings

A ring that starts with one node and grows while its members keep it in order.
Here nothing is done in one go any more: between a question and its answer,
and between the answer and the turn it starts, everything else may happen, and
a claim may arrive long after it was made or never.

What is left out is silence. Every question that was sent is answered, so no
turn ever starts without an answer, and nobody is given up. What a node does is
otherwise exactly what its procedures say, and it does one thing at a time:
whoever waits for an answer takes up no other task.

A newcomer is a member of the overlay from the moment it exists, since it can
be reached from then on, but it has *joined* only when its task of entering has
succeeded. Until then nobody knows it, and it does nothing but try to enter
through nodes that have joined.

A claim stays on its way for ever, so that it may arrive in any order, and more
than once. That is more than a network does, and nothing depends on the
difference.

## Main definitions

* `Errand`: What a node is waiting for.
* `Growth`: Nodes, what they believe, and what is on its way between them.
* `Growth.first`: The first node, alone.
* `Growth.arrive`: A newcomer appears.
* `Growth.follow`: A node takes a turn.
* `Growth.May`: Which tasks a node may take up.
* `Growth.Step`: What may happen.
* `Growth.Reachable`: What may come of it, from a first node.
-/

namespace RingOverlay

/-- What a node is waiting for. -/
inductive Errand where
  /-- Its question is on the way. -/
  | asked (q : Question)
  /-- The answer to its question is on the way. -/
  | answered (q : Question) (r : Reply)
deriving DecidableEq

/-- What was asked. -/
def Errand.question : Errand → Question
  | asked q | answered q _ => q

/-- Nodes, what each of them believes, and what is on its way between them. -/
structure Growth extends Overlay where
  /-- The nodes that are part of the ring. -/
  joined : List Contact
  /-- What a node is waiting for, unless it is idle. -/
  errand : Contact → Option Errand
  /-- The claims that may still arrive: who made them, and where they go. -/
  claims : List (Contact × Endpoint)

namespace Growth

/-- The first node, alone on its ring. -/
def first (me : Contact) (settings : Contact → Settings) (h : me.isRoutable = true) : Growth where
  members := [me]
  routable := fun c hc => by rw [List.mem_singleton.mp hc, h]
  keys_nodup := List.nodup_singleton _
  endpoints_nodup := List.nodup_singleton _
  view := View.alone
  view_me := fun _ _ => rfl
  settings := settings
  joined := [me]
  errand := fun _ => none
  claims := []

/-- Nobody has the key or the endpoint of a newcomer. -/
structure Fresh (g : Growth) (x : Contact) : Prop where
  routable : x.isRoutable = true
  key : x.key ∉ g.members.map Contact.key
  endpoint : x.endpoint ∉ g.members.map Contact.endpoint

/-- A newcomer appears. It knows only itself. -/
def arrive (g : Growth) (x : Contact) (h : g.Fresh x) : Growth :=
  { g with
    members := x :: g.members
    routable := List.forall_mem_cons.mpr ⟨h.routable, g.routable⟩
    keys_nodup := List.nodup_cons.mpr ⟨h.key, g.keys_nodup⟩
    endpoints_nodup := List.nodup_cons.mpr ⟨h.endpoint, g.endpoints_nodup⟩
    view := Function.update g.view x (View.alone x)
    view_me := fun c hc => by
      by_cases hcx : c = x
      · rw [hcx, Function.update_self, View.alone_me]
      · rw [Function.update_of_ne hcx]
        exact g.view_me c ((List.mem_cons.mp hc).resolve_left hcx) }

theorem Fresh.not_mem {g : Growth} {x : Contact} (h : g.Fresh x) : x ∉ g.members :=
  fun hx => h.key (List.mem_map_of_mem hx)

theorem view_arrive_self (g : Growth) (x : Contact) (h : g.Fresh x) :
    (g.arrive x h).view x = View.alone x := Function.update_self _ _ _

theorem view_arrive_other (g : Growth) {x y : Contact} (h : g.Fresh x) (hy : y ≠ x) :
    (g.arrive x h).view y = g.view y := Function.update_of_ne hy _ _

/-- A node changes its mind. -/
def revise (g : Growth) (x : Contact) (v : View) (h : v.me = (g.view x).me) : Growth :=
  { g with toOverlay := g.toOverlay.revise x v h }

/-- A node waits for something, or for nothing. -/
def wait (g : Growth) (x : Contact) (e : Option Errand) : Growth :=
  { g with errand := Function.update g.errand x e }

theorem view_revise_self (g : Growth) (x : Contact) (v : View) (h : v.me = (g.view x).me) :
    (g.revise x v h).view x = v := Function.update_self _ _ _

theorem view_revise_other (g : Growth) {x y : Contact} (v : View) (h : v.me = (g.view x).me)
    (hy : y ≠ x) : (g.revise x v h).view y = g.view y := Function.update_of_ne hy _ _

theorem errand_wait_self (g : Growth) (x : Contact) (e : Option Errand) :
    (g.wait x e).errand x = e := Function.update_self _ _ _

theorem errand_wait_other (g : Growth) {x y : Contact} (e : Option Errand) (hy : y ≠ x) :
    (g.wait x e).errand y = g.errand y := Function.update_of_ne hy _ _

/-- A node makes a claim, if it has one to make. -/
def post (g : Growth) (c : Contact) (dest : Option Endpoint) : Growth :=
  { g with claims := (dest.map fun e => (c, e)).toList ++ g.claims }

/-- A node has joined, if it had not before. -/
def join (g : Growth) (x : Contact) : Growth := { g with joined := g.joined.insert x }

/-- What a node does at the end of a turn: it waits for the next answer or is
    idle. A task that has ended well leaves its node joined: for a newcomer that
    is the task of entering, and all others have joined already. -/
def settle (g : Growth) (x : Contact) : Next → Growth
  | .ask q => g.wait x (some (.asked q))
  | .finish .done => g.join x
  | .finish _ => g

@[simp] theorem view_settle (g : Growth) (x : Contact) (next : Next) :
    (g.settle x next).view = g.view := by
  rcases next with q | _ | _ | _ <;> rfl

@[simp] theorem settings_settle (g : Growth) (x : Contact) (next : Next) :
    (g.settle x next).settings = g.settings := by
  rcases next with q | _ | _ | _ <;> rfl

theorem errand_settle_ask (g : Growth) (x : Contact) (q : Question) :
    (g.settle x (.ask q)).errand x = some (.asked q) := g.errand_wait_self x _

theorem errand_settle_finish (g : Growth) (x : Contact) (outcome : Outcome) :
    (g.settle x (.finish outcome)).errand = g.errand := by
  cases outcome <;> rfl

/-- A node takes a turn: it is done with what it was waiting for and changes its
    view, its claim is sent, and it settles down again. -/
def follow (g : Growth) (x : Contact) (t : Turn) (h : t.view.me = (g.view x).me) : Growth :=
  (((g.wait x none).revise x t.view h).post t.view.me t.claim).settle x t.next

theorem view_follow_self (g : Growth) (x : Contact) (t : Turn) (h : t.view.me = (g.view x).me) :
    (g.follow x t h).view x = t.view := by
  rw [follow, view_settle]
  exact (g.wait x none).view_revise_self x t.view h

theorem view_follow_other (g : Growth) {x y : Contact} (t : Turn) (h : t.view.me = (g.view x).me)
    (hy : y ≠ x) : (g.follow x t h).view y = g.view y := by
  rw [follow, view_settle]
  exact (g.wait x none).view_revise_other t.view h hy

@[simp] theorem toRoster_follow (g : Growth) (x : Contact) (t : Turn)
    (h : t.view.me = (g.view x).me) : (g.follow x t h).toRoster = g.toRoster := by
  rcases t with ⟨v, claim, q | _ | _ | _⟩ <;> rfl

theorem claims_follow (g : Growth) (x : Contact) (t : Turn) (h : t.view.me = (g.view x).me) :
    (g.follow x t h).claims = (t.claim.map fun e => (t.view.me, e)).toList ++ g.claims := by
  rcases t with ⟨v, claim, q | _ | _ | _⟩ <;> rfl

-- Whoever has joined can join as often as it likes.
theorem mem_joined_follow (g : Growth) {x : Contact} (hx : x ∈ g.joined) (t : Turn)
    (h : t.view.me = (g.view x).me) (y : Contact) :
    y ∈ (g.follow x t h).joined ↔ y ∈ g.joined := by
  rcases t with ⟨v, claim, q | _ | _ | _⟩
  · exact Iff.rfl
  · exact Iff.rfl
  · refine List.mem_insert_iff.trans ⟨?_, Or.inr⟩
    rintro (rfl | hy)
    · exact hx
    · exact hy
  · exact Iff.rfl

/-- An endpoint is that of a node that has joined. -/
def Known (g : Growth) (e : Endpoint) : Prop := ∃ y ∈ g.joined, y.endpoint = e

/-- Which tasks a node may take up. A newcomer enters through nodes that have
    joined, and does not found a ring of its own. Whoever has joined may do
    anything but enter. -/
def May (g : Growth) (x : Contact) : Task → Prop
  | .enter through alone =>
    x ∉ g.joined ∧ alone = false ∧ through ≠ [] ∧ ∀ e ∈ through, g.Known e
  | _ => x ∈ g.joined

/-- What may happen. -/
inductive Step : Growth → Growth → Prop where
  /-- A newcomer appears. -/
  | arrive (g : Growth) (x : Contact) (h : g.Fresh x) : Step g (g.arrive x h)
  /-- An idle node takes up a task. -/
  | begin (g : Growth) (x : Contact) (t : Task) (hx : x ∈ g.members) (hidle : g.errand x = none)
      (hmay : g.May x t) : Step g (g.follow x (t.begin (g.view x)) (Overlay.begin_view_me _ t))
  /-- A question arrives, and is answered at once. -/
  | answer (g : Growth) (x : Contact) (q : Question) (r : Reply)
      (hasked : g.errand x = some (.asked q)) (hanswer : g.answer q = some r) :
      Step g (g.wait x (some (.answered q r)))
  /-- An answer arrives, and the node that waited for it takes its next turn. -/
  | resume (g : Growth) (x : Contact) (q : Question) (r : Reply)
      (hanswered : g.errand x = some (.answered q r)) :
      Step g (g.follow x (q.resume (g.settings x) (g.view x) (some r)) (resume_view_me _ _ q _))
  /-- A claim arrives. -/
  | hear (g : Growth) (x c : Contact) (hx : x ∈ g.members) (hclaim : (c, x.endpoint) ∈ g.claims) :
      Step g (g.revise x ((g.view x).heard (.claim c)) (View.heard_me _ (.claim c)))

/-- What may come of a first node. -/
def Reachable (me : Contact) (settings : Contact → Settings) (h : me.isRoutable = true)
    (g : Growth) : Prop :=
  Relation.ReflTransGen Step (first me settings h) g

end Growth

end RingOverlay
