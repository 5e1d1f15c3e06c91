import RingOverlay.Proofs.Growth.System

/-!
# The Nodes Behind a Growing Ring

A growing ring is made of views, and what goes on between its nodes is made of
steps. A running node is more than that: it numbers its questions, keeps a line
of callers and an inbox, and looks at a clock. This module says that a running
node does what the steps say, as long as one caller at a time uses it, its
socket refuses nothing and its answers come in time.

A node *stands for* a member if it holds the member's view and has just the
question under way that the member waits for. The number of that question is the
node's own affair. All that matters about it is that the answer carries the same
one, and that the inbox was emptied when it was drawn.

## Main definitions

* `Node.Carried`: What a turn leaves at a node, and what it sends.
* `Growth.Stands`: A running node stands for a member.

## Theorems

* `carried_of_idle`: An idle node carries out a turn as it is given.
* `stands_follow`: After a turn the node stands for the member that took it.
* `Stands.begin`: A task that is given to the node is a task that is taken up.
* `Stands.answer`: A question that reaches the node is answered from the view.
* `Stands.resume`: An answer that reaches the node in time starts the next turn.
* `Stands.hear`: A claim that reaches the node is heard.
-/

namespace RingOverlay

/-- A socket that refuses nothing. -/
def openSocket : Refusals := fun _ _ => none

namespace Node

/-- What a turn leaves at a node that was idle, and what is sent: the claim that
    the turn makes, and either its question or word of the outcome. -/
structure Carried (n : Node) (now : Nat) (c : Caller) (t : Turn) (r : Node × List Effect) :
    Prop where
  view : r.1.view = t.view
  settings : r.1.settings = n.settings
  inbox : r.1.inbox = []
  claim : ∀ dest, t.claim = some dest →
    Effect.send dest (Message.new n.nextSeq (.claim t.view.me)) ∈ r.2
  ask : ∀ q, t.next = .ask q → ∃ f : Flight, r.1.line = [⟨c, q, some f⟩] ∧
    f.deadline = now + n.settings.responseTimeout ∧
    Effect.send q.target (Message.new f.seq q.body) ∈ r.2
  finish : ∀ outcome, t.next = .finish outcome →
    r.1.line = [] ∧ Effect.finish c outcome ∈ r.2

theorem carried_of_idle (n : Node) (hline : n.line = []) (hinbox : n.inbox = []) (now : Nat)
    (c : Caller) (t : Turn) : n.Carried now c t (n.follow openSocket now c t) := by
  constructor <;> cases hclaim : t.claim <;> cases hnext : t.next <;>
    simp [follow, hclaim, hnext, dispatch, openSocket, proceed, hline, launch, conclude, hinbox]

end Node

namespace Growth

/-- A running node stands for a member: it holds the member's view, nothing lies
    in its inbox, and what the member waits for is all that is in its line. -/
structure Stands (g : Growth) (x : Contact) (c : Caller) (n : Node) : Prop where
  view : n.view = g.view x
  settings : n.settings = g.settings x
  inbox : n.inbox = []
  idle : g.errand x = none → n.line = []
  waits : ∀ e, g.errand x = some e → ∃ f : Flight, n.line = [⟨c, e.question, some f⟩]

variable {g : Growth} {x : Contact} {c : Caller} {n : Node}

/-- Whoever carries out the turn of a member stands for that member afterwards. -/
theorem stands_follow (hsettings : n.settings = g.settings x) (hline : n.line = [])
    (hinbox : n.inbox = []) (now : Nat) (t : Turn) (h : t.view.me = (g.view x).me) :
    (g.follow x t h).Stands x c (n.follow openSocket now c t).1 := by
  have hdone := n.carried_of_idle hline hinbox now c t
  constructor
  case view => rw [hdone.view, view_follow_self]
  case settings =>
    rw [hdone.settings, hsettings, follow, settings_settle]
    rfl
  case inbox => exact hdone.inbox
  case idle =>
    intro hidle
    cases hnext : t.next with
    | ask q =>
        rw [follow, hnext, errand_settle_ask] at hidle
        cases hidle
    | finish outcome => exact (hdone.finish outcome hnext).1
  case waits =>
    intro e he
    cases hnext : t.next with
    | ask q =>
        rw [follow, hnext, errand_settle_ask] at he
        cases he
        rcases hdone.ask q hnext with ⟨f, hf, _⟩
        exact ⟨f, hf⟩
    | finish outcome =>
        rw [follow, hnext, errand_settle_finish] at he
        exact absurd ((g.errand_wait_self x none).symm.trans he) (Option.some_ne_none e).symm

namespace Stands

theorem begin (hn : g.Stands x c n) (hidle : g.errand x = none) (now : Nat) (t : Task) :
    (g.follow x (t.begin (g.view x)) (Overlay.begin_view_me _ t)).Stands x c
      (n.begin openSocket now c t).1 := by
  rw [Node.begin, hn.view]
  exact stands_follow hn.settings (hn.idle hidle) hn.inbox now _ _

/-- A question that reaches the member it goes to is answered, under the number
    that it came with and by an answer of the kind that it waits for. -/
theorem answer (hn : g.Stands x c n) (hx : x ∈ g.members) {q : Question} {r : Reply}
    (htarget : q.target = x.endpoint) (hr : g.answer q = some r) (sender : Endpoint)
    (seq : UInt64) :
    ∃ a : Message, n.hear openSocket sender (Message.new seq q.body) = (n, [.send sender a]) ∧
      a.seq = seq ∧ a.body.isAnswer = true ∧ a.toReply = { r with seq := seq } ∧
      r.kind = q.expects := by
  rw [g.answer_of_mem hx htarget, ← hn.view] at hr
  cases q <;> cases hr <;>
    exact ⟨_, by simp only [Node.hear]; rfl, rfl, rfl, rfl, rfl⟩

/-- An answer that reaches the node in time starts the member's next turn. -/
theorem resume (hn : g.Stands x c n) {q : Question} {r : Reply}
    (hanswered : g.errand x = some (.answered q r)) {f : Flight}
    (hline : n.line = [⟨c, q, some f⟩]) (sender : Endpoint) (a : Message)
    (hanswer : a.body.isAnswer = true) (hreply : a.toReply = { r with seq := f.seq })
    (hkind : r.kind = q.expects) (now : Nat) (hnow : now < f.deadline) :
    (g.follow x (q.resume (g.settings x) (g.view x) (some r))
        (resume_view_me _ _ q _)).Stands x c
      ((n.hear openSocket sender a).1.poll openSocket now c).1 := by
  have hheard : (n.hear openSocket sender a).1 = { n with inbox := [a.toReply] } := by
    simp only [Node.hear, hanswer, if_true, Node.deliver, hn.inbox, List.length_nil, inboxSize,
      Nat.zero_lt_succ, List.nil_append]
  have hmatch : Node.firstMatch f.seq q.expects [a.toReply] = some (a.toReply, []) := by
    rw [Node.firstMatch, hreply]
    simp only [hkind, decide_true, Bool.and_self, if_true]
  -- The number is gone before the answer is looked at.
  have hturn : q.resume n.settings n.view (some a.toReply) =
      q.resume (g.settings x) (g.view x) (some r) := by
    rw [hn.settings, hn.view, hreply]
    cases q <;> rfl
  have hpoll : ((n.hear openSocket sender a).1.poll openSocket now c).1 =
      (({ n with inbox := [], line := [] } : Node).follow openSocket now c
        (q.resume (g.settings x) (g.view x) (some r))).1 := by
    rw [hheard]
    simp only [Node.poll, hline, ne_eq, not_true_eq_false, if_false, Nat.not_le.mpr hnow, hmatch,
      Node.resolve, hturn]
  rw [hpoll]
  exact stands_follow (n := { n with inbox := [], line := [] }) hn.settings rfl rfl now _ _

/-- A claim that reaches the node is heard. -/
theorem hear (hn : g.Stands x c n) (d : Contact) (sender : Endpoint) (seq : UInt64) :
    (g.revise x ((g.view x).heard (.claim d)) (View.heard_me _ (.claim d))).Stands x c
      (n.hear openSocket sender (Message.new seq (.claim d))).1 := by
  have hheard : (n.hear openSocket sender (Message.new seq (.claim d))).1 =
      { n with view := n.view.heard (.claim d) } := rfl
  rw [hheard]
  constructor
  case view => rw [view_revise_self, hn.view]
  case settings => exact hn.settings
  case inbox => exact hn.inbox
  case idle => exact hn.idle
  case waits => exact hn.waits

end Stands

end Growth

end RingOverlay
