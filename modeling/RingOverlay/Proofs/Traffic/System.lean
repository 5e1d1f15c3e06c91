import Mathlib.Data.List.Basic
import Mathlib.Logic.Relation
import RingOverlay.Proofs.Round

/-!
# Rings at Work

What goes on in an overlay whose members look after it. A member may carry out
any number of tasks at once, and between a question and its answer, and between
the answer and the turn it starts, everything else may happen. Some members may
be silent: they do nothing and hear nothing, and a question to one of them gets
no answer. A question to any other member is answered, sooner or later, and only
a question to nobody runs out of time.

Nobody joins here, and who is silent stays silent. Which tasks may be taken up,
and when, is left open; what is proved about the system names its own rule.

The system keeps a record of what has been taken up and of what has ended, so
that it can be said how often something was done.

## Main definitions

* `Task.Stays`: A task that does not enter a ring.
* `Job`: A task that waits for an answer.
* `Traffic`: An overlay at work.
* `Traffic.Quiet`: Nothing has been done yet.
* `Traffic.carry`: A member takes a turn of a task.
* `Traffic.Step`: What may happen.
* `Traffic.AnyTask`: A rule that leaves open all but entering.
* `Traffic.Frame`: What never changes.
* `Traffic.answered`, `Traffic.cycled`: What comes of a question that is dealt with
  at once, and of a whole cycle.
* `Traffic.quietTrio`: Three members, before anything is done.

## Theorems

* `mem_jobs_carry`, `mem_claims_carry`: What a turn leaves behind.
* `Step.frame`: Members, settings and silence never change.
* `reaches_answered`, `reaches_cycled`: Steps that are taken one after the other.
-/

namespace RingOverlay

/-- A task is anything but entering a ring. -/
def Task.Stays (t : Task) : Prop := ∀ through alone, t ≠ .enter through alone

/-- A task that waits for an answer. -/
structure Job where
  /-- Whose task it is. -/
  node : Contact
  task : Task
  question : Question
  /-- The answer, once there is one. -/
  reply : Option Reply
deriving DecidableEq

/-- An overlay at work. -/
structure Traffic extends Overlay where
  /-- Whether a member is not silent. -/
  up : Contact → Bool
  jobs : List Job
  /-- The claims that are on their way: who made them, and where they go. -/
  claims : List (Contact × Endpoint)
  /-- The tasks that have been taken up, the last one first. -/
  begun : List (Contact × Task)
  /-- The tasks that have ended, the last one first. -/
  ended : List (Contact × Task)

/-- The job that is left at the end of a turn, if the turn asks a question. -/
def Next.job? (x : Contact) (t : Task) : Next → Option Job
  | .ask q => some ⟨x, t, q, none⟩
  | .finish _ => none

/-- Whether a task is over at the end of a turn. -/
def Next.isLast : Next → Bool
  | .ask _ => false
  | .finish _ => true

namespace Traffic

/-- Nothing has been done yet. -/
structure Quiet (g : Traffic) : Prop where
  jobs : g.jobs = []
  claims : g.claims = []
  begun : g.begun = []
  ended : g.ended = []

/-- A member takes a turn of a task. By then this has been begun, and these are the
    other jobs. -/
def carry (g : Traffic) (begun : List (Contact × Task)) (others : List Job) (x : Contact)
    (t : Task) (turn : Turn) (h : turn.view.me = (g.view x).me) : Traffic :=
  { g with
    toOverlay := g.toOverlay.revise x turn.view h
    begun := begun
    jobs := (turn.next.job? x t).toList ++ others
    claims := (turn.claim.map fun e => (turn.view.me, e)).toList ++ g.claims
    ended := if turn.next.isLast then (x, t) :: g.ended else g.ended }

/-- A member takes up a task. -/
def launch (g : Traffic) (x : Contact) (t : Task) : Traffic :=
  g.carry ((x, t) :: g.begun) g.jobs x t (t.begin (g.view x)) (Overlay.begin_view_me _ t)

/-- A job goes on, with an answer or without. -/
def proceed (g : Traffic) (j : Job) (answer : Option Reply) : Traffic :=
  g.carry g.begun (g.jobs.erase j) j.node j.task
    (j.question.resume (g.settings j.node) (g.view j.node) answer) (resume_view_me _ _ _ _)

/-- A job gets its answer. -/
def receive (g : Traffic) (j : Job) (r : Reply) : Traffic :=
  { g with jobs := { j with reply := some r } :: g.jobs.erase j }

/-- A member makes itself known to its successor. -/
def tell (g : Traffic) (x : Contact) : Traffic :=
  { g with claims := (x, (g.view x).successor.endpoint) :: g.claims }

/-- A member hears a claim. -/
def hear (g : Traffic) (x c : Contact) : Traffic :=
  { g with
    toOverlay := g.toOverlay.revise x ((g.view x).heard (.claim c)) (View.heard_me _ (.claim c))
    claims := g.claims.erase (c, x.endpoint) }

/-- Nobody who is not silent is at an endpoint. -/
def Deserted (g : Traffic) (e : Endpoint) : Prop :=
  ∀ y ∈ g.members, g.up y = true → y.endpoint ≠ e

instance (g : Traffic) (e : Endpoint) : Decidable (g.Deserted e) :=
  inferInstanceAs (Decidable (∀ y ∈ g.members, _))

/-- What may happen, when tasks are taken up by a rule. -/
inductive Step (may : Traffic → Contact → Task → Prop) : Traffic → Traffic → Prop where
  /-- A member takes up a task. -/
  | launch (g : Traffic) (x : Contact) (t : Task) (hx : x ∈ g.members) (hup : g.up x = true)
      (hmay : may g x t) : Step may g (g.launch x t)
  /-- A question arrives, and is answered at once. -/
  | receive (g : Traffic) (j : Job) (y : Contact) (r : Reply) (hj : j ∈ g.jobs)
      (hopen : j.reply = none) (hy : y ∈ g.members) (hup : g.up y = true)
      (htarget : j.question.target = y.endpoint) (hr : g.answer j.question = some r) :
      Step may g (g.receive j r)
  /-- An answer arrives, and its job goes on. -/
  | resume (g : Traffic) (j : Job) (r : Reply) (hj : j ∈ g.jobs) (hr : j.reply = some r) :
      Step may g (g.proceed j (some r))
  /-- A question runs out of time, since nobody is there to answer it. -/
  | lapse (g : Traffic) (j : Job) (hj : j ∈ g.jobs) (hopen : j.reply = none)
      (hnobody : g.Deserted j.question.target) : Step may g (g.proceed j none)
  /-- A member makes itself known to its successor, of its own accord. -/
  | tell (g : Traffic) (x : Contact) (hx : x ∈ g.members) (hup : g.up x = true)
      (hset : (g.view x).successor.isSet = true) : Step may g (g.tell x)
  /-- A claim arrives. -/
  | hear (g : Traffic) (x c : Contact) (hx : x ∈ g.members) (hup : g.up x = true)
      (hclaim : (c, x.endpoint) ∈ g.claims) : Step may g (g.hear x c)

/-- A rule by which a member may take up anything, at any time, but does not enter
    a ring. -/
def AnyTask (_ : Traffic) (_ : Contact) (t : Task) : Prop := t.Stays

variable {g g' : Traffic} {begun : List (Contact × Task)} {others : List Job} {x y : Contact}
  {t : Task} {turn : Turn}

theorem view_carry_self (h : turn.view.me = (g.view x).me) :
    (g.carry begun others x t turn h).view x = turn.view := Function.update_self _ _ _

theorem view_carry_other (h : turn.view.me = (g.view x).me) (hy : y ≠ x) :
    (g.carry begun others x t turn h).view y = g.view y := Function.update_of_ne hy _ _

theorem view_hear_self (g : Traffic) (x c : Contact) :
    (g.hear x c).view x = (g.view x).notified c := Function.update_self _ _ _

theorem view_hear_other (g : Traffic) {x y : Contact} (c : Contact) (hy : y ≠ x) :
    (g.hear x c).view y = g.view y := Function.update_of_ne hy _ _

-- The turn of a job that goes on may be known by another name.
theorem proceed_turn {j : Job} {answer : Option Reply}
    (h : j.question.resume (g.settings j.node) (g.view j.node) answer = turn) :
    ∃ hme, g.proceed j answer = g.carry g.begun (g.jobs.erase j) j.node j.task turn hme := by
  subst h
  exact ⟨_, rfl⟩

/-- After a turn a job is one of the others or waits with the question of the turn. -/
theorem mem_jobs_carry {h : turn.view.me = (g.view x).me} {j : Job}
    (hj : j ∈ (g.carry begun others x t turn h).jobs) :
    j ∈ others ∨ ∃ q, turn.next = .ask q ∧ j = ⟨x, t, q, none⟩ := by
  rcases List.mem_append.mp hj with hnew | hold
  · cases hnext : turn.next with
    | ask q =>
        rw [hnext] at hnew
        exact Or.inr ⟨q, rfl, List.mem_singleton.mp hnew⟩
    | finish outcome =>
        rw [hnext] at hnew
        cases hnew
  · exact Or.inl hold

/-- After a turn a claim is an old one or that of the turn. -/
theorem mem_claims_carry {h : turn.view.me = (g.view x).me} {c : Contact} {e : Endpoint}
    (hc : (c, e) ∈ (g.carry begun others x t turn h).claims) :
    (c, e) ∈ g.claims ∨ turn.claim = some e ∧ c = turn.view.me := by
  rcases List.mem_append.mp hc with hnew | hold
  · cases hclaim : turn.claim with
    | none =>
        rw [hclaim] at hnew
        cases hnew
    | some dest =>
        rw [hclaim] at hnew
        cases List.mem_singleton.mp hnew
        exact Or.inr ⟨rfl, rfl⟩
  · exact Or.inl hold

/-- What never changes: who the members are, what they are set to, and who is
    silent. -/
structure Frame (g g' : Traffic) : Prop where
  roster : g'.toRoster = g.toRoster
  settings : g'.settings = g.settings
  up : g'.up = g.up

theorem Step.frame {may : Traffic → Contact → Task → Prop} (h : Step may g g') : g.Frame g' := by
  cases h <;> exact ⟨rfl, rfl, rfl⟩

theorem Frame.mem (h : g.Frame g') : x ∈ g'.members ↔ x ∈ g.members := by rw [h.roster]

section Reaches

variable {may : Traffic → Contact → Task → Prop} {g₀ : Traffic}

-- A question has arrived, and so has its answer before anything else happened.
def answered (g : Traffic) (j : Job) (r : Reply) : Traffic :=
  (g.receive j r).proceed { j with reply := some r } (some r)

-- A member has gone through a whole cycle, in which another one has answered.
def cycled (g : Traffic) (x y : Contact) (r r' : Reply) : Traffic :=
  ((g.launch x .stabilize).answered ⟨x, .stabilize, .probe y, none⟩ r).answered
    ⟨x, .stabilize, .list y, none⟩ r'

theorem reaches_answered (h : Relation.ReflTransGen (Step may) g₀ g) {j : Job} (y : Contact)
    {r : Reply} (hj : j ∈ g.jobs) (hopen : j.reply = none) (hy : y ∈ g.members)
    (hup : g.up y = true) (htarget : j.question.target = y.endpoint)
    (hr : g.answer j.question = some r) :
    Relation.ReflTransGen (Step may) g₀ (g.answered j r) :=
  (h.tail (.receive g j y r hj hopen hy hup htarget hr)).tail
    (.resume _ _ r (List.mem_cons_self ..) rfl)

theorem reaches_cycled (h : Relation.ReflTransGen (Step may) g₀ g) (x y : Contact) {r r' : Reply}
    (hmay : may g x .stabilize) (hx : x ∈ g.members ∧ g.up x = true)
    (hy : y ∈ g.members ∧ g.up y = true)
    (hprobe : ⟨x, .stabilize, .probe y, none⟩ ∈ (g.launch x .stabilize).jobs)
    (hr : (g.launch x .stabilize).answer (.probe y) = some r)
    (hlist : ⟨x, .stabilize, .list y, none⟩ ∈
      ((g.launch x .stabilize).answered ⟨x, .stabilize, .probe y, none⟩ r).jobs)
    (hr' : ((g.launch x .stabilize).answered ⟨x, .stabilize, .probe y, none⟩ r).answer (.list y) =
      some r') :
    Relation.ReflTransGen (Step may) g₀ (g.cycled x y r r') := by
  have hlaunch := h.tail (.launch g x .stabilize hx.1 hx.2 hmay)
  have hsame := reaches_answered hlaunch y hprobe rfl hy.1 hy.2 rfl hr
  exact reaches_answered hsame y hlist rfl hy.1 hy.2 rfl hr'

end Reaches

/-- The three members of an ideal ring, some of them silent. -/
def quietTrio (up : Contact → Bool) : Traffic :=
  { Overlay.idealTrio with up := up, jobs := [], claims := [], begun := [], ended := [] }

end Traffic

end RingOverlay
