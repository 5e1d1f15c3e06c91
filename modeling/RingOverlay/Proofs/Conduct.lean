import RingOverlay.Node
import RingOverlay.Proofs.Frame

/-!
# Procedures Carried to Their End

A procedure is given as turns with questions between them. Here the turns are
put together: given how the peers behave, `Turn.conduct` says how a procedure
ends, what the node believes then, and whom it has asked.

The peers are a function of everything asked so far, so nothing is assumed
about them: they may stay silent, contradict themselves or lie. What is assumed
is that nothing else happens at the node in the meantime; the view at the end
of one turn is the view at the start of the next.

That a procedure ends at all needs an argument, since every answer may lead to
another question. The argument is that a question has an allowance, and
whatever the answer, the next question has a smaller one. For a lookup the
allowance counts the questions it may still ask; for a node that is entering a
ring it also counts those it may ask through the endpoints not tried yet.

## Main definitions

* `Question.allowance`: How many questions a procedure may ask from here on.
* `Peers`: How everybody else behaves.
* `Run`: What a procedure came to.
* `Turn.conduct`: A procedure, carried to its end.

## Theorems

* `resume_allowance_lt`: Every answer uses up some of the allowance.
* `asked_length_le`: No procedure asks more than its allowance.
* `resume_view_me`: No turn changes who the node is.
* `conduct_view_me`: No procedure does.
* `View.heard_me`: Nor does anything that is heard.
* `seek_cases`, `Hop.resume_cases`, `Hop.resume_none`: What a lookup may do next.
-/

namespace RingOverlay

/-- How many questions may follow once a lookup has failed: a node that is
    entering a ring goes on with the endpoints it has not tried. -/
def Purpose.allowance : Purpose → Nat
  | report => 0
  | finger _ => 0
  | enter untried _ _ => untried.length * hopLimit

/-- How many questions a procedure may ask, counting this one. -/
def Question.allowance : Question → Nat
  | hop h => h.left + 1 + h.purpose.allowance
  | probe _ => 2
  | list _ => 1
  | pulse _ => 1

/-- How many questions may follow a turn. -/
def Next.allowance : Next → Nat
  | ask q => q.allowance
  | finish _ => 0

theorem approach_allowance_le (v : View) (total : Nat) (alone : Bool)
    (untried : List Endpoint) :
    (approach v total alone untried).next.allowance ≤ untried.length * hopLimit := by
  cases untried with
  | nil =>
      simp only [approach]
      split <;> exact Nat.zero_le _
  | cons e rest =>
      simp only [approach, Next.allowance, Question.allowance, Purpose.allowance,
        List.length_cons, hopLimit, slotCount]
      omega

theorem fail_allowance_le (p : Purpose) (v : View) (f : Fault) :
    (p.fail v f).next.allowance ≤ p.allowance := by
  cases p with
  | report => exact Nat.le_refl _
  | finger slot => exact Nat.le_refl _
  | enter untried total alone => exact approach_allowance_le v total alone untried

theorem succeed_allowance (p : Purpose) (v : View) (c : Contact) :
    (p.succeed v c).next.allowance = 0 := by
  cases p <;> rfl

/-- Every answer uses up some of the allowance, whatever it says. -/
theorem resume_allowance_lt (s : Settings) (v : View) (q : Question) (answer : Option Reply) :
    (q.resume s v answer).next.allowance < q.allowance := by
  cases q with
  | hop h =>
      have hfail := fail_allowance_le h.purpose
      simp only [Question.resume, Hop.resume, Question.allowance]
      cases judge h.id h.asked answer with
      | found c =>
          simp only [succeed_allowance]
          omega
      | onward next =>
          cases hleft : h.left with
          | zero =>
              have := hfail v (.hopLimit h.id hopLimit)
              simp only []
              omega
          | succ left =>
              simp only [Next.allowance, Question.allowance]
              omega
      | failed f =>
          simp only []
          split
          · rename_i c _
            have := hfail (v.forget c) f
            omega
          · have := hfail v f
            omega
  | probe c =>
      have hlist (w : View) : (introduce w).next.allowance ≤ 1 := by
        simp only [introduce, askList]
        split <;> simp only [Next.allowance, Question.allowance, Nat.le_refl, Nat.zero_le]
      simp only [Question.resume, Question.allowance]
      cases answer with
      | none => exact Nat.lt_succ_of_le (hlist _)
      | some r => exact Nat.lt_succ_of_le (hlist _)
  | list c => cases answer <;> exact Nat.one_pos
  | pulse c => cases answer <;> exact Nat.one_pos

/-- How everybody else behaves, given what has been asked so far. -/
structure Peers where
  /-- Whom the node's own socket refuses to send to. Questions and claims are short, so how
      long they are makes no difference. -/
  refuses : List Question → Endpoint → Option Errno
  /-- The answer that a question gets in time, if it gets one. -/
  answer : List Question → Question → Option Reply

/-- What a procedure came to. -/
structure Run where
  /-- What the node believes in the end. -/
  view : View
  outcome : Outcome
  /-- The questions that were sent, in order. -/
  asked : List Question

/-- Carry a procedure to its end. A claim or a question that the socket refuses
    ends it at once. -/
def Turn.conduct (s : Settings) (p : Peers) (past : List Question) (t : Turn) : Run :=
  match t.claim.bind fun dest => (p.refuses past dest).map (Fault.send dest) with
  | some f => ⟨t.view, .failed f, []⟩
  | none =>
    match _h : t.next with
    | .finish outcome => ⟨t.view, outcome, []⟩
    | .ask q =>
      match p.refuses past q.target with
      | some reason => ⟨t.view, .failed (.send q.target reason), []⟩
      | none =>
        let rest := (q.resume s t.view (p.answer past q)).conduct s p (past ++ [q])
        { rest with asked := q :: rest.asked }
termination_by t.next.allowance
decreasing_by
  rw [_h]
  exact resume_allowance_lt s t.view q _

/-- The questions of a run come after others. -/
def Run.after (past : List Question) (r : Run) : Run := { r with asked := past ++ r.asked }

theorem Run.after_after (r : Run) (first second : List Question) :
    (r.after second).after first = r.after (first ++ second) := by
  rw [Run.after, Run.after, Run.after, List.append_assoc]

theorem conduct_finish (s : Settings) (p : Peers) (past : List Question) (v : View)
    (outcome : Outcome) :
    ({ view := v, next := .finish outcome } : Turn).conduct s p past = ⟨v, outcome, []⟩ := by
  rw [Turn.conduct]
  rfl

/-- A question that can be sent and is asked without a claim: what comes of its
    answer. -/
theorem conduct_ask (s : Settings) (p : Peers) (past : List Question) (v : View) (q : Question)
    (h : p.refuses past q.target = none) :
    ({ view := v, next := .ask q } : Turn).conduct s p past =
      ((q.resume s v (p.answer past q)).conduct s p (past ++ [q])).after [q] := by
  rw [Turn.conduct]
  simp only [Option.bind_none, h, Run.after, List.singleton_append]

/-- No procedure asks more than its allowance, whatever the peers do. -/
theorem asked_length_le (s : Settings) (p : Peers) (past : List Question) (t : Turn) :
    (t.conduct s p past).asked.length ≤ t.next.allowance := by
  fun_induction Turn.conduct s p past t with
  | case1 => exact Nat.zero_le _
  | case2 => exact Nat.zero_le _
  | case3 => exact Nat.zero_le _
  | case4 past t hclaim q hnext hsend rest ih =>
      have hlt := resume_allowance_lt s t.view q (p.answer past q)
      have hrest : rest.asked.length ≤ (q.resume s t.view (p.answer past q)).next.allowance := ih
      rw [hnext, List.length_cons, Next.allowance]
      omega

theorem approach_view (v : View) (total : Nat) (alone : Bool) (untried : List Endpoint) :
    (approach v total alone untried).view = v := by
  cases untried with
  | nil =>
      simp only [approach]
      split <;> rfl
  | cons e rest => rfl

theorem succeed_view_me (p : Purpose) (v : View) (c : Contact) :
    (p.succeed v c).view.me = v.me := by
  cases p <;> rfl

theorem fail_view (p : Purpose) (v : View) (f : Fault) : (p.fail v f).view = v := by
  cases p with
  | report => rfl
  | finger slot => rfl
  | enter untried total alone => exact approach_view v total alone untried

/-- No turn changes who the node is. -/
theorem resume_view_me (s : Settings) (v : View) (q : Question) (answer : Option Reply) :
    (q.resume s v answer).view.me = v.me := by
  cases q with
  | hop h =>
      simp only [Question.resume, Hop.resume]
      cases judge h.id h.asked answer with
      | found c => exact succeed_view_me h.purpose v c
      | onward next =>
          cases hleft : h.left with
          | zero => simp only [fail_view]
          | succ left => rfl
      | failed f =>
          simp only []
          split <;> simp only [fail_view, View.forget_me]
  | probe c => cases answer <;> simp only [Question.resume, introduce, View.probed_me,
      View.missed_me]
  | list c => cases answer <;> simp only [Question.resume, View.reported_me]
  | pulse c => cases answer <;> simp only [Question.resume, View.bereaved_me]

@[simp] theorem View.heard_me (v : View) (body : Body) : (v.heard body).me = v.me := by
  cases body <;> simp only [View.heard, View.notified_me]

@[simp] theorem View.heard_successor (v : View) (body : Body) :
    (v.heard body).successor = v.successor := by
  cases body <;> simp only [View.heard, View.notified_successor]

@[simp] theorem View.heard_successors (v : View) (body : Body) :
    (v.heard body).successors = v.successors := by
  cases body <;> simp only [View.heard, View.notified_successors]

-- A lookup that starts from a view has its owner at once or goes on to ask whom
-- the view names.
theorem seek_cases (v : View) (id : Id) (p : Purpose) :
    (∃ c, v.lookup id = (c, true) ∧ seek v id p = p.succeed v c) ∨
      ∃ c, v.lookup id = (c, false) ∧
        seek v id p =
          { view := v, next := .ask (.hop ⟨id, c.endpoint, hopLimit - 1, some c, p⟩) } := by
  unfold seek
  rcases v.lookup id with ⟨c, _ | _⟩
  · exact Or.inr ⟨c, rfl, rfl⟩
  · exact Or.inl ⟨c, rfl, rfl⟩

-- An answered lookup succeeds with the contact named if that is the owner, or
-- fails, or goes on to ask it. It fails unless the contact can be reached.
theorem Hop.resume_cases (h : Hop) (v : View) (r : Reply) :
    (r.node.isRoutable = true ∧ r.resolved = true ∧
        h.resume v (some r) = h.purpose.succeed v r.node) ∨
      (∃ f, h.resume v (some r) = h.purpose.fail v f) ∨
        r.node.isRoutable = true ∧ ∃ left, h.resume v (some r) =
          { view := v, next := .ask (.hop { h with asked := r.node.endpoint, left := left }) } := by
  have hjudge : (r.node.isRoutable = true ∧ r.resolved = true ∧
        judge h.id h.asked (some r) = .found r.node) ∨
      (∃ f, judge h.id h.asked (some r) = .failed f) ∨
        r.node.isRoutable = true ∧ judge h.id h.asked (some r) = .onward r.node.endpoint := by
    simp only [judge]
    split_ifs with _ hroute hresolved
    · exact Or.inr (Or.inl ⟨_, rfl⟩)
    · exact Or.inr (Or.inl ⟨_, rfl⟩)
    · exact Or.inl ⟨by simpa using hroute, hresolved, rfl⟩
    · exact Or.inr (Or.inl ⟨_, rfl⟩)
    · exact Or.inr (Or.inr ⟨by simpa using hroute, rfl⟩)
  rcases hjudge with ⟨hroute, hresolved, hj⟩ | ⟨f, hj⟩ | ⟨hroute, hj⟩
  · exact Or.inl ⟨hroute, hresolved, by rw [Hop.resume, hj]⟩
  · exact Or.inr (Or.inl ⟨f, by rw [Hop.resume, hj]⟩)
  · refine Or.inr ?_
    cases hleft : h.left with
    | zero => exact Or.inl ⟨.hopLimit h.id hopLimit, by rw [Hop.resume, hj, hleft]⟩
    | succ left => exact Or.inr ⟨hroute, left, by rw [Hop.resume, hj, hleft]⟩

-- A lookup without an answer fails, and may have cleared a contact from the
-- fingers.
theorem Hop.resume_none (h : Hop) (v : View) :
    ∃ w f, h.resume v none = h.purpose.fail w f ∧ (w = v ∨ ∃ c, w = v.forget c) := by
  simp only [Hop.resume, judge]
  cases h.atStart with
  | none => exact ⟨v, _, rfl, Or.inl rfl⟩
  | some c => exact ⟨v.forget c, _, rfl, Or.inr ⟨c, rfl⟩⟩

/-- No procedure changes who the node is. -/
theorem conduct_view_me (s : Settings) (p : Peers) (past : List Question) (t : Turn) :
    (t.conduct s p past).view.me = t.view.me := by
  fun_induction Turn.conduct s p past t with
  | case1 => rfl
  | case2 => rfl
  | case3 => rfl
  | case4 past t hclaim q hnext hsend rest ih =>
      exact ih.trans (resume_view_me s t.view q _)

end RingOverlay
