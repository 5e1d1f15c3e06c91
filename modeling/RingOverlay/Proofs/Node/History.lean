import RingOverlay.Proofs.Node.Changes

/-!
# Histories of a Node

A running node is driven from outside: callers give it tasks and come back to
see how far they are, datagrams arrive, somebody stops it. Any order of that is
a history. The time and the refusals of the socket are part of each event, and
neither has to follow from what came before; a datagram may hold anything. So
what is proved of all histories is proved of every network a node could be put
into and of every way its callers could interleave.

`Node.passes_happen` takes the node apart once and for all. Whatever the event,
one of four things has come of it: nothing but a question that was waiting has
been sent or dropped, something was heard, a task was begun, or the question at
the head of the line got its answer or waited in vain. Later proofs go through
these four cases and never open the node again. Only the last of them brings news
from those that a node has asked; where it matters which answer that was,
`Node.comes_happen` is the same list with `Node.resumed` added to it.

## Main definitions

* `Event`: What may happen to a node.
* `Node.happen`, `Node.live`: What comes of one event, and of a history.
* `Node.questions`: What waits in the line.
* `Node.Idles`, `Node.Listens`, `Node.Carries`: What comes of an event that
  takes no turn, of a body that is heard, and of a turn.
* `Node.Passes`: The four cases.
* `Node.resumed`, `Node.Comes`: The question that comes to its end in an event, with its
  answer, and the four cases by this question.
* `Node.Finds`, `Node.Polls`: A caller that is handed a reply, and whatever else may
  come of a caller's chance to go on.
* `Node.Receives`: What may come of a datagram that arrives.

## Theorems

* `live_append`: A history can be cut anywhere.
* `live_keep`: What every event keeps and allows, a history keeps and allows.
* `polls_poll`, `receives_receive`: Nothing else comes of either.
* `resumed_eq_some`: When a question comes to its end.
* `comes_happen`, `passes_happen`: Nothing but the four cases happens.
* `view_of_resumed`: The view after a question has come to its end.
* `changes_live`: A history changes the view only by the changes that there are.
* `poll_overdue`: When the time of the question under way is up, its caller goes
  on without an answer.
-/

namespace RingOverlay

/-- What may happen to a running node. -/
inductive Event where
  | begin (refuses : Refusals) (now : Nat) (c : Caller) (t : Task)
  | poll (refuses : Refusals) (now : Nat) (c : Caller)
  | receive (refuses : Refusals) (sender : Endpoint) (datagram : List UInt8)
  | stop

@[simp] theorem Question.isAnswer_body (q : Question) : q.body.isAnswer = false := by
  cases q <;> rfl

namespace Node

/-- What comes of an event. -/
def happen (n : Node) : Event → Node × List Effect
  | .begin refuses now c t => n.begin refuses now c t
  | .poll refuses now c => n.poll refuses now c
  | .receive refuses sender datagram => n.receive refuses sender datagram
  | .stop => (n.stop, [])

/-- What comes of a history: the node in the end, and all its effects in order. -/
def live (n : Node) : List Event → Node × List Effect
  | [] => (n, [])
  | e :: rest =>
    let (m, effects) := n.happen e
    let (last, more) := m.live rest
    (last, effects ++ more)

theorem live_cons (n : Node) (e : Event) (rest : List Event) :
    n.live (e :: rest) = (((n.happen e).1.live rest).1,
      (n.happen e).2 ++ ((n.happen e).1.live rest).2) := rfl

/-- A history can be cut anywhere. -/
theorem live_append (n : Node) (past future : List Event) :
    n.live (past ++ future) = (((n.live past).1.live future).1,
      (n.live past).2 ++ ((n.live past).1.live future).2) := by
  induction past generalizing n with
  | nil => rfl
  | cons e rest ih => simp only [List.cons_append, live_cons, ih, List.append_assoc]

theorem live_append_fst (n : Node) (past future : List Event) :
    (n.live (past ++ future)).1 = ((n.live past).1.live future).1 := by
  rw [live_append]

-- The last event of a history comes after all the others.
theorem live_concat (n : Node) (past : List Event) (e : Event) :
    (n.live (past ++ [e])).1 = ((n.live past).1.happen e).1 :=
  n.live_append_fst past [e]

/-- What every event keeps and allows, a history keeps and allows. -/
theorem live_keep (P : Node → Prop) (allowed : Effect → Prop) {events : List Event} {n : Node}
    (hstep : ∀ m, P m → ∀ e ∈ events,
      P (m.happen e).1 ∧ ∀ x ∈ (m.happen e).2, allowed x) (hn : P n) :
    P (n.live events).1 ∧ ∀ x ∈ (n.live events).2, allowed x := by
  induction events generalizing n with
  | nil => exact ⟨hn, fun x hx => absurd hx List.not_mem_nil⟩
  | cons e rest ih =>
      rcases hstep n hn e List.mem_cons_self with ⟨hkeep, hnow⟩
      rcases ih (fun m hm e' he' => hstep m hm e' (List.mem_cons_of_mem e he')) hkeep with
        ⟨hlast, hlater⟩
      refine ⟨hlast, fun x hx => ?_⟩
      rcases List.mem_append.mp hx with h | h
      · exact hnow x h
      · exact hlater x h

/-- What waits in the line, the one whose turn it is first. -/
def questions (n : Node) : List Question := n.line.map Ticket.question

/-- No turn was taken and nothing was heard: at most a question that was waiting
    has been sent, or dropped. -/
structure Idles (n : Node) (r : Node × List Effect) : Prop where
  settings : r.1.settings = n.settings
  view : r.1.view = n.view
  questions : r.1.questions.Sublist n.questions
  sends : ∀ dest m, Effect.send dest m ∈ r.2 →
    ∃ q ∈ n.questions, dest = q.target ∧ m.body = q.body

/-- A body was heard, and at most answered. -/
structure Listens (n : Node) (body : Body) (r : Node × List Effect) : Prop where
  settings : r.1.settings = n.settings
  view : r.1.view = n.view.heard body
  questions : r.1.questions = n.questions
  sends : ∀ dest m, Effect.send dest m ∈ r.2 → m.body.isAnswer = true

/-- A question was sent, or dropped because it could not be. -/
structure Tries (n : Node) (q : Question) (waiting : List Question) (r : Node × List Effect) :
    Prop where
  settings : r.1.settings = n.settings
  view : r.1.view = n.view
  questions : r.1.questions = q :: waiting ∨ r.1.questions = waiting
  sends : ∀ dest m, Effect.send dest m ∈ r.2 → dest = q.target ∧ m.body = q.body

/-- A turn was carried out while the given questions waited. -/
structure Carries (s : Settings) (waiting : List Question) (turn : Turn)
    (r : Node × List Effect) : Prop where
  settings : r.1.settings = s
  view : r.1.view = turn.view
  questions : r.1.questions = waiting ∨
    ∃ q, turn.next = .ask q ∧ r.1.questions = waiting ++ [q]
  sends : ∀ dest m, Effect.send dest m ∈ r.2 →
    (turn.claim = some dest ∧ m.body = .claim turn.view.me) ∨
      ∃ q, turn.next = .ask q ∧ dest = q.target ∧ m.body = q.body

/-- What may come of an event. -/
inductive Passes (n : Node) : Event → Node × List Effect → Prop where
  | idle {e : Event} {r : Node × List Effect} (h : n.Idles r) : Passes n e r
  | heard {e : Event} {r : Node × List Effect} (body : Body) (h : n.Listens body r) :
      Passes n e r
  | begun {refuses : Refusals} {now : Nat} {c : Caller} {t : Task} {r : Node × List Effect}
      (h : Carries n.settings n.questions (t.begin n.view) r) :
      Passes n (.begin refuses now c t) r
  | resumed {e : Event} {r : Node × List Effect} (q : Question) (waiting : List Question)
      (answer : Option Reply) (hq : n.questions = q :: waiting)
      (h : Carries n.settings waiting (q.resume n.settings n.view answer) r) : Passes n e r

/-- The question that comes to its end in an event, and its answer. There is none if its
    time is up. -/
def resumed (n : Node) : Event → Option (Question × Option Reply)
  | .poll _ now c =>
    match n.line with
    | ⟨d, q, some f⟩ :: _ =>
      if d ≠ c then none
      else if f.deadline ≤ now then some (q, none)
      else (firstMatch f.seq q.expects n.inbox).map fun found => (q, some found.1)
    | _ => none
  | _ => none

/-- What may come of an event, by the question that comes to its end in it. -/
inductive Comes (n : Node) :
    Event → Option (Question × Option Reply) → Node × List Effect → Prop where
  | idle {e : Event} {r : Node × List Effect} (h : n.Idles r) : Comes n e none r
  | heard {e : Event} {r : Node × List Effect} (body : Body) (h : n.Listens body r) :
      Comes n e none r
  | begun {refuses : Refusals} {now : Nat} {c : Caller} {t : Task} {r : Node × List Effect}
      (h : Carries n.settings n.questions (t.begin n.view) r) :
      Comes n (.begin refuses now c t) none r
  | ended {e : Event} {r : Node × List Effect} (q : Question) (waiting : List Question)
      (answer : Option Reply) (hq : n.questions = q :: waiting)
      (h : Carries n.settings waiting (q.resume n.settings n.view answer) r) :
      Comes n e (some (q, answer)) r

/-- A caller that gets its chance to go on is handed a reply to its question, and what
    lies behind the reply in the inbox stays there. -/
structure Finds (n : Node) (now : Nat) (c : Caller) (q : Question) (f : Flight)
    (waiting : List Ticket) (r : Reply) (rest : List Reply) : Prop where
  line : n.line = ⟨c, q, some f⟩ :: waiting
  early : now < f.deadline
  first : firstMatch f.seq q.expects n.inbox = some (r, rest)

/-- What may come of a caller's chance to go on. -/
inductive Polls (refuses : Refusals) (now : Nat) (n : Node) (c : Caller) :
    Node × List Effect → Prop where
  | turnedAway (h : ∀ t ∈ n.line.head?, t.caller ≠ c) : Polls refuses now n c (n, [])
  | sends {q : Question} {waiting : List Ticket} (hline : n.line = ⟨c, q, none⟩ :: waiting) :
      Polls refuses now n c (n.launch refuses now c q waiting)
  | lapses {q : Question} {f : Flight} {waiting : List Ticket}
      (hline : n.line = ⟨c, q, some f⟩ :: waiting) (hdue : f.deadline ≤ now) :
      Polls refuses now n c (n.resolve refuses now ⟨c, q, some f⟩ waiting none)
  | finds {q : Question} {f : Flight} {waiting : List Ticket} {r : Reply} {rest : List Reply}
      (h : n.Finds now c q f waiting r rest) :
      Polls refuses now n c
        ({ n with inbox := rest }.resolve refuses now ⟨c, q, some f⟩ waiting (some r))
  | waits {q : Question} {f : Flight} {waiting : List Ticket}
      (hline : n.line = ⟨c, q, some f⟩ :: waiting) (hearly : now < f.deadline)
      (hnone : firstMatch f.seq q.expects n.inbox = none) :
      Polls refuses now n c ({ n with inbox := [] }, [])

/-- Nothing else comes of it. -/
theorem polls_poll (refuses : Refusals) (now : Nat) (n : Node) (c : Caller) :
    Polls refuses now n c (n.poll refuses now c) := by
  cases hline : n.line with
  | nil =>
      simp only [poll, hline]
      exact .turnedAway fun t ht => by
        rw [hline] at ht
        cases ht
  | cons t waiting =>
      by_cases hc : t.caller = c
      · rcases t with ⟨d, q, _ | f⟩ <;> rcases hc with rfl
        · simp only [poll, hline, ne_eq, not_true_eq_false, if_false]
          exact .sends hline
        · simp only [poll, hline, ne_eq, not_true_eq_false, if_false]
          split_ifs with hdue
          · exact .lapses hline hdue
          · have hearly := Nat.lt_of_not_le hdue
            split
            · exact .finds ⟨hline, hearly, ‹_›⟩
            · have hwaits : Polls refuses now n d ({ n with inbox := [] }, []) :=
                .waits hline hearly ‹_›
              rwa [hline] at hwaits
      · simp only [poll, hline, ne_eq, hc, not_false_eq_true, if_true]
        exact .turnedAway fun t ht => by
          rw [hline] at ht
          cases ht
          exact hc

/-- What may come of a datagram that arrives. -/
inductive Receives (refuses : Refusals) (n : Node) (sender : Endpoint) (datagram : List UInt8) :
    Node × List Effect → Prop where
  | deaf (h : n.running = false) : Receives refuses n sender datagram (n, [])
  | garbled {f : Fault} (hread : Wire.unpack datagram = .error f) :
      Receives refuses n sender datagram (n, [])
  | delivers {m : Message} (hread : Wire.unpack datagram = .ok m)
      (hm : m.body.isAnswer = true) (hroom : n.inbox.length < inboxSize) :
      Receives refuses n sender datagram
        ({ n with inbox := n.inbox ++ [m.toReply] }, callHead n.line)
  | overflows {m : Message} (hread : Wire.unpack datagram = .ok m)
      (hm : m.body.isAnswer = true) (hfull : inboxSize ≤ n.inbox.length) :
      Receives refuses n sender datagram (n, [])
  | notes {m : Message} (hread : Wire.unpack datagram = .ok m)
      (hm : m.body.isAnswer = false)
      (hnone : (n.view.heard m.body).answer? m.body = none) :
      Receives refuses n sender datagram ({ n with view := n.view.heard m.body }, [])
  | answers {m : Message} {body : Body} (hread : Wire.unpack datagram = .ok m)
      (hbody : (n.view.heard m.body).answer? m.body = some body)
      (hsend : refuses sender (Wire.pack (m.answer body)) = none) :
      Receives refuses n sender datagram
        ({ n with view := n.view.heard m.body }, [.send sender (m.answer body)])
  | halts {m : Message} {body : Body} {reason : Errno} (hread : Wire.unpack datagram = .ok m)
      (hbody : (n.view.heard m.body).answer? m.body = some body)
      (hsend : refuses sender (Wire.pack (m.answer body)) = some reason) :
      Receives refuses n sender datagram
        ({ n with view := n.view.heard m.body, running := false }, [])

/-- Nothing else comes of it. -/
theorem receives_receive (refuses : Refusals) (n : Node) (sender : Endpoint)
    (datagram : List UInt8) :
    Receives refuses n sender datagram (n.receive refuses sender datagram) := by
  unfold receive
  split_ifs with hdeaf
  · exact .deaf (by simpa using hdeaf)
  · cases hread : Wire.unpack datagram with
    | error f => exact .garbled hread
    | ok m =>
        by_cases hm : m.body.isAnswer = true
        · simp only [hear, hm, if_true, deliver]
          split_ifs with hroom
          · exact .delivers hread hm hroom
          · exact .overflows hread hm (Nat.le_of_not_lt hroom)
        · simp only [hear, if_neg hm]
          cases hbody : (n.view.heard m.body).answer? m.body with
          | none => exact .notes hread (Bool.eq_false_iff.mpr hm) hbody
          | some body =>
              cases hsend : refuses sender (Wire.pack (m.answer body)) with
              | none =>
                  simp only [hsend]
                  exact .answers hread hbody hsend
              | some reason =>
                  simp only [hsend]
                  exact .halts hread hbody hsend

section Turns

variable (refuses : Refusals) (now : Nat) (n : Node) (c : Caller)

-- Whoever is told that it is their turn is told nothing else.
theorem send_notMem_callHead (line : List Ticket) (dest : Endpoint) (m : Message) :
    Effect.send dest m ∉ callHead line := by
  cases line <;> simp [callHead]

theorem tries_launch (q : Question) (waiting : List Ticket) :
    n.Tries q (waiting.map Ticket.question) (n.launch refuses now c q waiting) := by
  cases hsend : refuses q.target (Wire.pack (.new n.nextSeq q.body)) with
  | none =>
      constructor <;>
        simp only [launch, dispatch, hsend, questions, List.map_cons, List.mem_singleton,
          Effect.send.injEq, true_or]
      rintro dest m ⟨rfl, rfl⟩
      exact ⟨rfl, rfl⟩
  | some reason =>
      constructor <;> simp only [launch, dispatch, hsend, conclude, questions, or_true]
      intro dest m hm
      rcases List.mem_append.mp hm with h | h
      · exact absurd h (send_notMem_callHead waiting dest m)
      · cases List.mem_singleton.mp h

-- A turn that ends with a question puts it at the end of the line, and sends it if
-- nobody is in front.
theorem carries_proceed (turn : Turn) (hview : n.view = turn.view) :
    Carries n.settings n.questions turn (n.proceed refuses now c turn.next) := by
  cases hnext : turn.next with
  | finish outcome =>
      exact ⟨rfl, hview, Or.inl rfl, fun dest m hm => by cases List.mem_singleton.mp hm⟩
  | ask q =>
      cases hline : n.line with
      | nil =>
          have hempty : n.questions = [] := by rw [questions, hline, List.map_nil]
          have h := tries_launch refuses now n c q []
          simp only [proceed, hline, hempty]
          exact ⟨h.settings, h.view.trans hview, h.questions.symm.imp id fun hq => ⟨q, hnext, hq⟩,
            fun dest m hm => Or.inr ⟨q, hnext, h.sends dest m hm⟩⟩
      | cons t rest =>
          simp only [proceed, hline]
          exact ⟨rfl, hview, Or.inr ⟨q, hnext, by simp [questions, hline]⟩,
            fun dest m hm => absurd hm List.not_mem_nil⟩

theorem carries_follow (turn : Turn) :
    Carries n.settings n.questions turn (n.follow refuses now c turn) := by
  cases hclaim : turn.claim with
  | none =>
      simp only [follow, hclaim]
      exact carries_proceed refuses now { n with view := turn.view } c turn rfl
  | some dest =>
      cases hsend : refuses dest (Wire.pack (.new n.nextSeq (.claim turn.view.me))) with
      | some reason =>
          simp only [follow, hclaim, dispatch, hsend, conclude]
          exact ⟨rfl, rfl, Or.inl rfl, fun dest m hm => by cases List.mem_singleton.mp hm⟩
      | none =>
          have h := carries_proceed refuses now
            { n with view := turn.view, nextSeq := n.nextSeq + 1 } c turn rfl
          simp only [follow, hclaim, dispatch, hsend]
          refine ⟨h.settings, h.view, h.questions, fun d m hm => ?_⟩
          rcases List.mem_cons.mp hm with heq | hlater
          · cases heq
            exact Or.inl ⟨hclaim, rfl⟩
          · exact h.sends d m hlater

theorem carries_resolve (t : Ticket) (waiting : List Ticket) (answer : Option Reply) :
    Carries n.settings (waiting.map Ticket.question) (t.question.resume n.settings n.view answer)
      (n.resolve refuses now t waiting answer) := by
  have h := carries_follow refuses now { n with line := waiting } t.caller
    (t.question.resume n.settings n.view answer)
  refine ⟨h.settings, h.view, h.questions, fun dest m hm => ?_⟩
  rcases List.mem_append.mp hm with hcall | hturn
  · exact absurd hcall (send_notMem_callHead waiting dest m)
  · exact h.sends dest m hturn

end Turns

section Events

variable {n : Node} {e : Event} {r : Node × List Effect}

-- The view, the line and the settings are as they were, and nothing is sent.
theorem idles_of_same {m : Node} {effects : List Effect} (hs : m.settings = n.settings)
    (hv : m.view = n.view) (hl : m.line = n.line)
    (he : ∀ dest a, Effect.send dest a ∉ effects) : n.Idles (m, effects) where
  settings := hs
  view := hv
  questions := by rw [questions, hl]; exact List.Sublist.refl _
  sends := fun dest a ha => absurd ha (he dest a)

theorem Tries.idles {q : Question} {waiting : List Question} (h : n.Tries q waiting r)
    (hq : n.questions = q :: waiting) : n.Idles r where
  settings := h.settings
  view := h.view
  questions := by
    rcases h.questions with heq | heq <;> rw [heq, hq]
    exact List.sublist_cons_self q waiting
  sends := fun dest m hm => ⟨q, by rw [hq]; exact List.mem_cons_self, h.sends dest m hm⟩

/-- A question comes to its end when its caller, at the head of the line, gets a chance to
    go on and either its time is up or the inbox holds an answer to it. -/
theorem resumed_eq_some {q : Question} {answer : Option Reply} :
    n.resumed e = some (q, answer) ↔
      ∃ refuses now c f waiting, e = .poll refuses now c ∧ n.line = ⟨c, q, some f⟩ :: waiting ∧
        (answer = none ∧ f.deadline ≤ now ∨
          ∃ r rest, answer = some r ∧ n.Finds now c q f waiting r rest) := by
  constructor
  · intro h
    cases e with
    | poll refuses now c =>
        simp only [resumed] at h
        split at h
        · rename_i d asked f waiting hline
          split_ifs at h with hd hdue
          · cases h
            exact ⟨refuses, now, c, f, waiting, rfl, by rw [hline, not_ne_iff.mp hd],
              Or.inl ⟨rfl, hdue⟩⟩
          · cases hfirst : firstMatch f.seq asked.expects n.inbox with
            | none =>
                rw [hfirst] at h
                cases h
            | some found =>
                rw [hfirst] at h
                cases h
                rw [not_ne_iff.mp hd] at hline
                exact ⟨refuses, now, c, f, waiting, rfl, hline, Or.inr ⟨found.1, found.2, rfl,
                  hline, Nat.lt_of_not_le hdue, hfirst⟩⟩
        · cases h
    | _ => cases h
  · rintro ⟨refuses, now, c, f, waiting, rfl, hline, ⟨rfl, hdue⟩ | ⟨r, rest, rfl, hfinds⟩⟩
    · simp only [resumed, hline, ne_eq, not_true_eq_false, if_false, if_pos hdue]
    · simp only [resumed, hline, ne_eq, not_true_eq_false, if_false,
        if_neg (Nat.not_le.mpr hfinds.early), hfinds.first, Option.map_some]

-- A caller that is turned away, or has to wait, leaves the question under way.
theorem resumed_of_turnedAway {refuses : Refusals} {now : Nat} {c : Caller}
    (haway : ∀ t ∈ n.line.head?, t.caller ≠ c) : n.resumed (.poll refuses now c) = none := by
  refine Option.eq_none_iff_forall_ne_some.mpr fun a ha => ?_
  rcases resumed_eq_some.mp ha with ⟨_, _, _, f, waiting, heq, hline, _⟩
  cases heq
  exact haway _ (by rw [hline]; rfl) rfl

theorem resumed_of_waits {refuses : Refusals} {now : Nat} {c : Caller} {q : Question}
    {f : Flight} {waiting : List Ticket} (hline : n.line = ⟨c, q, some f⟩ :: waiting)
    (hearly : now < f.deadline) (hfirst : firstMatch f.seq q.expects n.inbox = none) :
    n.resumed (.poll refuses now c) = none := by
  simp only [resumed, hline, ne_eq, not_true_eq_false, if_false, if_neg (Nat.not_le.mpr hearly),
    hfirst, Option.map_none]

theorem comes_poll (refuses : Refusals) (now : Nat) (n : Node) (c : Caller) :
    n.Comes (.poll refuses now c) (n.resumed (.poll refuses now c)) (n.poll refuses now c) := by
  have hquestions {t : Ticket} {waiting : List Ticket} (hline : n.line = t :: waiting) :
      n.questions = t.question :: waiting.map Ticket.question := by
    rw [questions, hline, List.map_cons]
  have h := polls_poll refuses now n c
  generalize n.poll refuses now c = r at h ⊢
  cases h with
  | turnedAway haway =>
      rw [resumed_of_turnedAway haway]
      exact .idle (idles_of_same rfl rfl rfl fun _ _ h => absurd h List.not_mem_nil)
  | sends hline =>
      have hnone : n.resumed (.poll refuses now c) = none := by
        simp only [resumed, hline]
      rw [hnone]
      exact .idle ((tries_launch refuses now n c _ _).idles (hquestions hline))
  | @lapses q f waiting hline hdue =>
      rw [resumed_eq_some.mpr ⟨refuses, now, c, f, waiting, rfl, hline, Or.inl ⟨rfl, hdue⟩⟩]
      exact .ended _ _ none (hquestions hline)
        (carries_resolve refuses now n ⟨c, q, some f⟩ waiting none)
  | @finds q f waiting r rest h =>
      rw [resumed_eq_some.mpr ⟨refuses, now, c, f, waiting, rfl, h.line, Or.inr ⟨r, rest, rfl, h⟩⟩]
      exact .ended _ _ (some r) (hquestions h.line)
        (carries_resolve refuses now { n with inbox := rest } ⟨c, q, some f⟩ waiting (some r))
  | waits hline hearly hfirst =>
      rw [resumed_of_waits hline hearly hfirst]
      exact .idle (idles_of_same rfl rfl rfl fun _ _ h => absurd h List.not_mem_nil)

-- What a node answers is an answer, and it answers no answer.
theorem isAnswer_of_answer {v : View} {body answer : Body} (h : v.answer? body = some answer) :
    answer.isAnswer = true := by
  cases body <;> cases h <;> rfl

theorem answer_of_isAnswer {body : Body} (h : body.isAnswer = true) (v : View) :
    v.answer? body = none := by
  cases body <;> cases h <;> rfl

theorem comes_receive (refuses : Refusals) (n : Node) (sender : Endpoint)
    (datagram : List UInt8) : n.Comes e none (n.receive refuses sender datagram) := by
  have hnothing : n.Comes e none (n, []) :=
    .idle (idles_of_same rfl rfl rfl fun _ _ h => absurd h List.not_mem_nil)
  have h := receives_receive refuses n sender datagram
  generalize n.receive refuses sender datagram = r at h ⊢
  cases h with
  | deaf => exact hnothing
  | garbled => exact hnothing
  | delivers => exact .idle (idles_of_same rfl rfl rfl (send_notMem_callHead n.line))
  | overflows => exact hnothing
  | @notes m => exact .heard m.body ⟨rfl, rfl, rfl, fun _ _ h => absurd h List.not_mem_nil⟩
  | @answers m body hread hbody =>
      refine .heard m.body ⟨rfl, rfl, rfl, fun dest a ha => ?_⟩
      cases List.mem_singleton.mp ha
      exact isAnswer_of_answer hbody
  | @halts m => exact .heard m.body ⟨rfl, rfl, rfl, fun _ _ h => absurd h List.not_mem_nil⟩

/-- Nothing else comes of an event. -/
theorem comes_happen (n : Node) (e : Event) : n.Comes e (n.resumed e) (n.happen e) := by
  cases e with
  | begin refuses now c t => exact .begun (carries_follow refuses now n c _)
  | poll refuses now c => exact comes_poll refuses now n c
  | receive refuses sender datagram => exact comes_receive refuses n sender datagram
  | stop =>
      refine .idle ⟨rfl, rfl, ?_, fun dest m hm => absurd hm List.not_mem_nil⟩
      exact List.filter_sublist.map Ticket.question

theorem Comes.passes {ended : Option (Question × Option Reply)} (h : n.Comes e ended r) :
    n.Passes e r := by
  cases h with
  | idle h => exact .idle h
  | heard body h => exact .heard body h
  | begun h => exact .begun h
  | ended q waiting answer hq h => exact .resumed q waiting answer hq h

/-- Nothing but the four cases happens. -/
theorem passes_happen (n : Node) (e : Event) : n.Passes e (n.happen e) :=
  (comes_happen n e).passes

/-- The view after a question has come to its end. -/
theorem view_of_resumed {q : Question} {answer : Option Reply}
    (h : n.resumed e = some (q, answer)) :
    (n.happen e).1.view = (q.resume n.settings n.view answer).view := by
  have hcomes := comes_happen n e
  rw [h] at hcomes
  cases hcomes with
  | ended q waiting answer hq hcarries => exact hcarries.view

/-- Whatever happens, the settings stay and the view changes only in the ways that
    there are. -/
theorem Passes.changes (h : n.Passes e r) :
    r.1.settings = n.settings ∧ View.Changes n.settings n.view r.1.view := by
  cases h with
  | idle h => exact ⟨h.settings, by rw [h.view]⟩
  | heard body h => exact ⟨h.settings, by rw [h.view]; exact View.changes_heard _ _ body⟩
  | begun h => exact ⟨h.settings, by rw [h.view]; exact View.changes_begin _ _ _⟩
  | resumed q waiting answer hq h =>
      exact ⟨h.settings, by rw [h.view]; exact View.changes_resume _ _ q answer⟩

theorem changes_live (n : Node) (events : List Event) :
    (n.live events).1.settings = n.settings ∧
      View.Changes n.settings n.view (n.live events).1.view := by
  refine (live_keep (fun m => m.settings = n.settings ∧ View.Changes n.settings n.view m.view)
    (fun _ => True) ?_ ⟨rfl, .refl⟩).1
  rintro m ⟨hs, hm⟩ e _
  have h := (passes_happen m e).changes
  rw [hs] at h
  exact ⟨⟨h.1, hm.trans h.2⟩, fun _ _ => trivial⟩

/-- When the time of the question under way is up, its caller goes on without an
    answer. -/
theorem poll_overdue {c : Caller} {q : Question} {f : Flight} {waiting : List Ticket}
    (hline : n.line = ⟨c, q, some f⟩ :: waiting) {now : Nat} (hnow : f.deadline ≤ now)
    (refuses : Refusals) :
    (n.poll refuses now c).1.view = (q.resume n.settings n.view none).view := by
  simp only [poll, hline, ne_eq, not_true_eq_false, if_false, if_pos hnow]
  exact (carries_resolve refuses now n ⟨c, q, some f⟩ waiting none).view

end Events

end Node

end RingOverlay
