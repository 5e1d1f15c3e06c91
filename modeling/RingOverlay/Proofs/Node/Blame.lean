import RingOverlay.Proofs.Growth.Nodes
import RingOverlay.Proofs.Node.History
import RingOverlay.Proofs.Traffic.Turns

/-!
# Who Is Charged With Silence

A probe is of the contact that was the successor when it was asked. When its time
is up, the miss is charged to whoever is the successor then. Nothing compares the
two, as is done when a reported list comes in or a predecessor stays silent. So
the question is when they are the same.

They are the same as long as only one task at a time is about to change the
successor: a cycle whose probe waits, or a lookup to enter a ring. That is all
that `Node.Orderly` asks of a history; any number of other tasks may interleave
with it, cycles may overlap once their probes have been answered, and the answers
may be forged. The invariant is that at most one question that steers waits, and
that a probe that waits is of the successor: whatever changes the successor is
then the end of the only question that could have been of another one.

With two cycles at once it fails. Both probe the same successor, the first gives
it up, and the second charges the one that took over with a silence that was not
its own.

## Main definitions

* `Question.steers`, `Task.steers`: The questions whose end may change the
  successor, and the tasks that ask them.
* `Node.Orderly`: A history in which only one of them waits at a time.
* `Node.Steered`: What holds of the node all along.
* `Node.oneCycle`, `Node.twoCycles`: A history with one cycle, and with two at once.

## Theorems

* `begin_successor`: The first turn of a task keeps the successor.
* `resume_of_not_steers`: So does the end of a question that does not steer.
* `Steered.passes`: Every event of an orderly history keeps a node steered.
* `charged_of_orderly`: In an orderly history the one who is charged with a silence
  is the one who was probed.
* `late_pays_for_middle`: In a history that is not, it may be another.
-/

namespace RingOverlay

/-- A question whose end may change the successor: a probe, or a lookup to enter a
    ring. -/
def Question.steers : Question → Bool
  | .probe _ => true
  | .hop ⟨_, _, _, _, .enter _ _ _⟩ => true
  | _ => false

/-- A task that asks such questions. -/
def Task.steers : Task → Bool
  | .stabilize => true
  | .enter _ _ => true
  | _ => false

/-- An event that begins such a task. -/
def Event.steers : Event → Bool
  | .begin _ _ _ t => t.steers
  | _ => false

section Turns

variable {s : Settings} {v : View} {t : Task} {q : Question}

theorem stays_of_not_steers {h : Hop} (hq : (Question.hop h).steers = false) :
    h.purpose.Stays := by
  rintro untried total alone hp
  rcases h with ⟨id, asked, left, start, purpose⟩
  cases hp
  cases hq

theorem not_steers_of_stays {h : Hop} (hp : h.purpose.Stays) :
    (Question.hop h).steers = false := by
  rcases h with ⟨id, asked, left, start, _ | slot | ⟨untried, total, alone⟩⟩
  · rfl
  · rfl
  · exact absurd rfl (hp untried total alone)

theorem Task.stays_of_not_steers (h : t.steers = false) : t.Stays := by
  rintro through alone rfl
  cases h

-- Whoever fails to enter a ring tries the next endpoint, or gives up.
theorem approach_next {total : Nat} {alone : Bool} {untried : List Endpoint}
    (h : (approach v total alone untried).next = .ask q) : ∃ hop, q = .hop hop := by
  cases untried with
  | nil =>
      simp only [approach] at h
      split_ifs at h
  | cons e rest =>
      cases h
      exact ⟨_, rfl⟩

/-- The first turn of a task keeps the successor. -/
theorem begin_successor (v : View) (t : Task) : (t.begin v).view.successor = v.successor :=
  (v.kept_begin t).successor

/-- Only a task that steers asks a question that does, and a probe is of the
    successor. -/
theorem begin_steers (h : (t.begin v).next = .ask q) (hq : q.steers = true) :
    t.steers = true ∧ ∀ c, q = .probe c → c = v.successor := by
  cases t with
  | enter through alone =>
      rcases approach_next h with ⟨hop, rfl⟩
      exact ⟨rfl, fun c hc => by cases hc⟩
  | stabilize =>
      refine ⟨rfl, fun c hc => ?_⟩
      rw [hc] at h
      exact ((light_begin (fun _ _ h => by cases h) v).next _ h).probe.2
  | _ =>
      have hasks := (light_begin (fun _ _ h => by cases h) v).next q h
      cases q with
      | hop hop =>
          rw [not_steers_of_stays hasks.stays] at hq
          cases hq
      | probe c => cases hasks.probe.1
      | list c => cases hq
      | pulse c => cases hq

/-- The end of a question that does not steer keeps the successor, and so does
    whatever it leads to. -/
theorem resume_of_not_steers (hq : q.steers = false) (answer : Option Reply) :
    (q.resume s v answer).view.successor = v.successor ∧
      ∀ next, (q.resume s v answer).next = .ask next → next.steers = false := by
  cases q with
  | hop h =>
      have hlight := light_hop (stays_of_not_steers hq) v answer
      refine ⟨hlight.view.successor, fun next hnext => ?_⟩
      rcases hlight.next next hnext with ⟨h', rfl, hp⟩
      refine not_steers_of_stays ?_
      rw [hp]
      exact stays_of_not_steers hq
  | probe c => cases hq
  | list c =>
      cases answer with
      | none => exact ⟨rfl, fun next h => by cases h⟩
      | some r => exact ⟨v.reported_successor c r.nodes s.ceiling, fun next h => by cases h⟩
  | pulse c =>
      cases answer with
      | none => exact ⟨v.bereaved_successor c, fun next h => by cases h⟩
      | some r => exact ⟨rfl, fun next h => by cases h⟩

theorem fail_next {p : Purpose} {f : Fault} (h : (p.fail v f).next = .ask q) :
    ∃ hop, q = .hop hop := by
  cases p with
  | report => cases h
  | finger slot => cases h
  | enter untried total alone => exact approach_next h

-- A lookup is followed by nothing but its own next question.
theorem hop_next {h : Hop} {answer : Option Reply} (hnext : (h.resume v answer).next = .ask q) :
    ∃ hop, q = .hop hop := by
  cases answer with
  | some r =>
      rcases h.resume_cases v r with ⟨_, _, heq⟩ | ⟨f, heq⟩ | ⟨_, left, heq⟩ <;> rw [heq] at hnext
      · cases hp : h.purpose <;> rw [hp] at hnext <;> cases hnext
      · exact fail_next hnext
      · cases hnext
        exact ⟨_, rfl⟩
  | none =>
      rcases h.resume_none v with ⟨w, f, heq, _⟩
      rw [heq] at hnext
      exact fail_next hnext

/-- No answer and no silence leads to a probe. -/
theorem resume_next_ne_probe {answer : Option Reply} {next : Question}
    (h : (q.resume s v answer).next = .ask next) (c : Contact) : next ≠ .probe c := by
  have hlist {w : View} (hw : (introduce w).next = .ask next) : next ≠ .probe c := by
    simp only [introduce, askList] at hw
    split_ifs at hw
    cases hw
    exact Question.noConfusion
  cases q with
  | hop hop =>
      rcases hop_next h with ⟨later, rfl⟩
      exact Question.noConfusion
  | probe d => cases answer <;> exact hlist h
  | list d => cases answer <;> cases h
  | pulse d => cases answer <;> cases h

end Turns

namespace Node

/-- A history in which a task that steers is begun only when no question of such a
    task waits. -/
def Orderly (n : Node) : List Event → Prop
  | [] => True
  | e :: rest =>
    (e.steers = true → ∀ q ∈ n.questions, q.steers = false) ∧ (n.happen e).1.Orderly rest

instance Orderly.decidable (n : Node) : ∀ events, Decidable (n.Orderly events)
  | [] => inferInstanceAs (Decidable True)
  | e :: rest =>
    have := Orderly.decidable (n.happen e).1 rest
    inferInstanceAs (Decidable ((e.steers = true → ∀ q ∈ n.questions, q.steers = false) ∧
      (n.happen e).1.Orderly rest))

/-- At most one question that steers waits, and a probe that waits is of the
    successor. -/
structure Steered (n : Node) : Prop where
  single : n.questions.countP Question.steers ≤ 1
  probes : ∀ c, Question.probe c ∈ n.questions → c = n.view.successor

namespace Steered

variable {n : Node} {r : Node × List Effect}

theorem of_sublist (hn : n.Steered) (hview : r.1.view.successor = n.view.successor)
    (h : r.1.questions.Sublist n.questions) : r.1.Steered where
  single := h.countP_le.trans hn.single
  probes := fun c hc => by rw [hview, hn.probes c (h.subset hc)]

-- A question that steers may only join the line when there is no other.
theorem of_asks {waiting : List Question} {q : Question}
    (heq : r.1.questions = waiting ++ [q]) (hsingle : waiting.countP Question.steers ≤ 1)
    (hprobes : ∀ c, Question.probe c ∈ waiting → c = r.1.view.successor)
    (hnew : q.steers = true → waiting.countP Question.steers = 0 ∧
      ∀ c, q = .probe c → c = r.1.view.successor) : r.1.Steered := by
  constructor
  · rw [heq, List.countP_append, List.countP_singleton]
    split_ifs with hq
    · rw [(hnew hq).1]
    · exact hsingle
  · intro c hc
    rw [heq] at hc
    rcases List.mem_append.mp hc with hold | hlast
    · exact hprobes c hold
    · have hprobe : q = .probe c := (List.mem_singleton.mp hlast).symm
      exact (hnew (by rw [hprobe]; rfl)).2 c hprobe

theorem begun (hn : n.Steered) {t : Task}
    (ht : t.steers = true → ∀ q ∈ n.questions, q.steers = false)
    (h : Carries n.settings n.questions (t.begin n.view) r) : r.1.Steered := by
  have hview : r.1.view.successor = n.view.successor := by rw [h.view, begin_successor]
  rcases h.questions with heq | ⟨q, hq, heq⟩
  · exact hn.of_sublist hview (by rw [heq])
  · refine of_asks heq hn.single (fun c hc => by rw [hview, hn.probes c hc]) fun hsteers => ?_
    rcases begin_steers hq hsteers with ⟨htask, hprobe⟩
    refine ⟨List.countP_eq_zero.mpr fun old hold => ?_, fun c hc => by rw [hview, hprobe c hc]⟩
    rw [ht htask old hold]
    exact Bool.false_ne_true

theorem resumed (hn : n.Steered) {q : Question} {waiting : List Question}
    {answer : Option Reply} (hq : n.questions = q :: waiting)
    (h : Carries n.settings waiting (q.resume n.settings n.view answer) r) : r.1.Steered := by
  have hsingle := hn.single
  rw [hq, List.countP_cons] at hsingle
  cases hsteers : q.steers with
  | true =>
      -- This was the one that steers, so no probe is left that could be of another.
      have hnone : waiting.countP Question.steers = 0 := by
        rw [hsteers, if_pos rfl] at hsingle
        omega
      have hprobes (c : Contact) (hc : Question.probe c ∈ waiting) : c = r.1.view.successor :=
        absurd rfl (List.countP_eq_zero.mp hnone _ hc)
      rcases h.questions with heq | ⟨next, hnext, heq⟩
      · refine ⟨?_, fun c hc => hprobes c (heq ▸ hc)⟩
        rw [heq, hnone]
        exact Nat.zero_le 1
      · exact of_asks heq (hnone.trans_le (Nat.zero_le 1)) hprobes fun _ =>
          ⟨hnone, fun c hc => absurd hc (resume_next_ne_probe hnext c)⟩
  | false =>
      rcases resume_of_not_steers hsteers answer (s := n.settings) (v := n.view) with
        ⟨hkept, hcalm⟩
      have hview : r.1.view.successor = n.view.successor := by rw [h.view, hkept]
      have htail : waiting.Sublist n.questions := by
        rw [hq]
        exact List.sublist_cons_self q waiting
      rcases h.questions with heq | ⟨next, hnext, heq⟩
      · exact hn.of_sublist hview (by rw [heq]; exact htail)
      · refine of_asks heq (htail.countP_le.trans hn.single)
          (fun c hc => by rw [hview, hn.probes c (htail.subset hc)]) fun hnew => ?_
        rw [hcalm next hnext] at hnew
        cases hnew

/-- Every event of an orderly history keeps a node steered. -/
theorem passes (hn : n.Steered) {e : Event}
    (he : e.steers = true → ∀ q ∈ n.questions, q.steers = false) (h : n.Passes e r) :
    r.1.Steered := by
  cases h with
  | idle h => exact hn.of_sublist (by rw [h.view]) h.questions
  | heard body h =>
      exact hn.of_sublist (by rw [h.view, View.heard_successor]) (by rw [h.questions])
  | begun h => exact hn.begun he h
  | resumed q waiting answer hq h => exact hn.resumed hq h

theorem of_orderly {events : List Event} (hn : n.Steered) (h : n.Orderly events) :
    (n.live events).1.Steered := by
  induction events generalizing n with
  | nil => exact hn
  | cons e rest ih => exact ih (hn.passes h.1 (passes_happen n e)) h.2

end Steered

/-- In an orderly history a probe that waits is of the successor, and when its time is
    up the miss is charged to the successor. So whoever is charged with a silence, or
    given up for it, is the one who was probed. -/
theorem charged_of_orderly (s : Settings) (me : Contact) (firstSeq : UInt64)
    (events : List Event) (h : (bound s me firstSeq).Orderly events) :
    let n := ((bound s me firstSeq).live events).1
    (∀ c, Question.probe c ∈ n.questions → c = n.view.successor) ∧
      ∀ caller c f waiting, n.line = ⟨caller, .probe c, some f⟩ :: waiting →
        ∀ refuses now, f.deadline ≤ now →
          c = n.view.successor ∧
            (n.poll refuses now caller).1.view = n.view.missed s.failureThreshold := by
  intro n
  have hn : n.Steered :=
    Steered.of_orderly ⟨Nat.zero_le 1, fun c hc => absurd hc List.not_mem_nil⟩ h
  refine ⟨hn.probes, fun caller c f waiting hline refuses now hnow => ⟨?_, ?_⟩⟩
  · refine hn.probes c ?_
    rw [questions, hline, List.map_cons]
    exact List.mem_cons_self
  · rw [poll_overdue hline hnow, (changes_live _ events).1]
    rfl

/-- One successor to fall back on, and no patience. -/
def hasty : Settings := { maxSuccessors := 2, failureThreshold := 1 }

/-- What `early` goes through before its successor falls silent: it enters through
    `middle`, which answers as the owner, and learns from it that `late` comes next. -/
def prelude : List Event :=
  [ .begin openSocket 0 .starter (.enter [Contact.middle.endpoint] false),
    .receive openSocket Contact.middle.endpoint (Wire.pack (.new 0 (.owner .middle true))),
    .poll openSocket 0 .starter,
    .begin openSocket 0 (.holder 0) .fixSuccessors,
    .receive openSocket Contact.middle.endpoint
      (Wire.pack (.new 1 (.successors [.late, .early]))),
    .poll openSocket 0 (.holder 0) ]

/-- Then a cycle begins, and its probe waits. -/
def oneCycle : List Event := prelude ++ [.begin openSocket 0 (.holder 1) .stabilize]

/-- Then two cycles begin, and `middle` answers neither probe. The first has run out of
    time, and the second has been sent after it. -/
def twoCycles : List Event :=
  oneCycle ++
    [ .begin openSocket 0 (.holder 2) .stabilize,
      .poll openSocket 1000 (.holder 1),
      .poll openSocket 1000 (.holder 2) ]

theorem middle_pays_for_itself :
    (bound hasty .early 0).Orderly oneCycle ∧
      ((bound hasty .early 0).live oneCycle).1.line =
        [⟨.holder 1, .probe .middle, some ⟨2, 1000⟩⟩] ∧
      ((bound hasty .early 0).live oneCycle).1.view.successor = .middle ∧
      (((bound hasty .early 0).live oneCycle).1.poll openSocket 1000 (.holder 1)).1.view =
        ((bound hasty .early 0).live oneCycle).1.view.missed hasty.failureThreshold := by
  have horderly : (bound hasty .early 0).Orderly oneCycle := by decide +kernel
  have hline : ((bound hasty .early 0).live oneCycle).1.line =
      [⟨.holder 1, .probe .middle, some ⟨2, 1000⟩⟩] := by decide +kernel
  rcases (charged_of_orderly hasty .early 0 oneCycle horderly).2 _ _ _ _ hline openSocket 1000
    (Nat.le_refl 1000) with ⟨hsucc, hcharged⟩
  exact ⟨horderly, hline, hsucc.symm, hcharged⟩

/-- The second probe was of `middle`, but `late` is the successor by the time it fails,
    and it is `late` that is given up. -/
theorem late_pays_for_middle :
    let n := ((bound hasty .early 0).live twoCycles).1
    let m := (n.poll openSocket 2000 (.holder 2)).1
    n.line.head? = some ⟨.holder 2, .probe .middle, some ⟨4, 2000⟩⟩ ∧
      n.view.successor = .late ∧ n.view.successors = [.late] ∧
      m.view.successor = .early ∧ m.view.successors = [.early] := by
  decide +kernel

end Node

end RingOverlay
