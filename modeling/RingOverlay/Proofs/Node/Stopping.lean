import RingOverlay.Proofs.Node.History

/-!
# What Stops a Node

A node that runs stops for one of four reasons: somebody stops it, its socket refuses
an answer, its own upkeep fails in a way that is fatal, or whoever starts it fails to.
Once it has been started, nothing that peers send or keep to themselves is among them,
for the faults that are fatal are those of the socket: every other fault ends the one
task it was met in.

A task that a holder of the node began is not among them either, however it fails. The
same refusal by the same socket stops the node when its upkeep meets it and leaves it
running when a holder does.

The argument follows the functions of a node. Each of them leaves the node running
unless one of its effects says otherwise, its effects end the task of no other caller,
and if that task ends in a fatal fault then the socket has refused what the fault says.

## Main definitions

* `Effect.stops`: The ends of tasks that stop a node.
* `Refusals.Explains`: The faults that a socket accounts for.
* `Event.refusals`, `Event.caller?`: What an event says about the socket, and whose
  turn it is.
* `Node.Halts`: The four reasons.
* `Node.Concludes`: What comes of a caller's turn.

## Theorems

* `harmless_begin`, `harmless_resume`: No turn ends in a fault of the socket.
* `concludes_happen`: Every event that is a caller's turn.
* `stopped_happen`: A node is stopped by an event if and only if the event halts it.
* `running_of_holder`: A task that a holder began never stops it.
* `stopped_iff`: A node is stopped if and only if something in its history halted it.
* `refused_holder_runs`: A fatal fault that ends a holder's task leaves the node
  running.
-/

namespace RingOverlay

/-- The end of a task that stops the node. -/
def Effect.stops : Effect → Bool
  | .finish c outcome => Node.stopsOn c outcome
  | _ => false

/-- What the socket refuses to send while an event takes place. -/
def Event.refusals : Event → Refusals
  | .begin refuses _ _ _ | .poll refuses _ _ | .receive refuses _ _ => refuses
  | .stop => fun _ _ => none

/-- A fault that says what the socket refuses: a question or a claim that was to be sent. -/
def Refusals.Explains (refuses : Refusals) (f : Fault) : Prop :=
  ∃ dest m reason, f = .send dest reason ∧ m.body.isAnswer = false ∧
    refuses dest (Wire.pack m) = some reason

/-- Whose turn an event is, if it is a caller's. -/
def Event.caller? : Event → Option Caller
  | .begin _ _ c _ | .poll _ _ c => some c
  | .receive _ _ _ | .stop => none

section Turns

/-- A turn that ends the task in no fatal fault. -/
def Turn.Harmless (t : Turn) : Prop :=
  ∀ f, t.next = .finish (.failed f) → f.isFatal = false

variable {v : View} {f : Fault}

theorem harmless_finish (v : View) {outcome : Outcome}
    (h : ∀ f, outcome = .failed f → f.isFatal = false) :
    ({ view := v, next := .finish outcome } : Turn).Harmless := by
  intro f hf
  cases hf
  exact h f rfl

theorem harmless_ask (v : View) (q : Question) :
    ({ view := v, next := .ask q } : Turn).Harmless := by
  intro f hf
  cases hf

theorem harmless_approach (v : View) (total : Nat) (alone : Bool) (untried : List Endpoint) :
    (approach v total alone untried).Harmless := by
  cases untried with
  | nil =>
      simp only [approach]
      split_ifs
      · exact harmless_finish v fun f hf => by cases hf
      · exact harmless_finish v fun f hf => by
          cases hf
          rfl
  | cons e rest => exact harmless_ask v _

theorem harmless_succeed (v : View) (p : Purpose) (c : Contact) :
    (p.succeed v c).Harmless := by
  cases p <;> exact harmless_finish _ fun f hf => by cases hf

theorem harmless_fail (v : View) (p : Purpose) (h : f.isFatal = false) :
    (p.fail v f).Harmless := by
  cases p with
  | report =>
      exact harmless_finish v fun g hg => by
        cases hg
        exact h
  | finger slot => exact harmless_finish v fun g hg => by cases hg
  | enter untried total alone => exact harmless_approach v total alone untried

theorem harmless_seek (v : View) (id : Id) (p : Purpose) : (seek v id p).Harmless := by
  rcases seek_cases v id p with ⟨c, _, h⟩ | ⟨c, _, h⟩ <;> rw [h]
  · exact harmless_succeed v p c
  · exact harmless_ask v _

-- Whatever is wrong with an answer to a lookup is the fault of whoever gave it.
theorem isFatal_of_judge {id : Id} {asked : Endpoint} {answer : Option Reply}
    (h : judge id asked answer = .failed f) : f.isFatal = false := by
  cases answer with
  | none =>
      cases h
      rfl
  | some r =>
      simp only [judge] at h
      split_ifs at h <;> cases h <;> rfl

theorem harmless_hop (h : Hop) (v : View) (answer : Option Reply) :
    (h.resume v answer).Harmless := by
  unfold Hop.resume
  cases hjudge : judge h.id h.asked answer with
  | found c => exact harmless_succeed v h.purpose c
  | onward next =>
      cases h.left with
      | zero => exact harmless_fail v h.purpose rfl
      | succ left => exact harmless_ask v _
  | failed f =>
      have hf := isFatal_of_judge hjudge
      cases answer with
      | some r => exact harmless_fail v h.purpose hf
      | none =>
          cases h.atStart with
          | none => exact harmless_fail v h.purpose hf
          | some c => exact harmless_fail (v.forget c) h.purpose hf

theorem harmless_introduce (v : View) : (introduce v).Harmless := by
  intro f hf
  simp only [introduce, askList] at hf
  split_ifs at hf
  cases hf

/-- The first turn of a task ends in no fault of the socket. -/
theorem harmless_begin (v : View) (t : Task) : (t.begin v).Harmless := by
  cases t with
  | find id => exact harmless_seek v id .report
  | fixFinger => exact harmless_seek v.advance _ _
  | enter through alone => exact harmless_approach v through.length alone through
  | stabilize =>
      intro f hf
      simp only [Task.begin] at hf
      split_ifs at hf
      cases hf
  | fixSuccessors =>
      intro f hf
      simp only [Task.begin, askList] at hf
      split_ifs at hf
      cases hf
  | checkPredecessor =>
      intro f hf
      simp only [Task.begin] at hf
      cases hp : v.predecessor <;> rw [hp] at hf <;> cases hf

/-- Nor does the turn after a question, whatever came of it. -/
theorem harmless_resume (s : Settings) (v : View) (q : Question) (answer : Option Reply) :
    (q.resume s v answer).Harmless := by
  have hdone (w : View) : ({ view := w, next := .finish .done } : Turn).Harmless :=
    harmless_finish w fun f hf => by cases hf
  cases q with
  | hop h => exact harmless_hop h v answer
  | probe c => cases answer <;> exact harmless_introduce _
  | list c => cases answer <;> exact hdone _
  | pulse c => cases answer <;> exact hdone _

end Turns

namespace Node

/-- What comes of a caller's turn: the node runs on unless one of the effects stops it,
    no task but the caller's has ended, and it has ended in a fatal fault only if the
    socket refused to send. -/
structure Concludes (refuses : Refusals) (c : Caller) (n : Node) (r : Node × List Effect) :
    Prop where
  running : r.1.running = (n.running && !r.2.any Effect.stops)
  caller : ∀ d outcome, Effect.finish d outcome ∈ r.2 → d = c
  fatal : ∀ d f, Effect.finish d (.failed f) ∈ r.2 → f.isFatal = true → refuses.Explains f

section Callers

variable {refuses : Refusals} {c : Caller} {n m : Node} {effects : List Effect}

theorem finish_notMem_callHead (line : List Ticket) (d : Caller) (outcome : Outcome) :
    Effect.finish d outcome ∉ callHead line := by
  cases line <;> simp [callHead]

-- Only the end of a task can stop a node.
theorem any_stops_of_quiet (h : ∀ d outcome, Effect.finish d outcome ∉ effects) :
    effects.any Effect.stops = false := by
  refine List.any_eq_false.mpr fun x hx => ?_
  cases x with
  | finish d outcome => exact absurd hx (h d outcome)
  | send dest a => exact Bool.false_ne_true
  | wake d => exact Bool.false_ne_true

theorem Concludes.of_quiet (hr : m.running = n.running)
    (h : ∀ d outcome, Effect.finish d outcome ∉ effects) :
    Concludes refuses c n (m, effects) where
  running := by
    rw [any_stops_of_quiet h, Bool.not_false, Bool.and_true, hr]
  caller := fun d outcome hd => absurd hd (h d outcome)
  fatal := fun d f hd => absurd hd (h d _)

theorem Concludes.congr {r : Node × List Effect} (h : Concludes refuses c m r)
    (hr : m.running = n.running) : Concludes refuses c n r where
  running := by rw [h.running, hr]
  caller := h.caller
  fatal := h.fatal

theorem Concludes.prepend {r : Node × List Effect} (h : Concludes refuses c n r)
    (hquiet : ∀ d outcome, Effect.finish d outcome ∉ effects) :
    Concludes refuses c n (r.1, effects ++ r.2) := by
  have hlater {d : Caller} {outcome : Outcome}
      (hd : Effect.finish d outcome ∈ effects ++ r.2) : Effect.finish d outcome ∈ r.2 :=
    (List.mem_append.mp hd).resolve_left (hquiet d outcome)
  refine ⟨?_, fun d outcome hd => h.caller d outcome (hlater hd),
    fun d f hd => h.fatal d f (hlater hd)⟩
  rw [h.running, List.any_append, any_stops_of_quiet hquiet, Bool.false_or]

theorem concludes_conclude (n : Node) (c : Caller) {outcome : Outcome}
    (h : ∀ f, outcome = .failed f → f.isFatal = true → refuses.Explains f) :
    Concludes refuses c n (n.conclude c outcome) where
  running := by
    simp only [conclude, List.any_cons, List.any_nil, Bool.or_false, Effect.stops]
  caller := fun d o hd => by
    cases List.mem_singleton.mp hd
    rfl
  fatal := fun d f hd hf => by
    cases List.mem_singleton.mp hd
    exact h f rfl hf

theorem concludes_refused (n : Node) (c : Caller) {dest : Endpoint} {a : Message}
    {reason : Errno} (ha : a.body.isAnswer = false) (h : refuses dest (Wire.pack a) = some reason) :
    Concludes refuses c n (n.conclude c (.failed (.send dest reason))) :=
  concludes_conclude n c fun f hf _ => by
    cases hf
    exact ⟨dest, a, reason, rfl, ha, h⟩

theorem concludes_launch (refuses : Refusals) (now : Nat) (n : Node) (c : Caller) (q : Question)
    (waiting : List Ticket) : Concludes refuses c n (n.launch refuses now c q waiting) := by
  cases hsend : refuses q.target (Wire.pack (.new n.nextSeq q.body)) with
  | none =>
      simp only [launch, dispatch, hsend]
      refine .of_quiet rfl fun d outcome hd => ?_
      cases List.mem_singleton.mp hd
  | some reason =>
      simp only [launch, dispatch, hsend]
      exact .prepend (.congr (n := n) (concludes_refused _ c q.isAnswer_body hsend) rfl)
        (finish_notMem_callHead waiting)

theorem concludes_proceed (refuses : Refusals) (now : Nat) (n : Node) (c : Caller) {turn : Turn}
    (h : turn.Harmless) : Concludes refuses c n (n.proceed refuses now c turn.next) := by
  cases hnext : turn.next with
  | finish outcome =>
      refine concludes_conclude n c fun f hf hfatal => ?_
      rw [h f (by rw [hnext, hf])] at hfatal
      cases hfatal
  | ask q =>
      cases hline : n.line with
      | nil =>
          simp only [proceed, hline]
          exact concludes_launch refuses now n c q []
      | cons t rest =>
          simp only [proceed, hline]
          exact .of_quiet rfl fun d outcome => List.not_mem_nil

theorem concludes_follow (refuses : Refusals) (now : Nat) (n : Node) (c : Caller) {turn : Turn}
    (h : turn.Harmless) : Concludes refuses c n (n.follow refuses now c turn) := by
  cases hclaim : turn.claim with
  | none =>
      simp only [follow, hclaim]
      exact (concludes_proceed refuses now _ c h).congr rfl
  | some dest =>
      cases hsend : refuses dest (Wire.pack (.new n.nextSeq (.claim turn.view.me))) with
      | some reason =>
          simp only [follow, hclaim, dispatch, hsend]
          exact (concludes_refused _ c rfl hsend).congr rfl
      | none =>
          have hlater := concludes_proceed refuses now
            { n with view := turn.view, nextSeq := n.nextSeq + 1 } c h
          have hclaimed (d : Caller) (outcome : Outcome) : Effect.finish d outcome ∉
              [Effect.send dest (.new n.nextSeq (.claim turn.view.me))] := fun hd => by
            cases List.mem_singleton.mp hd
          simp only [follow, hclaim, dispatch, hsend]
          exact .prepend (.congr (n := n) hlater rfl) hclaimed

theorem concludes_resolve (refuses : Refusals) (now : Nat) (n : Node) (t : Ticket)
    (waiting : List Ticket) (answer : Option Reply) :
    Concludes refuses t.caller n (n.resolve refuses now t waiting answer) :=
  have hturn := concludes_follow refuses now { n with line := waiting } t.caller
    (harmless_resume n.settings n.view t.question answer)
  .prepend (.congr (n := n) hturn rfl) (finish_notMem_callHead waiting)

theorem concludes_poll (refuses : Refusals) (now : Nat) (n : Node) (c : Caller) :
    Concludes refuses c n (n.poll refuses now c) := by
  have h := polls_poll refuses now n c
  generalize n.poll refuses now c = r at h ⊢
  cases h with
  | turnedAway => exact .of_quiet rfl fun d outcome => List.not_mem_nil
  | sends => exact concludes_launch refuses now n c _ _
  | lapses => exact concludes_resolve refuses now n ⟨c, _, _⟩ _ none
  | @finds q f waiting r rest h =>
      exact .congr (n := n)
        (concludes_resolve refuses now { n with inbox := rest } ⟨c, q, some f⟩ waiting (some r)) rfl
  | waits => exact .of_quiet rfl fun d outcome => List.not_mem_nil

/-- Only a caller's turn ends a task. -/
theorem exists_caller_of_finish {e : Event} {d : Caller} {outcome : Outcome}
    (h : .finish d outcome ∈ (n.happen e).2) : ∃ c, e.caller? = some c := by
  cases e with
  | begin refuses now c t => exact ⟨c, rfl⟩
  | poll refuses now c => exact ⟨c, rfl⟩
  | stop => cases h
  | receive refuses sender datagram =>
      have hr := receives_receive refuses n sender datagram
      simp only [happen] at h
      generalize n.receive refuses sender datagram = r at hr h
      cases hr with
      | delivers => exact absurd h (finish_notMem_callHead n.line d outcome)
      | answers => cases List.mem_singleton.mp h
      | _ => cases h

/-- Every event that is a caller's turn. -/
theorem concludes_happen {e : Event} (h : e.caller? = some c) :
    Concludes e.refusals c n (n.happen e) := by
  cases e with
  | begin refuses now d t =>
      cases h
      exact concludes_follow refuses now n c (harmless_begin n.view t)
  | poll refuses now d =>
      cases h
      exact concludes_poll refuses now n c
  | receive refuses sender datagram => cases h
  | stop => cases h

end Callers

/-- What stops a node that runs: it is told to, its socket refuses an answer, a fatal
    fault ends a task of its own upkeep, or any fault the task of whoever starts it. -/
def Halts (n : Node) (e : Event) : Prop :=
  match e with
  | .stop => True
  | .receive refuses sender datagram =>
    ∃ m body reason, Wire.unpack datagram = .ok m ∧
      (n.view.heard m.body).answer? m.body = some body ∧
        refuses sender (Wire.pack (m.answer body)) = some reason
  | .begin _ _ c _ | .poll _ _ c =>
    ∃ f, .finish c (.failed f) ∈ (n.happen e).2 ∧
      (c = .starter ∨ c = .upkeep ∧ f.isFatal = true)

section Runs

variable {n : Node} {c : Caller} {e : Event}

theorem stopsOn_iff {outcome : Outcome} :
    stopsOn c outcome = true ↔
      ∃ f, outcome = .failed f ∧ (c = .starter ∨ c = .upkeep ∧ f.isFatal = true) := by
  cases c <;> cases outcome <;> simp [stopsOn]

/-- A caller's turn stops a node if and only if it ends the caller's task with a fault
    that does. -/
theorem Concludes.stopped {r : Node × List Effect} {refuses : Refusals}
    (h : Concludes refuses c n r) :
    r.1.running = false ↔ n.running = false ∨
      ∃ f, Effect.finish c (.failed f) ∈ r.2 ∧ (c = .starter ∨ c = .upkeep ∧ f.isFatal = true) := by
  have hany : r.2.any Effect.stops = true ↔
      ∃ f, Effect.finish c (.failed f) ∈ r.2 ∧
        (c = .starter ∨ c = .upkeep ∧ f.isFatal = true) := by
    rw [List.any_eq_true]
    constructor
    · rintro ⟨x, hx, hstops⟩
      cases x with
      | finish d outcome =>
          rcases h.caller d outcome hx with rfl
          rcases stopsOn_iff.mp hstops with ⟨f, rfl, hf⟩
          exact ⟨f, hx, hf⟩
      | send dest a => cases hstops
      | wake d => cases hstops
    · rintro ⟨f, hf, hwho⟩
      exact ⟨_, hf, stopsOn_iff.mpr ⟨f, rfl, hwho⟩⟩
  rw [h.running, Bool.and_eq_false_iff, Bool.not_eq_false', hany]

/-- A node is stopped by an event if and only if the event halts it. -/
theorem stopped_happen (n : Node) (e : Event) :
    (n.happen e).1.running = false ↔ n.running = false ∨ n.Halts e := by
  cases e with
  | begin refuses now c t => exact (concludes_happen rfl).stopped
  | poll refuses now c => exact (concludes_happen rfl).stopped
  | stop => exact ⟨fun _ => Or.inr trivial, fun _ => rfl⟩
  | receive refuses sender datagram =>
      have h := receives_receive refuses n sender datagram
      simp only [happen, Halts]
      generalize n.receive refuses sender datagram = r at h ⊢
      cases h with
      | deaf h => simp [h]
      | garbled hread => simp [hread]
      | delivers hread hm => simp [hread, answer_of_isAnswer hm]
      | overflows hread hm => simp [hread, answer_of_isAnswer hm]
      | notes hread hm hnone => simp [hread, hnone]
      | answers hread hbody hsend => simp [hread, hbody, hsend]
      | halts hread hbody hsend => simp [hread, hbody, hsend]

/-- A task that a holder began never stops the node, however it ends. -/
theorem running_of_holder {k : Nat} (h : e.caller? = some (.holder k)) :
    (n.happen e).1.running = n.running := by
  have hkeeps : ¬ n.Halts e := by
    cases e with
    | begin refuses now c t | poll refuses now c =>
        cases h
        rintro ⟨f, _, hc | ⟨hc, _⟩⟩ <;> cases hc
    | receive refuses sender datagram => cases h
    | stop => cases h
  rw [Bool.eq_iff_iff, ← Bool.not_eq_false, ← Bool.not_eq_false, stopped_happen,
    or_iff_left hkeeps]

/-- A node that was not stopped to begin with is stopped if and only if something in
    its history halted it. -/
theorem stopped_live (n : Node) (events : List Event) :
    (n.live events).1.running = false ↔ n.running = false ∨
      ∃ past e future, events = past ++ e :: future ∧ (n.live past).1.Halts e := by
  induction events generalizing n with
  | nil => simp [live]
  | cons e rest ih =>
      rw [live_cons, ih, stopped_happen, or_assoc]
      refine or_congr_right ⟨?_, ?_⟩
      · rintro (h | ⟨past, later, future, rfl, h⟩)
        · exact ⟨[], e, rest, rfl, h⟩
        · exact ⟨e :: past, later, future, rfl, h⟩
      · rintro ⟨past, later, future, heq, h⟩
        rcases List.cons_eq_append_iff.mp heq with ⟨rfl, htail⟩ | ⟨past, rfl, rfl⟩
        · cases htail
          exact Or.inl h
        · exact Or.inr ⟨past, later, future, rfl, h⟩

end Runs

/-- A node is stopped if and only if something in its history halted it: from then on,
    and not before. A fault that ends a task ends the task whose turn it was, and a fatal
    one says what the socket refuses to send in that very turn. So a node that has been
    started, is not told to stop and has a socket that refuses nothing runs for ever,
    whatever its peers do. -/
theorem stopped_iff (s : Settings) (me : Contact) (firstSeq : UInt64) (events : List Event) :
    let start := bound s me firstSeq
    ((start.live events).1.running = false ↔
      ∃ past e future, events = past ++ e :: future ∧ (start.live past).1.Halts e) ∧
    ∀ past e future, events = past ++ e :: future →
      ∀ c f, .finish c (.failed f) ∈ ((start.live past).1.happen e).2 →
        e.caller? = some c ∧ (f.isFatal = true → e.refusals.Explains f) := by
  intro start
  refine ⟨?_, fun past e future _ c f hf => ?_⟩
  · rw [stopped_live]
    exact or_iff_right Bool.noConfusion
  · rcases exists_caller_of_finish hf with ⟨d, hd⟩
    have hturn := concludes_happen (n := (start.live past).1) hd
    rcases hturn.caller c _ hf with rfl
    exact ⟨hd, hturn.fatal c f hf⟩

/-- A socket without a network: it sends nothing to anybody. -/
def muteSocket : Refusals := fun _ _ => some ⟨101⟩

/-- A holder's task ends in a fatal fault, and the node runs on. The same task stops
    the node when its own upkeep began it. -/
theorem refused_holder_runs :
    let start := bound {} .early 0
    let fault := Fault.send Contact.early.endpoint ⟨101⟩
    fault.isFatal = true ∧
      start.live [.begin muteSocket 0 (.holder 0) .stabilize] =
        ({ start with nextSeq := 1 }, [.finish (.holder 0) (.failed fault)]) ∧
      (start.live [.begin muteSocket 0 (.holder 0) .stabilize]).1.running = true ∧
      (start.live [.begin muteSocket 0 .upkeep .stabilize]).1.running = false := by
  intro start fault
  have hruns : (start.happen (.begin muteSocket 0 (.holder 0) .stabilize)).1.running =
      start.running := running_of_holder rfl
  exact ⟨rfl, by decide +kernel, hruns, by decide +kernel⟩

end Node

end RingOverlay
