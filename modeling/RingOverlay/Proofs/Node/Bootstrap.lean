import RingOverlay.Proofs.Lookup.Attempts
import RingOverlay.Proofs.Node.Joining
import RingOverlay.Proofs.Node.Stopping

/-!
# The Start of a Node

A node that has been bound is started through a list of endpoints. It tries them in order,
by a lookup of its own key through each, until one of the lookups finds an owner or the
socket fails; what other faults the lookups meet is of no account. A start that finds an
owner follows it. One that finds none and is not stopped by the socket founds a ring of its
own if it may, or if there was nobody to try, and otherwise fails and says how many there
were. A start that has failed has stopped its node.

All that is known about those who are asked is what arrives, and the start has no say in
when that is. So the statement is about every history in which the starter gets its chance
to go on and datagrams arrive, whatever they hold: the inquiries that have been made in it
are always those of some attempts in order, none but the last of which decides, and perhaps
the first few of one more. `Stage` says this of a node and of all that it has done so far.
Every turn of the starter leads from stage to stage, and so does everything that takes no
turn, since a claim is all that anybody can do to the view in the meantime.

That a start returns is a matter of counting. Each time that its question has run out of
time and the starter gets its chance to go on, there is one inquiry more, and a lookup through
each endpoint cannot make more than so many.

## Main definitions

* `View.Fresh`: A view that holds nobody but the node and its successor.
* `Node.inquiries`: What comes of the inquiries of a start in the course of a history.
* `Node.lapsed`: How often the starter goes on after its time was up.
* `Node.Account`: What a start has come to so far, seen from outside.
* `Node.Underway`, `Node.Stage`: How far it has got.

## Theorems

* `stage_launch`, `stage_approach`, `stage_resume`: What the turns of a start lead to.
* `stage_receive`, `stage_poll`: What an event leads to.
* `stage_live`: Every history leads from stage to stage.
* `lapsed_le`, `Underway.length_lt`: A start that has not returned has not made as many
  inquiries as it could.
* `start_by_attempts`: What becomes of a start, by its attempts.
-/

namespace RingOverlay

/-- A view that holds nobody but the node and its successor, whoever comes before it. -/
structure View.Fresh (me c : Contact) (v : View) : Prop where
  me : v.me = me
  successor : v.successor = c
  successors : v.successors = [c]
  fingers : ∀ slot, v.finger slot = Contact.unset
  cursor : v.cursor = slotCount - 1
  misses : v.misses = 0

theorem View.fresh_joined (me c : Contact) : (View.joined me c).Fresh me c :=
  ⟨rfl, rfl, rfl, fun slot => Vector.getElem_replicate slot.isLt, rfl, rfl⟩

theorem View.Fresh.claimed {me c : Contact} {v : View} (h : v.Fresh me c) (cs : List Contact) :
    (v.claimed cs).Fresh me c := by
  rw [View.claimed_eq]
  exact ⟨h.me, h.successor, h.successors, h.fingers, h.cursor, h.misses⟩

/-- A question that goes out, and where to. -/
def Effect.question? : Effect → Option (Endpoint × Body)
  | .send dest m => if m.body.isAnswer then none else some (dest, m.body)
  | .wake _ | .finish _ _ => none

/-- What is returned to whoever starts the node. -/
def Effect.returned? : Effect → Option Outcome
  | .finish .starter outcome => some outcome
  | _ => none

/-- The inquiry that is over before it began, since the socket refuses to send the question
    under its number. -/
def Next.refused (refuses : Refusals) (seq : UInt64) : Next → List Inquiry
  | .ask q =>
    ((refuses q.target (Wire.pack (.new seq q.body))).map fun reason =>
      ⟨q.target, .refused reason⟩).toList
  | .finish _ => []

namespace Node

/-- The inquiries that an event brings to their end, for a caller that makes no claims and
    that nobody else waits behind: that of the question under way, and that of the next one
    if it cannot be sent. -/
def inquired (n : Node) (e : Event) : List Inquiry :=
  match n.resumed e, e with
  | some (q, answer), _ =>
    ⟨q.target, .ofAnswer answer⟩ ::
      (q.resume n.settings n.view answer).next.refused e.refusals n.nextSeq
  | none, .begin refuses _ _ t => (t.begin n.view).next.refused refuses n.nextSeq
  | none, _ => []

/-- The inquiries that a history brings to their end. -/
def inquiries (n : Node) : List Event → List Inquiry
  | [] => []
  | e :: rest => n.inquired e ++ (n.happen e).1.inquiries rest

/-- A caller gets its chance to go on when the time of its question is up. -/
def lapses (n : Node) : Event → Bool
  | .poll _ now c => n.isOverdue now c
  | _ => false

/-- How often that is in the course of a history. -/
def lapsed (n : Node) : List Event → Nat
  | [] => 0
  | e :: rest => (if n.lapses e then 1 else 0) + (n.happen e).1.lapsed rest

/-- What a start has come to so far, seen from outside: whom the node follows, what has been
    returned, and where the node has asked for the owner of its own key. Nothing else has been
    asked. -/
structure Account (me c : Contact) (r : Node × List Effect) (outcomes : List Outcome)
    (dests : List Endpoint) : Prop where
  view : r.1.view.Fresh me c
  returned : r.2.filterMap Effect.returned? = outcomes
  sent : r.2.filterMap Effect.question? = dests.map fun dest => (dest, .askOwner me.key)

/-- A lookup through an endpoint after some attempts in vain, and the question that it has
    come to. -/
structure Underway (me : Contact) (through : List Endpoint) (alone : Bool)
    (vain : List Attempt) (e : Endpoint) (rest : List Endpoint) (xs : List Inquiry) (h : Hop) :
    Prop where
  tried : Vain me.key vain
  order : through = vain.map Attempt.through ++ e :: rest
  onward : Onward e xs h.asked
  count : xs.length + h.left + 1 = hopLimit
  hop : h = ⟨me.key, h.asked, h.left, none, .enter rest through.length alone⟩

/-- How far a start has got with its inquiries: a lookup is under way, and its question has
    been sent, or all is over. -/
inductive Stage (me : Contact) (through : List Endpoint) (alone : Bool) :
    Node × List Effect → List Inquiry → Prop where
  | asking {r : Node × List Effect} {vain : List Attempt} {e : Endpoint} {rest : List Endpoint}
      {xs log : List Inquiry} {h : Hop} {f : Flight}
      (hunder : Underway me through alone vain e rest xs h)
      (hlog : log = vain.flatMap Attempt.inquiries ++ xs)
      (hline : r.1.line = [⟨.starter, .hop h, some f⟩])
      (haccount : Account me me r [] (log.filterMap Inquiry.sent? ++ [h.asked])) :
      Stage me through alone r log
  | ended {r : Node × List Effect} {attempts : List Attempt} {log : List Inquiry} {c : Contact}
      {outcome : Outcome} (hreturns : Returns me through alone attempts c outcome)
      (hlog : log = attempts.flatMap Attempt.inquiries) (hline : r.1.line = [])
      (haccount : Account me c r [outcome] (log.filterMap Inquiry.sent?))
      (hhalted : ∀ f, outcome = .failed f → r.1.running = false) :
      Stage me through alone r log

section Turns

variable {me c : Contact} {through : List Endpoint} {alone : Bool} {n m : Node}
  {effects more : List Effect} {vain : List Attempt} {e : Endpoint} {rest : List Endpoint}
  {xs log : List Inquiry} {h : Hop} {dests : List Endpoint} {outcomes : List Outcome}

theorem Account.append (hd : Account me c (n, effects) outcomes dests) {d : Contact}
    {outcomes' : List Outcome} {dests' : List Endpoint}
    (hmore : Account me d (m, more) outcomes' dests') :
    Account me d (m, effects ++ more) (outcomes ++ outcomes') (dests ++ dests') where
  view := hmore.view
  returned := by rw [List.filterMap_append, hd.returned, hmore.returned]
  sent := by rw [List.filterMap_append, hd.sent, hmore.sent, List.map_append]

theorem Account.congr (hd : Account me c (n, effects) outcomes dests) (hview : m.view = n.view) :
    Account me c (m, effects) outcomes dests :=
  ⟨hview ▸ hd.view, hd.returned, hd.sent⟩

-- A start that ends: what it returns is the last that it does.
theorem stage_conclude {attempts : List Attempt} {outcome : Outcome}
    (hreturns : Returns me through alone attempts c outcome) (hline : n.line = [])
    (hlog : log = attempts.flatMap Attempt.inquiries)
    (hd : Account me c (n, effects) [] (log.filterMap Inquiry.sent?)) :
    let r := n.conclude .starter outcome
    Stage me through alone (r.1, effects ++ r.2) log := by
  have hended : Account me c (n.conclude .starter outcome) [outcome] [] := ⟨hd.view, rfl, rfl⟩
  have haccount := hd.append hended
  rw [List.append_nil] at haccount
  refine .ended hreturns hlog hline haccount fun f hf => ?_
  rw [hf]
  simp only [conclude, stopsOn, Bool.not_true, Bool.and_false]

-- A lookup that has come to something is one attempt more.
theorem flatMap_concat_attempt (vain : List Attempt) (a : Attempt) :
    (vain ++ [a]).flatMap Attempt.inquiries = vain.flatMap Attempt.inquiries ++ a.inquiries := by
  rw [List.flatMap_append, List.flatMap_singleton]

-- The lookup that is under way starts at the next endpoint in order.
theorem Underway.isPrefix (hu : Underway me through alone vain e rest xs h) :
    vain.map Attempt.through ++ [e] <+: through := by
  rw [hu.order]
  exact (List.prefix_append_right_inj _).mpr (List.prefix_append [e] rest)

-- The next question of a lookup goes out, or the socket refuses it and the start has failed.
theorem stage_launch (refuses : Refusals) (now : Nat)
    (hu : Underway me through alone vain e rest xs h)
    (hlog : log = vain.flatMap Attempt.inquiries ++ xs)
    (hd : Account me me (n, effects) [] (log.filterMap Inquiry.sent?)) :
    let r := n.launch refuses now .starter (.hop h) []
    Stage me through alone (r.1, effects ++ r.2)
      (log ++ (Next.ask (.hop h)).refused refuses n.nextSeq) := by
  cases hsend : refuses h.asked (Wire.pack (.new n.nextSeq (Question.hop h).body)) with
  | none =>
      have hid : h.id = me.key := congrArg Hop.id hu.hop
      simp only [launch, dispatch, Question.target, Next.refused, hsend, Option.map_none,
        Option.toList_none, List.append_nil]
      have hasked (sent : Flight) : Account me me
          ({ n with
              nextSeq := n.nextSeq + 1, inbox := [], line := [⟨.starter, .hop h, some sent⟩] },
            [.send h.asked (.new n.nextSeq (.askOwner me.key))]) [] [h.asked] :=
        ⟨hd.view, rfl, rfl⟩
      simp only [Question.body, hid]
      exact .asking hu hlog rfl (hd.append (hasked _))
  | some reason =>
      let x : Inquiry := ⟨h.asked, .refused reason⟩
      have hcame : CameTo me.key e (xs ++ [x]) (.error (.send h.asked reason)) :=
        .ended hu.onward (by have := hu.count; omega) (.refused reason)
      have hunsent : (log ++ [x]).filterMap Inquiry.sent? = log.filterMap Inquiry.sent? := by
        rw [List.filterMap_append]
        exact List.append_nil _
      simp only [launch, dispatch, Question.target, Next.refused, hsend, Option.map_some,
        Option.toList_some]
      refine stage_conclude (.failed hu.tried hcame rfl hu.isPrefix) rfl ?_ ?_
      · rw [flatMap_concat_attempt, hlog, List.append_assoc]
      · rw [hunsent]
        exact hd.congr rfl

/-- The start goes on to the first endpoint that is left, if one is. -/
theorem stage_approach (refuses : Refusals) (now : Nat) (hv : Vain me.key vain)
    (horder : through = vain.map Attempt.through ++ rest) (hline : n.line = [])
    (hlog : log = vain.flatMap Attempt.inquiries)
    (hd : Account me me (n, effects) [] (log.filterMap Inquiry.sent?)) :
    let turn := approach n.view through.length alone rest
    let r := n.follow refuses now .starter turn
    Stage me through alone (r.1, effects ++ r.2) (log ++ turn.next.refused refuses n.nextSeq) := by
  cases rest with
  | nil =>
      have hall : vain.map Attempt.through = through := by rw [horder, List.append_nil]
      have hzero : (alone || decide (through.length = 0)) = true ↔ alone = true ∨ through = [] := by
        rw [Bool.or_eq_true, decide_eq_true_iff, List.length_eq_zero_iff]
      simp only [approach, hzero]
      split_ifs with halone <;> simp only [follow, proceed, Next.refused, List.append_nil]
      · exact stage_conclude (.founded hv hall halone) hline hlog hd
      · exact stage_conclude (.gaveUp hv hall halone) hline hlog hd
  | cons e rest =>
      have hkey : n.view.key = me.key := congrArg Contact.key hd.view.me
      have hu : Underway me through alone vain e rest []
          ⟨n.view.key, e, hopLimit - 1, none, .enter rest through.length alone⟩ :=
        ⟨hv, horder, .here, rfl, by rw [hkey]⟩
      simp only [approach, follow, proceed, hline]
      exact stage_launch refuses now hu (by rw [hlog, List.append_nil]) (hd.congr rfl)

-- A lookup that has failed is an attempt in vain, and the next endpoint has its turn.
theorem stage_fail (refuses : Refusals) (now : Nat) {f : Fault}
    (hu : Underway me through alone vain e rest xs h) {ys : List Inquiry}
    (hcame : CameTo me.key e ys (.error f)) (hf : f.isFatal = false) (hline : n.line = [])
    (hlog : log = vain.flatMap Attempt.inquiries ++ ys)
    (hd : Account me me (n, effects) [] (log.filterMap Inquiry.sent?)) :
    let turn := h.purpose.fail n.view f
    let r := n.follow refuses now .starter turn
    Stage me through alone (r.1, effects ++ r.2) (log ++ turn.next.refused refuses n.nextSeq) := by
  have hpurpose : h.purpose = .enter rest through.length alone := congrArg Hop.purpose hu.hop
  rw [hpurpose]
  refine stage_approach refuses now (hu.tried.concat hcame hf) ?_ hline ?_ hd
  · rw [hu.order, List.map_append, List.append_assoc]
    rfl
  · rw [flatMap_concat_attempt, hlog]

/-- What comes of an answer, or of its absence: the lookup asks the next node, or the start
    tries the next endpoint, or it has found its place. -/
theorem stage_resume (refuses : Refusals) (now : Nat) {answer : Option Reply}
    (hu : Underway me through alone vain e rest xs h) (hline : n.line = [])
    (hlog : log = vain.flatMap Attempt.inquiries ++ (xs ++ [⟨h.asked, .ofAnswer answer⟩]))
    (hd : Account me me (n, effects) [] (log.filterMap Inquiry.sent?)) :
    let turn := h.resume n.view answer
    let r := n.follow refuses now .starter turn
    Stage me through alone (r.1, effects ++ r.2) (log ++ turn.next.refused refuses n.nextSeq) := by
  have hid : h.id = me.key := congrArg Hop.id hu.hop
  have hstart : h.start = none := congrArg Hop.start hu.hop
  have hpurpose : h.purpose = .enter rest through.length alone := congrArg Hop.purpose hu.hop
  have hcount := hu.count
  have hlength (x : Inquiry) : (xs ++ [x]).length = xs.length + 1 := List.length_append
  rcases Response.passes_or_ends h.id h.asked (.ofAnswer answer) with hpass | ⟨finding, hends⟩
  · cases answer with
    | none => exact hpass.elim
    | some r =>
        have honward := Onward.next hu.onward hpass
        rw [resume_of_answer_passes n.view hpass]
        cases hleft : h.left with
        | zero =>
            rw [hid]
            exact stage_fail refuses now hu (.spent honward (by rw [hlength]; omega)) rfl hline
              hlog hd
        | succ left =>
            have hnext : Underway me through alone vain e rest (xs ++ [⟨h.asked, .reply r⟩])
                { h with asked := r.node.endpoint, left := left } :=
              ⟨hu.tried, hu.order, honward, by simp only [hlength]; omega, by rw [hu.hop]⟩
            simp only [follow, proceed, hline]
            exact stage_launch refuses now hnext hlog (hd.congr rfl)
  · have hcame : CameTo me.key e (xs ++ [⟨h.asked, .ofAnswer answer⟩]) finding :=
      .ended hu.onward (by omega) (hid ▸ hends)
    rw [resume_of_answer_ends n.view hends, hstart, View.cleared_none]
    cases finding with
    | ok c =>
        have hjoined : (View.joined n.view.me c).Fresh me c := hd.view.me ▸ View.fresh_joined me c
        simp only [hpurpose, Purpose.conclude, Purpose.succeed, follow, proceed, Next.refused,
          List.append_nil]
        refine stage_conclude (.joined hu.tried hcame hu.isPrefix) hline ?_
          ⟨hjoined, hd.returned, hd.sent⟩
        rw [flatMap_concat_attempt, hlog]
    | error f =>
        have hf := isFatal_of_answer_ends hends
        rw [conclude_of_not_fatal _ _ hf]
        exact stage_fail refuses now hu hcame hf hline hlog hd

end Turns

section Steps

variable {me c : Contact} {through : List Endpoint} {alone : Bool} {n m : Node}
  {effects more : List Effect} {log : List Inquiry} {e : Event}

-- What leaves the line as it is and the view but for a claim leaves a start where it is.
theorem Stage.keep (hs : Stage me through alone (n, effects) log) (hline : m.line = n.line)
    {cs : List Contact} (hview : m.view = n.view.claimed cs)
    (hrunning : n.running = false → m.running = false)
    (hreturned : more.filterMap Effect.returned? = [])
    (hsent : more.filterMap Effect.question? = []) :
    Stage me through alone (m, effects ++ more) log := by
  have hkeeps {d : Contact} {outcomes : List Outcome} {dests : List Endpoint}
      (hd : Account me d (n, effects) outcomes dests) :
      Account me d (m, effects ++ more) outcomes dests := by
    have hquiet : Account me d (m, more) [] [] := ⟨hview ▸ hd.view.claimed cs, hreturned, hsent⟩
    have hall := hd.append hquiet
    rwa [List.append_nil, List.append_nil] at hall
  cases hs with
  | asking hunder hlog hline' haccount =>
      exact .asking hunder hlog (hline.trans hline') (hkeeps haccount)
  | ended hreturns hlog hline' haccount hhalted =>
      exact .ended hreturns hlog (hline.trans hline') (hkeeps haccount)
        fun f hf => hrunning (hhalted f hf)

theorem stage_receive (hs : Stage me through alone (n, effects) log) (refuses : Refusals)
    (sender : Endpoint) (datagram : List UInt8) :
    let r := n.receive refuses sender datagram
    Stage me through alone (r.1, effects ++ r.2) log := by
  have hview := (n.hears_receive refuses sender datagram).2
  have hreceives := receives_receive refuses n sender datagram
  generalize n.receive refuses sender datagram = r at hview hreceives ⊢
  cases hreceives with
  | deaf => exact hs.keep rfl hview id rfl rfl
  | garbled => exact hs.keep rfl hview id rfl rfl
  | delivers =>
      refine hs.keep rfl hview id ?_ ?_ <;> cases n.line <;> rfl
  | overflows => exact hs.keep rfl hview id rfl rfl
  | notes => exact hs.keep rfl hview id rfl rfl
  | @answers m body hread hbody hsend =>
      have hanswer : (m.answer body).body.isAnswer = true := isAnswer_of_answer hbody
      refine hs.keep rfl hview id rfl ?_
      simp only [List.filterMap_cons, List.filterMap_nil, Effect.question?, hanswer, if_true]
  | halts => exact hs.keep rfl hview (fun _ => rfl) rfl rfl

-- The question of the lookup that is under way has come to its end.
theorem stage_resolve (hs : Stage me through alone (n, effects) log) {c : Caller} {q : Question}
    {f : Flight} {waiting : List Ticket} (hline : n.line = ⟨c, q, some f⟩ :: waiting)
    (inbox : List Reply) (refuses : Refusals) (now : Nat) (answer : Option Reply) :
    let r := { n with inbox := inbox }.resolve refuses now ⟨c, q, some f⟩ waiting answer
    Stage me through alone (r.1, effects ++ r.2) (log ++ ⟨q.target, .ofAnswer answer⟩ ::
      (q.resume n.settings n.view answer).next.refused refuses n.nextSeq) := by
  cases hs with
  | ended _ _ hline' => cases hline.symm.trans hline'
  | @asking vain _ _ xs _ h _ hunder hlog hline' haccount =>
      cases hline.symm.trans hline'
      let x : Inquiry := ⟨h.asked, .ofAnswer answer⟩
      have hsent : (log ++ [x]).filterMap Inquiry.sent? =
          log.filterMap Inquiry.sent? ++ [h.asked] := by
        rw [List.filterMap_append]
        cases answer <;> rfl
      have hidle : ({ n with inbox := inbox, line := [] } : Node).line = [] := rfl
      have hmore : log ++ [x] = vain.flatMap Attempt.inquiries ++ (xs ++ [x]) := by
        rw [hlog, List.append_assoc]
      rw [← hsent] at haccount
      intro r
      rw [List.append_cons]
      exact stage_resume refuses now hunder hidle hmore (haccount.congr rfl)

theorem stage_poll (hs : Stage me through alone (n, effects) log) (refuses : Refusals)
    (now : Nat) (c : Caller) :
    let r := n.poll refuses now c
    Stage me through alone (r.1, effects ++ r.2) (log ++ n.inquired (.poll refuses now c)) := by
  -- The view is as it was, as if nobody had claimed.
  have hstays {m : Node} (hnone : n.resumed (.poll refuses now c) = none) (hline : m.line = n.line)
      (hview : m.view = n.view.claimed []) (hrunning : n.running = false → m.running = false) :
      Stage me through alone (m, effects ++ []) (log ++ n.inquired (.poll refuses now c)) := by
    simp only [inquired, hnone, List.append_nil log]
    exact hs.keep hline hview hrunning rfl rfl
  have hpolls := polls_poll refuses now n c
  generalize n.poll refuses now c = r at hpolls ⊢
  cases hpolls with
  | turnedAway haway => exact hstays (resumed_of_turnedAway haway) rfl rfl id
  | sends hline =>
      -- The question of a start goes out at once.
      cases hs with
      | asking _ _ hline' _ => cases hline.symm.trans hline'
      | ended _ _ hline' _ _ => cases hline.symm.trans hline'
  | @lapses q f waiting hline hdue =>
      have hresumed := resumed_eq_some.mpr
        ⟨refuses, now, c, f, waiting, rfl, hline, Or.inl ⟨rfl, hdue⟩⟩
      simp only [inquired, hresumed]
      exact stage_resolve hs hline n.inbox refuses now none
  | @finds q f waiting r rest h =>
      have hresumed := resumed_eq_some.mpr
        ⟨refuses, now, c, f, waiting, rfl, h.line, Or.inr ⟨r, rest, rfl, h⟩⟩
      simp only [inquired, hresumed]
      exact stage_resolve hs h.line rest refuses now (some r)
  | waits hline hearly hfirst =>
      exact hstays (resumed_of_waits hline hearly hfirst) rfl rfl id

/-- Whatever happens, a start is where its inquiries have brought it. -/
theorem stage_live {events : List Event} (hs : Stage me through alone (n, effects) log)
    (hevents : ∀ e ∈ events, e.Starting) :
    Stage me through alone ((n.live events).1, effects ++ (n.live events).2)
      (log ++ n.inquiries events) := by
  induction events generalizing n effects log with
  | nil => simpa only [live, inquiries, List.append_nil] using hs
  | cons e rest ih =>
      have hnext : Stage me through alone ((n.happen e).1, effects ++ (n.happen e).2)
          (log ++ n.inquired e) := by
        cases e with
        | begin refuses now c t => exact (hevents _ List.mem_cons_self).elim
        | stop => exact (hevents _ List.mem_cons_self).elim
        | poll refuses now c => exact stage_poll hs refuses now c
        | receive refuses sender datagram =>
            simp only [inquired, resumed, List.append_nil]
            exact stage_receive hs refuses sender datagram
      have hrest := ih hnext fun e' he' => hevents e' (List.mem_cons_of_mem e he')
      rwa [List.append_assoc, List.append_assoc] at hrest

theorem stage_begin (s : Settings) (me : Contact) (firstSeq : UInt64) (refuses : Refusals)
    (now : Nat) (through : List Endpoint) (alone : Bool) :
    let start := bound s me firstSeq
    let e : Event := .begin refuses now .starter (.enter through alone)
    Stage me through alone (start.happen e) (start.inquired e) := by
  have haccount : Account me me (bound s me firstSeq, []) [] [] :=
    ⟨View.fresh_joined me me, rfl, rfl⟩
  exact stage_approach refuses now (vain_nil me.key) rfl rfl rfl haccount

end Steps

section Count

variable {n : Node} {e : Event}

-- A question whose time is up comes to its end.
theorem inquired_of_lapses (h : n.lapses e = true) : 1 ≤ (n.inquired e).length := by
  cases e with
  | poll refuses now c =>
      cases hline : n.line with
      | nil => simp [lapses, isOverdue, hline] at h
      | cons t waiting =>
          rcases t with ⟨d, q, flight⟩
          simp only [lapses, isOverdue, hline, Bool.and_eq_true, decide_eq_true_eq,
            Option.any_eq_true] at h
          rcases h with ⟨rfl, f, rfl, hdue⟩
          have hresumed := resumed_eq_some.mpr
            ⟨refuses, now, d, f, waiting, rfl, hline, Or.inl ⟨rfl, hdue⟩⟩
          simp only [inquired, hresumed]
          exact Nat.le_add_left 1 _
  | _ => cases h

theorem lapsed_le (n : Node) (events : List Event) :
    n.lapsed events ≤ (n.inquiries events).length := by
  induction events generalizing n with
  | nil => exact Nat.le_refl 0
  | cons e rest ih =>
      have hrest := ih (n.happen e).1
      have hnow : (if n.lapses e then 1 else 0) ≤ (n.inquired e).length := by
        split_ifs with h
        · exact inquired_of_lapses h
        · exact Nat.zero_le _
      simp only [lapsed, inquiries, List.length_append]
      omega

end Count

section Start

variable {me : Contact} {through : List Endpoint} {alone : Bool}

/-- The inquiries of a start that has not returned are fewer than a lookup through each
    endpoint could make. -/
theorem Underway.length_lt {vain : List Attempt} {e : Endpoint} {rest : List Endpoint}
    {xs : List Inquiry} {h : Hop} (hu : Underway me through alone vain e rest xs h) :
    (vain.flatMap Attempt.inquiries ++ xs).length < through.length * hopLimit := by
  have hvain := length_inquiries_le hu.tried.came
  have hcount := hu.count
  rw [hu.order, List.length_append, List.length_append, List.length_map, List.length_cons,
    Nat.add_mul, Nat.succ_mul]
  omega

/-- What becomes of the start of a node with an endpoint to join through, which is tried
    first, and more of them. At any time there are attempts that have been made, each of them
    a lookup of the node's own key, in the order of the endpoints, and none but the last has
    decided anything. Either the start has not returned, and then none has: another lookup is
    under way through the endpoint after these, the view is that of a node that is alone, and
    the question that has been sent runs out of time at some moment. Or it has returned, once
    and for all, and asks nothing any more. If the last attempt has found an owner then the
    node follows that one and knows of nobody else; if it has met a fatal fault then this is
    what was returned. If no attempt decides then there was one for each endpoint, and the
    start fails just if there was one at all and the node may not be alone; if it does not
    fail then the node is as alone as if nobody had been asked. A start that has failed has
    stopped the node, which hears nothing any more. And a start does return, at the latest
    when its questions have run out of time as often as it could ask. -/
theorem start_by_attempts (s : Settings) (me : Contact) (firstSeq : UInt64)
    (first : Option Endpoint) (others : List Endpoint) (alone : Bool) (refuses : Refusals)
    (now : Nat) (events : List Event) (hevents : ∀ e ∈ events, e.Starting) :
    let through := first.toList ++ others
    let history := .begin refuses now .starter (.enter through alone) :: events
    let start := bound s me firstSeq
    let r := start.live history
    let log := start.inquiries history
    ∃ attempts : List Attempt,
      attempts.map Attempt.through <+: through ∧
      (∀ a ∈ attempts, CameTo me.key a.through a.inquiries a.finding) ∧
      (∀ a ∈ attempts.dropLast, ¬ a.Decides) ∧
      ((∃ e rest xs last deadline,
          Account me me r [] (log.filterMap Inquiry.sent? ++ [last]) ∧
          through = attempts.map Attempt.through ++ e :: rest ∧ (∀ a ∈ attempts, ¬ a.Decides) ∧
          log = attempts.flatMap Attempt.inquiries ++ xs ∧ Onward e xs last ∧
          ∀ t, deadline ≤ t → r.1.isOverdue t .starter = true) ∨
        ∃ c outcome,
          Account me c r [outcome] (log.filterMap Inquiry.sent?) ∧
          log = attempts.flatMap Attempt.inquiries ∧
          (∀ a d, attempts.getLast? = some a → a.finding = .ok d → outcome = .done ∧ c = d) ∧
          (∀ a f, attempts.getLast? = some a → a.finding = .error f → f.isFatal = true →
            outcome = .failed f) ∧
          ((∀ a ∈ attempts, ¬ a.Decides) → attempts.map Attempt.through = through ∧
            if alone = true ∨ through = [] then outcome = .done ∧ c = me
            else outcome = .failed (.joinFailed through.length)) ∧
          ∀ f, outcome = .failed f → r.1.running = false ∧
            ∀ refuses sender datagram, r.1.receive refuses sender datagram = (r.1, [])) ∧
      (through.length * hopLimit ≤ start.lapsed history →
        ∃ outcome, r.2.filterMap Effect.returned? = [outcome]) := by
  intro through history start r log
  have hstage : Stage me through alone r log :=
    stage_live (stage_begin s me firstSeq refuses now through alone) hevents
  have hlapsed : start.lapsed history ≤ log.length := lapsed_le start history
  generalize start.lapsed history = lapsed at hlapsed
  clear_value log r
  cases hstage with
  | @asking vain e rest xs _ h f hu hlog hline haccount =>
      refine ⟨vain, ?_, hu.tried.came, fun a ha => hu.tried.undecided a (List.dropLast_subset _ ha),
        Or.inl ⟨e, rest, xs, h.asked, f.deadline, haccount, hu.order, hu.tried.undecided, hlog,
          hu.onward, fun t ht => ?_⟩, fun hcount => ?_⟩
      · rw [hu.order]
        exact List.prefix_append _ _
      · simp only [isOverdue, hline, decide_true, Bool.true_and, Option.any_some, decide_eq_true ht]
      · have hlength := hu.length_lt
        rw [← hlog] at hlength
        omega
  | @ended attempts _ c outcome hreturns hlog hline haccount hhalted =>
      refine ⟨attempts, hreturns.isPrefix, hreturns.came, hreturns.undecided,
        Or.inr ⟨c, outcome, haccount, hlog, fun _ _ => hreturns.ofOwner,
          fun _ _ => hreturns.ofFatal, hreturns.ofVain, fun f hf => ⟨hhalted f hf, ?_⟩⟩,
        fun _ => ⟨outcome, haccount.returned⟩⟩
      intro refuses sender datagram
      simp only [receive, hhalted f hf, Bool.not_false, if_true]

/-- `early` is to join through `middle` or else through `late`. The former stays silent until
    its time is up, the latter answers that it is the owner itself. -/
def secondHelps : List Event :=
  [ .poll openSocket 1000 .starter,
    .receive openSocket Contact.late.endpoint (Wire.pack (.new 1 (.owner .late true))),
    .poll openSocket 1000 .starter ]

/-- It asks the two of them in this order, and follows the second. -/
theorem early_joins_through_late :
    let through := [Contact.middle.endpoint, Contact.late.endpoint]
    let history := .begin openSocket 0 .starter (.enter through false) :: secondHelps
    (∀ e ∈ secondHelps, e.Starting) ∧
      Account .early .late ((bound {} .early 0).live history) [.done] through := by
  intro through history
  have hevents : ∀ e ∈ secondHelps, e.Starting := by
    simp only [secondHelps, List.forall_mem_cons]
    exact ⟨trivial, trivial, trivial, fun _ he => absurd he List.not_mem_nil⟩
  have hreturned : ((bound {} .early 0).live history).2.filterMap Effect.returned? = [.done] := by
    decide +kernel
  have hsuccessor : ((bound {} .early 0).live history).1.view.successor = .late := by
    decide +kernel
  have hsent : ((bound {} .early 0).inquiries history).filterMap Inquiry.sent? = through := by
    decide +kernel
  have hstart := start_by_attempts {} .early 0 (some Contact.middle.endpoint)
    [Contact.late.endpoint] false openSocket 0 secondHelps hevents
  simp only [Option.toList_some, List.singleton_append] at hstart
  simp only [history, through] at hreturned hsuccessor hsent ⊢
  rcases hstart with ⟨_, _, _, _, ⟨_, _, _, _, _, hwaits, _⟩ | ⟨c, outcome, haccount, _⟩, _⟩
  · cases hreturned.symm.trans hwaits.returned
  · have hc : c = .late := haccount.view.successor.symm.trans hsuccessor
    have ho : [outcome] = [.done] := haccount.returned.symm.trans hreturned
    rw [hc, ho, hsent] at haccount
    exact ⟨hevents, haccount⟩

end Start

end Node

end RingOverlay
