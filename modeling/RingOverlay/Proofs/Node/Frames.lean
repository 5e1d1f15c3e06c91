import RingOverlay.Network.Run
import RingOverlay.Proofs.Growth.Nodes
import RingOverlay.Proofs.Node.Shape
import RingOverlay.Proofs.Node.Stopping
import RingOverlay.Proofs.Round
import RingOverlay.Proofs.Wire.Size

/-!
# What Fits Into a Datagram

A node never looks at the length of what it sends. Its socket does, and refuses what is
longer than any datagram, which is as fatal as any other refusal. Whatever a node sends but a
list of successors has a length that is bounded by its types, far below what a datagram may
hold. A list has as many entries as the view holds, and those are no more than the settings
allow. So as long as the settings allow no more entries than a datagram has room for, all
that a node ever sends fits.

With room for one entry more it may not. A peer can report a list that fits into its own
datagram, and the node puts the successor in front of it. Whoever asks for that list then
stops the node.

What a socket has refused appears among the effects of no event. So that nothing else is ever
too long is said of the socket instead: two sockets that treat alike whatever fits are the
same to a node, event by event and therefore in every history, unless a list outgrows a
datagram. That the node stops when one does is then a matter of a single event.

## Main definitions

* `Wire.listRoom`: How many entries fit, whatever they are.
* `Refusals.Measures`: A socket that knows how long a datagram may be.
* `Refusals.Agree`, `Event.Alike`: What differs in datagrams that are too long at most.
* `Node.Outgrows`: A list is asked for that does not fit.
* `Event.Fits`: An event that brings no datagram that is too long.
* `Node.flood`: A history after which a list outgrows a datagram.

## Theorems

* `measures_refusals`: The sockets of a network measure.
* `dispatch_congr`, `receive_congr`: What a socket says of too long a datagram matters to
  nothing but an answer.
* `live_alike`: It matters to no history in which no list outgrows a datagram.
* `happen_of_outgrows`: A node whose list outgrows a datagram is stopped by whoever asks for it.
* `fits_of_live`: What fits, what does not, and what comes of it, after every history.
* `list_outgrows_datagram`: After a history it does not fit.
-/

namespace RingOverlay

/-- How many entries of a list fit into a datagram, however long they are. -/
def Wire.listRoom : Nat := 934

theorem Wire.fits_of_length_le {m : Message} {cs : List Contact} (hm : m.body = .successors cs)
    (h : cs.length ≤ Wire.listRoom) : (Wire.pack m).length ≤ Wire.maxDatagram := by
  have := Wire.length_pack_successors_le hm
  simp only [Wire.listRoom, Wire.maxDatagram] at *
  omega

theorem Wire.fits_of_kind_ne {m : Message} (h : m.body.kind ≠ .successors) :
    (Wire.pack m).length ≤ Wire.maxDatagram :=
  (Wire.length_pack_le h).trans (by decide)

theorem Body.kind_ne_of_isAnswer {b : Body} (h : b.isAnswer = false) : b.kind ≠ .successors := by
  cases b with
  | successors cs => cases h
  | _ => exact Kind.noConfusion

/-- A socket that refuses whatever is longer than any datagram, and says that a datagram is
    too long of no other. -/
structure Refusals.Measures (refuses : Refusals) : Prop where
  long : ∀ dest datagram, Wire.maxDatagram < datagram.length → refuses dest datagram ≠ none
  short : ∀ dest datagram, refuses dest datagram = some .messageTooLong →
    Wire.maxDatagram < datagram.length

/-- The sockets of a network measure, unless they were told otherwise. -/
theorem Network.measures_refusals {n : Network}
    (h : ∀ dest, n.unsendable.lookup dest ≠ some .messageTooLong) : n.refusals.Measures where
  long := by
    intro dest datagram hlong
    rw [refusals]
    cases n.unsendable.lookup dest with
    | none =>
        simp only [if_pos hlong]
        exact Option.some_ne_none _
    | some reason => exact Option.some_ne_none reason
  short := by
    intro dest datagram hsend
    rw [refusals] at hsend
    cases hlookup : n.unsendable.lookup dest with
    | none =>
        simp only [hlookup] at hsend
        split_ifs at hsend with hlong
        exact hlong
    | some reason =>
        simp only [hlookup] at hsend
        exact absurd (hlookup.trans hsend) (h dest)

/-- Two sockets that treat alike whatever fits into a datagram. -/
def Refusals.Agree (refuses others : Refusals) : Prop :=
  ∀ dest datagram, datagram.length ≤ Wire.maxDatagram →
    others dest datagram = refuses dest datagram

/-- The same event at another socket. -/
def Event.over (others : Refusals) : Event → Event
  | .begin _ now c t => .begin others now c t
  | .poll _ now c => .poll others now c
  | .receive _ sender datagram => .receive others sender datagram
  | .stop => .stop

/-- Two events that differ in what the socket says of datagrams that are too long, at most. -/
structure Event.Alike (e other : Event) : Prop where
  same : other = e.over other.refusals
  agree : e.refusals.Agree other.refusals

/-- The event brings no datagram that is too long. -/
def Event.Fits : Event → Prop
  | .receive _ _ datagram => datagram.length ≤ Wire.maxDatagram
  | .begin _ _ _ _ | .poll _ _ _ | .stop => True

namespace Node

/-- A node is asked for its list, and the list does not fit into a datagram. -/
def Outgrows (n : Node) : Event → Prop
  | .receive _ _ datagram =>
    ∃ m, Wire.unpack datagram = .ok m ∧ m.body = .askSuccessors ∧
      Wire.maxDatagram < (Wire.pack (m.answer (.successors n.view.successors))).length
  | .begin _ _ _ _ | .poll _ _ _ | .stop => False

section Sends

variable {n : Node} {r : Node × List Effect} {dest sender : Endpoint} {m : Message}
  {refuses : Refusals} {datagram : List UInt8}

theorem Tries.isAnswer_of_send {q : Question} {waiting : List Question} (h : n.Tries q waiting r)
    (hm : Effect.send dest m ∈ r.2) : m.body.isAnswer = false := by
  rw [(h.sends dest m hm).2, Question.isAnswer_body]

theorem Carries.isAnswer_of_send {s : Settings} {waiting : List Question} {turn : Turn}
    (h : Carries s waiting turn r) (hm : Effect.send dest m ∈ r.2) : m.body.isAnswer = false := by
  rcases h.sends dest m hm with ⟨_, hbody⟩ | ⟨q, _, _, hbody⟩ <;> rw [hbody]
  · rfl
  · exact q.isAnswer_body

theorem isAnswer_of_send_poll {now : Nat} {c : Caller}
    (hm : Effect.send dest m ∈ (n.poll refuses now c).2) : m.body.isAnswer = false := by
  have h := polls_poll refuses now n c
  generalize n.poll refuses now c = r at h hm
  cases h with
  | turnedAway => cases hm
  | sends => exact (tries_launch refuses now n c _ _).isAnswer_of_send hm
  | lapses => exact (carries_resolve refuses now n _ _ none).isAnswer_of_send hm
  | finds => exact (carries_resolve refuses now _ _ _ _).isAnswer_of_send hm
  | waits => cases hm

/-- Only whoever asks for the list is answered with a list, and that is the one that the view
    holds. -/
theorem list_of_answer {v : View} {asked answer : Body} (h : v.answer? asked = some answer)
    (hkind : answer.kind = .successors) :
    asked = .askSuccessors ∧ answer = .successors v.successors := by
  cases asked <;> cases h
  · cases hkind
  · cases hkind
  · exact ⟨rfl, rfl⟩
  · cases hkind

/-- An answer that is too long is the list, which outgrows a datagram. -/
theorem outgrows_of_answer {answer : Body} (hread : Wire.unpack datagram = .ok m)
    (hanswer : (n.view.heard m.body).answer? m.body = some answer)
    (hlong : Wire.maxDatagram < (Wire.pack (m.answer answer)).length) :
    answer = .successors n.view.successors ∧ n.Outgrows (.receive refuses sender datagram) := by
  have hkind : answer.kind = .successors := by
    by_contra hkind
    exact Nat.not_le.mpr hlong (Wire.fits_of_kind_ne hkind)
  rcases list_of_answer hanswer hkind with ⟨hasked, hlist⟩
  rw [View.heard_successors] at hlist
  exact ⟨hlist, m, hread, hasked, hlist ▸ hlong⟩

/-- What is sent fits, unless it is the list, which outgrows a datagram. -/
theorem fits_of_send {e : Event} (hm : Effect.send dest m ∈ (n.happen e).2) :
    (Wire.pack m).length ≤ Wire.maxDatagram ∨
      m.body = .successors n.view.successors ∧ n.Outgrows e := by
  have hshort (h : m.body.isAnswer = false) : (Wire.pack m).length ≤ Wire.maxDatagram :=
    Wire.fits_of_kind_ne (Body.kind_ne_of_isAnswer h)
  cases e with
  | begin refuses now c t =>
      exact Or.inl (hshort ((carries_follow refuses now n c (t.begin n.view)).isAnswer_of_send hm))
  | poll refuses now c => exact Or.inl (hshort (isAnswer_of_send_poll hm))
  | stop => cases hm
  | receive refuses sender datagram =>
      have hr := receives_receive refuses n sender datagram
      simp only [happen] at hm
      generalize n.receive refuses sender datagram = r at hr hm
      cases hr with
      | delivers => exact absurd hm (send_notMem_callHead n.line dest m)
      | answers hread hbody =>
          cases List.mem_singleton.mp hm
          exact (Nat.lt_or_ge _ _).symm.imp_right (outgrows_of_answer hread hbody)
      | _ => cases hm

end Sends

section Sockets

variable {refuses others : Refusals} {n : Node}

/-- Of what is no answer a socket never says that it is too long. -/
theorem dispatch_congr (h : refuses.Agree others) (n : Node) (dest : Endpoint) {body : Body}
    (hbody : body.isAnswer = false) :
    dispatch others n dest body = dispatch refuses n dest body := by
  have hsame := h dest (Wire.pack (.new n.nextSeq body))
    (Wire.fits_of_kind_ne (Body.kind_ne_of_isAnswer hbody))
  simp only [dispatch, hsame]

theorem launch_congr (h : refuses.Agree others) (now : Nat) (n : Node) (c : Caller) (q : Question)
    (waiting : List Ticket) : n.launch others now c q waiting = n.launch refuses now c q waiting := by
  simp only [launch, dispatch_congr h _ _ q.isAnswer_body]

theorem follow_congr (h : refuses.Agree others) (now : Nat) (n : Node) (c : Caller) (turn : Turn) :
    n.follow others now c turn = n.follow refuses now c turn := by
  have hproceed (m : Node) (next : Next) :
      m.proceed others now c next = m.proceed refuses now c next := by
    cases next with
    | finish outcome => rfl
    | ask q => simp only [proceed, launch_congr h]
  have hclaim (m : Node) (dest : Endpoint) (d : Contact) :
      dispatch others m dest (.claim d) = dispatch refuses m dest (.claim d) :=
    dispatch_congr h m dest rfl
  simp only [follow, hproceed, hclaim]

theorem poll_congr (h : refuses.Agree others) (now : Nat) (n : Node) (c : Caller) :
    n.poll others now c = n.poll refuses now c := by
  simp only [poll, resolve, launch_congr h, follow_congr h]

/-- What a socket says of too long a datagram matters to an answer only if a list outgrows
    one. -/
theorem receive_congr (h : refuses.Agree others) {sender : Endpoint} {datagram : List UInt8}
    (hfits : ¬ n.Outgrows (.receive refuses sender datagram)) :
    n.receive others sender datagram = n.receive refuses sender datagram := by
  cases hread : Wire.unpack datagram with
  | error f => simp only [receive, hread]
  | ok m =>
      cases hanswer : (n.view.heard m.body).answer? m.body with
      | none => simp only [receive, hread, hear, hanswer]
      | some answer =>
          have hshort := Nat.le_of_not_lt fun hlong =>
            hfits (outgrows_of_answer hread hanswer hlong).2
          have hsame := h sender _ hshort
          simp only [receive, hread, hear, hanswer, hsame]

/-- Nor does it matter to any other event. -/
theorem happen_alike {e other : Event} (h : e.Alike other) (hfits : ¬ n.Outgrows e) :
    n.happen other = n.happen e := by
  rw [h.same]
  have hagree := h.agree
  cases e with
  | begin refuses now c t => exact follow_congr hagree now n c (t.begin n.view)
  | poll refuses now c => exact poll_congr hagree now n c
  | receive refuses sender datagram => exact receive_congr hagree hfits
  | stop => rfl

/-- A history comes out the same whatever the sockets say of too long a datagram, as long as
    no list outgrows one. -/
theorem live_alike {events others : List Event} (h : List.Forall₂ Event.Alike events others)
    (hfits : ∀ past e future, events = past ++ e :: future → ¬ (n.live past).1.Outgrows e) :
    n.live others = n.live events := by
  induction h generalizing n with
  | nil => rfl
  | @cons e other rest others he hrest ih =>
      have hnow : n.happen other = n.happen e := happen_alike he (hfits [] e rest rfl)
      have hlater := ih (n := (n.happen e).1) fun past x future hcut =>
        hfits (e :: past) x future (by rw [hcut]; rfl)
      rw [live_cons, live_cons, hnow, hlater]

/-- A node whose list outgrows a datagram is stopped by whoever asks for it. -/
theorem happen_of_outgrows {e : Event} (h : e.refusals.Measures) (hrunning : n.running = true)
    (hlong : n.Outgrows e) : n.happen e = ({ n with running := false }, []) := by
  cases e with
  | receive refuses sender datagram =>
      rcases hlong with ⟨⟨version, seq, body⟩, hread, rfl, hlong⟩
      rcases Option.ne_none_iff_exists'.mp (h.long sender _ hlong) with ⟨reason, hsend⟩
      simp only [Event.refusals] at hsend
      simp only [happen, receive, hrunning, Bool.not_true, Bool.false_eq_true, if_false, hread, hear,
        Body.isAnswer, View.heard, View.answer?, hsend]
  | _ => exact hlong.elim

/-- No task ends because a datagram was too long. -/
theorem notMem_tooLong {e : Event} (h : e.refusals.Measures) (c : Caller) (dest : Endpoint) :
    Effect.finish c (.failed (.send dest .messageTooLong)) ∉ (n.happen e).2 := by
  intro hfinish
  rcases exists_caller_of_finish hfinish with ⟨d, hd⟩
  rcases (concludes_happen hd).fatal c _ hfinish rfl with ⟨peer, m, reason, heq, hm, hsend⟩
  cases heq
  have hlong := h.short dest _ hsend
  have hshort := Wire.fits_of_kind_ne (Body.kind_ne_of_isAnswer hm)
  omega

end Sockets

section Lists

variable {s : Settings} {n : Node} {e : Event}

/-- A list that outgrows a datagram has more entries than fit whatever they are. -/
theorem room_lt_of_outgrows (h : n.Outgrows e) : Wire.listRoom < n.view.successors.length := by
  cases e with
  | receive refuses sender datagram =>
      rcases h with ⟨m, _, _, hlong⟩
      exact Nat.lt_of_not_le fun hroom =>
        Nat.not_le.mpr hlong (Wire.fits_of_length_le (m := m.answer _) rfl hroom)
  | _ => exact h.elim

theorem length_le_of_live (s : Settings) (me : Contact) (firstSeq : UInt64) (events : List Event) :
    ((bound s me firstSeq).live events).1.view.successors.length ≤ s.ceiling :=
  ((View.inShape_alone s me).changes (changes_live (bound s me firstSeq) events).2).length

end Lists

/-- All that a node sends fits into a datagram, except for the list of a view that has more
    entries than fit whatever they are, and the settings have to allow such a list. Of
    nothing else can the socket say that it is too long: a node cannot tell whether there is
    a limit to the length of a datagram unless such a list is asked for. If it is, and the
    socket refuses what is too long, then nothing is sent and the node stops. No task ever
    ends for this reason, and where the settings allow no more entries than fit, the limit
    makes no difference to any history. -/
theorem fits_of_live (s : Settings) (me : Contact) (firstSeq : UInt64) (events : List Event) :
    let start := bound s me firstSeq
    (∀ past e future, events = past ++ e :: future →
      let n := (start.live past).1
      (∀ dest m, Effect.send dest m ∈ (n.happen e).2 →
        (Wire.pack m).length ≤ Wire.maxDatagram ∨
          m.body = .successors n.view.successors ∧ n.Outgrows e) ∧
      (n.Outgrows e → Wire.listRoom < n.view.successors.length ∧
        n.view.successors.length ≤ s.ceiling) ∧
      (¬ n.Outgrows e → ∀ other, e.Alike other → n.happen other = n.happen e) ∧
      (e.refusals.Measures →
        (n.running = true → n.Outgrows e → n.happen e = ({ n with running := false }, [])) ∧
        ∀ c dest, Effect.finish c (.failed (.send dest .messageTooLong)) ∉ (n.happen e).2)) ∧
    (s.ceiling ≤ Wire.listRoom → ∀ others, List.Forall₂ Event.Alike events others →
      start.live others = start.live events) := by
  intro start
  have hfew (past : List Event) : (start.live past).1.view.successors.length ≤ s.ceiling :=
    length_le_of_live s me firstSeq past
  refine ⟨fun past e future _ => ?_, fun hceiling others hothers => ?_⟩
  · exact ⟨fun dest m => fits_of_send, fun hlong => ⟨room_lt_of_outgrows hlong, hfew past⟩,
      fun hfits other hother => happen_alike hother hfits,
      fun hmeasures => ⟨happen_of_outgrows hmeasures, notMem_tooLong hmeasures⟩⟩
  · refine live_alike hothers fun past e future _ hlong => ?_
    have hmany := room_lt_of_outgrows hlong
    have := hfew past
    omega

/-- A socket of a network that carries whatever is not too long. -/
def fairSocket : Refusals := ({} : Network).refusals

theorem measures_fairSocket : fairSocket.Measures :=
  Network.measures_refusals fun _ => (Option.some_ne_none _).symm

/-- Somebody asks for the list. -/
def asksList (refuses : Refusals) : Event :=
  .receive refuses Contact.middle.endpoint (Wire.pack (.new 5 .askSuccessors))

/-- A list within the usual settings fits, and is sent even where there is a limit. -/
theorem early_list_fits :
    let start := bound {} .early 0
    let m : Message := .new 5 (.successors [.early])
    fairSocket.Measures ∧ (asksList openSocket).Alike (asksList fairSocket) ∧
      Settings.ceiling {} ≤ Wire.listRoom ∧
      start.live [asksList fairSocket] = start.live [asksList openSocket] ∧
      Effect.send Contact.middle.endpoint m ∈ (start.happen (asksList fairSocket)).2 ∧
      (Wire.pack m).length ≤ Wire.maxDatagram := by
  intro start m
  have halike : (asksList openSocket).Alike (asksList fairSocket) := by
    refine ⟨rfl, fun dest datagram hfits => ?_⟩
    exact if_neg (Nat.not_lt.mpr hfits)
  have hceiling : Settings.ceiling {} ≤ Wire.listRoom := by decide
  have hlimit := (fits_of_live {} .early 0 [asksList openSocket]).2 hceiling
    [asksList fairSocket] (.cons halike .nil)
  have hsent : Effect.send Contact.middle.endpoint m ∈ (start.happen (asksList fairSocket)).2 := by
    decide +kernel
  rcases (fits_of_live {} .early 0 [asksList fairSocket]).1 [] _ [] rfl with
    ⟨hfits, hlong, -, -⟩
  refine ⟨measures_fairSocket, halike, hceiling, hlimit, hsent, ?_⟩
  rcases hfits _ m hsent with hfits | ⟨-, houtgrows⟩
  · exact hfits
  · have hmany := hlong houtgrows
    exact absurd (hmany.1.trans_le hmany.2) (Nat.not_lt.mpr hceiling)

/-- Room for one entry more than fits into a datagram. -/
def roomy : Settings := { maxSuccessors := 935 }

/-- The contact with the longest form, but for one that nobody can reach. -/
def longest : Contact := ⟨0xffffffffffffffff, ⟨⟨255, 255, 255, 254⟩, 65535⟩⟩

/-- What it reports: a list of contacts whose forms are as long as its own, as many as
    fit. -/
def report : Message :=
  .new 1 (.successors (List.replicate Wire.listRoom { longest with key := 0xfffffffffffffffe }))

/-- `early` enters through `longest`, which answers as the owner, and asks it for its
    list. -/
def welcome : List Event :=
  [ .begin fairSocket 0 .starter (.enter [longest.endpoint] false),
    .receive fairSocket longest.endpoint (Wire.pack (.new 0 (.owner longest true))),
    .poll fairSocket 0 .starter,
    .begin fairSocket 0 (.holder 0) .fixSuccessors ]

/-- The list arrives, and `early` takes it over. -/
def flood : List Event :=
  [ .receive fairSocket longest.endpoint (Wire.pack report),
    .poll fairSocket 0 (.holder 0) ]

/-- What `early` answers then: its successor, and behind it the list that it was told. -/
def outgrown : Message := .new 5 (.successors (longest :: report.toReply.nodes))

theorem fits_report : (Wire.pack report).length ≤ Wire.maxDatagram :=
  Wire.fits_of_length_le rfl (Nat.le_of_eq List.length_replicate)

theorem fits_ask : (Wire.pack (.new 5 .askSuccessors)).length ≤ Wire.maxDatagram :=
  Wire.fits_of_kind_ne (by decide)

theorem unpack_fitting {m : Message} (h : (Wire.pack m).length ≤ Wire.maxDatagram) :
    Wire.unpack (Wire.pack m) = .ok m := by
  refine Wire.unpack_frame ?_ (Wire.decode_messageBytes m)
  rw [Wire.pack, Wire.frame, List.length_append] at h
  exact (Nat.le_of_add_left_le h).trans_lt (by decide)

-- The node takes the whole list over and puts its successor in front.
theorem reported_report {v : View} (hme : v.me = .early) (hsucc : v.successor = longest) :
    (v.reported longest report.toReply.nodes roomy.ceiling).successors =
      longest :: report.toReply.nodes := by
  have hkept : v.fallbacks (roomy.ceiling - 1) (report.toReply.nodes ++ []) =
      report.toReply.nodes := by
    refine v.fallbacks_append (fun a ha => ?_) (List.length_replicate.trans_le (by decide))
      (Or.inr fun b hb => absurd hb (by simp))
    rw [List.eq_of_mem_replicate ha, hme, hsucc]
    decide
  rw [List.append_nil] at hkept
  rw [View.reported, if_pos hsucc, View.refresh, hkept, hsucc]

/-- A node that follows `longest` and waits for its list. -/
structure AwaitsReport (n : Node) : Prop where
  running : n.running = true
  inbox : n.inbox = []
  line : n.line = [⟨.holder 0, .list longest, some ⟨1, 1000⟩⟩]
  settings : n.settings = roomy
  me : n.view.me = .early
  successor : n.view.successor = longest

theorem awaitsReport_live_welcome : ((bound roomy .early 0).live welcome).1.AwaitsReport := by
  have hready : let n := ((bound roomy .early 0).live welcome).1
      n.running = true ∧ n.inbox = [] ∧
        n.line = [⟨.holder 0, .list longest, some ⟨1, 1000⟩⟩] ∧ n.settings = roomy ∧
          n.view.me = .early ∧ n.view.successor = longest := by decide +kernel
  rcases hready with ⟨hrunning, hinbox, hline, hsettings, hme, hsucc⟩
  exact ⟨hrunning, hinbox, hline, hsettings, hme, hsucc⟩

theorem live_flood {n : Node} (h : n.AwaitsReport) :
    (n.live flood).1.running = true ∧
      (n.live flood).1.view.successors = longest :: report.toReply.nodes := by
  have harrive : n.happen (.receive fairSocket longest.endpoint (Wire.pack report)) =
      ({ n with inbox := [report.toReply] }, callHead n.line) := by
    have hanswer : report.body.isAnswer = true := rfl
    simp only [happen, receive, h.running, Bool.not_true, Bool.false_eq_true, if_false,
      unpack_fitting fits_report, hear, hanswer, if_true, deliver, h.inbox, List.length_nil,
      inboxSize, Nat.zero_lt_succ, List.nil_append]
  have hpoll : ({ n with inbox := [report.toReply] } : Node).happen
      (.poll fairSocket 0 (.holder 0)) =
        ({ n with
            inbox := []
            line := []
            view := n.view.reported longest report.toReply.nodes roomy.ceiling },
          [.finish (.holder 0) .done]) := by
    have hearly : ¬ 1000 ≤ 0 := by decide
    have hfirst : firstMatch 1 (Question.list longest).expects [report.toReply] =
        some (report.toReply, []) := rfl
    simp only [happen, poll, h.line, ne_eq, not_true_eq_false, if_false, hearly, hfirst, resolve,
      Question.resume, h.settings, follow, proceed, conclude, stopsOn, callHead, Bool.not_false,
      Bool.and_true, List.nil_append]
  simp only [flood, live, harrive, hpoll]
  exact ⟨h.running, reported_report h.me h.successor⟩

theorem happen_asksList {n : Node} (h : n.running = true) :
    n.happen (asksList openSocket) =
      (n, [.send Contact.middle.endpoint (.new 5 (.successors n.view.successors))]) := by
  simp only [asksList, happen, receive, h, Bool.not_true, Bool.false_eq_true, if_false,
    unpack_fitting fits_ask]
  rfl

theorem long_outgrown : Wire.maxDatagram < (Wire.pack outgrown).length := by
  have hlong : (Wire.contact longest).length = 69 ∧
      (Wire.contact { longest with key := 0xfffffffffffffffe }).length = 69 := by
    decide +kernel
  have hnodes : report.toReply.nodes =
      List.replicate Wire.listRoom { longest with key := 0xfffffffffffffffe } := rfl
  rw [Wire.length_pack]
  simp only [outgrown, hnodes, Message.new, Wire.length_body_successors, List.map_cons,
    List.map_replicate, List.sum_cons, List.sum_replicate, hlong]
  decide

/-- All that reaches the node fits into a datagram, and what it answers does not: where
    there is no limit it sends more than a datagram holds, and where there is one it sends
    nothing and has stopped. -/
theorem list_outgrows_datagram :
    let n := ((bound roomy .early 0).live (welcome ++ flood)).1
    (∀ e ∈ welcome ++ flood ++ [asksList fairSocket], e.Fits ∧ e.refusals.Measures) ∧
      Wire.maxDatagram < (Wire.pack outgrown).length ∧
      n.happen (asksList openSocket) = (n, [.send Contact.middle.endpoint outgrown]) ∧
      n.running = true ∧ n.happen (asksList fairSocket) = ({ n with running := false }, []) := by
  have hwelcome : (Wire.pack (.new 0 (.owner longest true))).length ≤ Wire.maxDatagram :=
    Wire.fits_of_kind_ne (by decide)
  have hn := live_flood awaitsReport_live_welcome
  rw [← live_append_fst] at hn
  -- All that is known of the node is said by now; its history need not be run again.
  generalize ((bound roomy .early 0).live (welcome ++ flood)).1 = n at hn ⊢
  have hsends : n.happen (asksList openSocket) = (n, [.send Contact.middle.endpoint outgrown]) := by
    rw [happen_asksList hn.1, hn.2]
    rfl
  have hlong : n.Outgrows (asksList fairSocket) := by
    refine ⟨_, unpack_fitting fits_ask, rfl, ?_⟩
    rw [hn.2]
    exact long_outgrown
  refine ⟨?_, long_outgrown, hsends, hn.1, happen_of_outgrows measures_fairSocket hn.1 hlong⟩
  simp only [welcome, flood, asksList, List.cons_append, List.nil_append, List.forall_mem_cons]
  exact ⟨⟨trivial, measures_fairSocket⟩, ⟨hwelcome, measures_fairSocket⟩,
    ⟨trivial, measures_fairSocket⟩, ⟨trivial, measures_fairSocket⟩,
    ⟨fits_report, measures_fairSocket⟩, ⟨trivial, measures_fairSocket⟩,
    ⟨fits_ask, measures_fairSocket⟩, fun _ h => absurd h List.not_mem_nil⟩

end Node

end RingOverlay
