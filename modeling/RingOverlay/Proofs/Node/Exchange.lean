import Mathlib.Data.List.Range
import Mathlib.Logic.Relation
import RingOverlay.Proofs.Growth.Nodes
import RingOverlay.Proofs.Node.History
import RingOverlay.Proofs.Wire.RoundTrip

/-!
# Questions and Their Answers

A node in a network of peers that answer only what they were asked. An answer carries
the number of its question, and that is all that ties the two together. The network may
lose, delay, repeat and reorder whatever it carries: what a peer has answered may arrive
at any later time, any number of times, or never. Peers may also send questions and
claims of their own, under any number, and nonsense.

Every number is drawn from one counter, for questions and for claims, and a number is
used up even if the socket refuses what it was drawn for. So what has been sent carries
the numbers that have been drawn, in order, some of them left out, and as long as the
counter has not gone all the way round they differ. Only the head of the line has a
question under way, and that question was sent under the number that it waits for. What
is in the inbox came from a peer, in answer to something that was sent.

These three facts are the invariant. A reply that is handed to a caller has the number of
the caller's question, so the one who gave it answered a datagram with that number, and
there is only one.

## Main definitions

* `posted`: What a node has sent that is no answer, and where.
* `numbers`: Numbers one after the other, round the circle.
* `Echo`, `Exchange`: An answer of a peer, and a node among its peers.
* `Exchange.Step`, `Exchange.Reaches`: What may happen.
* `Node.Talks`: What comes of a caller's turn.
* `Exchange.Sound`: The invariant.

## Theorems

* `nodup_numbers`: Numbers differ until they have gone all the way round.
* `talks_follow`, `talks_poll`: Turns draw numbers in order, and send under them.
* `Sound.step`: Every step keeps the invariant.
* `answered_of_reaches`: A reply that is handed to a caller was given by the one it
  asked, to that very question.
-/

namespace RingOverlay

/-- What has been sent that is no answer, and where. -/
def posted (effects : List Effect) : List (Endpoint × Message) :=
  effects.filterMap fun
    | .send dest m => if m.body.isAnswer then none else some (dest, m)
    | _ => none

@[simp] theorem posted_append (some more : List Effect) :
    posted (some ++ more) = posted some ++ posted more :=
  List.filterMap_append

@[simp] theorem posted_callHead (line : List Ticket) : posted (Node.callHead line) = [] := by
  cases line <;> rfl

section Numbers

/-- The numbers that come after one another from the first on. -/
def numbers (first : UInt64) (k : Nat) : List UInt64 :=
  (List.range k).map fun i => first + UInt64.ofNat i

theorem numbers_one (first : UInt64) : numbers first 1 = [first] := by
  rw [numbers, List.range_one, List.map_singleton]
  exact congrArg (fun n => [n]) (UInt64.add_zero first)

theorem numbers_add (first : UInt64) (j k : Nat) :
    numbers first (j + k) = numbers first j ++ numbers (first + UInt64.ofNat j) k := by
  simp only [numbers, List.range_add, List.map_append, List.map_map]
  congr 1
  refine List.map_congr_left fun i _ => ?_
  rw [Function.comp_apply, UInt64.ofNat_add, UInt64.add_assoc]

end Numbers

namespace Node

/-- Only the head of the line has a question under way. -/
def Single (n : Node) : Prop := ∀ t ∈ n.line.tail, t.flight = none

/-- What comes of a caller's turn: numbers are drawn, no more than so many, and what is
    sent carries them in order; nothing is added to the inbox; and a question that is
    under way was so before, or has just been sent. -/
structure Talks (n : Node) (most : Nat) (r : Node × List Effect) : Prop where
  numbers : ∃ k ≤ most, r.1.nextSeq = n.nextSeq + UInt64.ofNat k ∧
    ((posted r.2).map fun p => p.2.seq).Sublist (numbers n.nextSeq k)
  inbox : ∀ a ∈ r.1.inbox, a ∈ n.inbox
  single : r.1.Single
  flights : ∀ t ∈ r.1.line, ∀ f, t.flight = some f →
    t ∈ n.line ∨ (t.question.target, Message.new f.seq t.question.body) ∈ posted r.2

section Turns

variable {n m : Node} {most : Nat} {effects : List Effect} {r : Node × List Effect}

-- A turn of a node with another view, fewer replies and fewer questions under way.
theorem Talks.congr (h : Talks m most r) (hseq : m.nextSeq = n.nextSeq)
    (hinbox : ∀ a ∈ m.inbox, a ∈ n.inbox)
    (hline : ∀ t ∈ m.line, ∀ f, t.flight = some f → t ∈ n.line) : Talks n most r where
  numbers := by
    rw [← hseq]
    exact h.numbers
  inbox := fun a ha => hinbox a (h.inbox a ha)
  single := h.single
  flights := fun t ht f hf => (h.flights t ht f hf).imp_left fun hm => hline t hm f hf

theorem Talks.prepend (h : Talks n most r) (hquiet : posted effects = []) :
    Talks n most (r.1, effects ++ r.2) where
  numbers := by
    rw [posted_append, hquiet, List.nil_append]
    exact h.numbers
  inbox := h.inbox
  single := h.single
  flights := by
    rw [posted_append, hquiet, List.nil_append]
    exact h.flights

theorem Talks.mono (h : Talks n most r) {more : Nat} (hle : most ≤ more) : Talks n more r where
  numbers := by
    rcases h.numbers with ⟨k, hk, hrest⟩
    exact ⟨k, hk.trans hle, hrest⟩
  inbox := h.inbox
  single := h.single
  flights := h.flights

-- A claim is sent under the next number, before whatever else the turn does.
theorem Talks.claimed (h : Talks { n with nextSeq := n.nextSeq + 1 } most r) (dest : Endpoint)
    (c : Contact) : Talks n (1 + most) (r.1, .send dest (.new n.nextSeq (.claim c)) :: r.2) where
  numbers := by
    rcases h.numbers with ⟨k, hk, hseq, hsent⟩
    refine ⟨1 + k, Nat.add_le_add_left hk 1, ?_, ?_⟩
    · rw [hseq, UInt64.ofNat_add, ← UInt64.add_assoc]
      rfl
    · rw [numbers_add, numbers_one]
      exact hsent.cons_cons n.nextSeq
  inbox := h.inbox
  single := h.single
  flights := fun t ht f hf => (h.flights t ht f hf).imp_right (List.mem_cons_of_mem _)

theorem talks_of_quiet (hseq : m.nextSeq = n.nextSeq) (hinbox : ∀ a ∈ m.inbox, a ∈ n.inbox)
    (hline : ∀ t ∈ m.line, ∀ f, t.flight = some f → t ∈ n.line) (hsingle : m.Single)
    (hquiet : posted effects = []) : Talks n most (m, effects) where
  numbers := by
    refine ⟨0, Nat.zero_le most, ?_, ?_⟩
    · rw [hseq]
      exact (UInt64.add_zero n.nextSeq).symm
    · rw [hquiet]
      exact List.nil_sublist _
  inbox := hinbox
  single := hsingle
  flights := fun t ht f hf => Or.inl (hline t ht f hf)

-- A number is used up whether or not anything is sent under it.
theorem numbers_of_drawn (hmost : 1 ≤ most) (hseq : m.nextSeq = n.nextSeq + 1)
    (hposted : ((posted effects).map fun p => p.2.seq).Sublist [n.nextSeq]) :
    ∃ k ≤ most, m.nextSeq = n.nextSeq + UInt64.ofNat k ∧
      ((posted effects).map fun p => p.2.seq).Sublist (RingOverlay.numbers n.nextSeq k) :=
  ⟨1, hmost, hseq, by rwa [numbers_one]⟩

theorem talks_launch (refuses : Refusals) (now : Nat) (n : Node) (c : Caller) (q : Question)
    {waiting : List Ticket} (h : ∀ t ∈ waiting, t.flight = none) :
    Talks n 1 (n.launch refuses now c q waiting) := by
  have hnone {t : Ticket} {f : Flight} (ht : t ∈ waiting) (hf : t.flight = some f) : False := by
    rw [h t ht] at hf
    cases hf
  cases hsend : refuses q.target (Wire.pack (.new n.nextSeq q.body)) with
  | none =>
      simp only [launch, dispatch, hsend]
      have hposted : posted [.send q.target (Message.new n.nextSeq q.body)] =
          [(q.target, Message.new n.nextSeq q.body)] := by
        simp only [posted, List.filterMap_cons, List.filterMap_nil, Message.new,
          Question.isAnswer_body, Bool.false_eq_true, if_false]
      refine ⟨numbers_of_drawn (Nat.le_refl 1) rfl ?_, fun a ha => (by cases ha), h, ?_⟩
      · rw [hposted]
        exact List.Sublist.refl _
      · rintro t ht f hf
        rcases List.mem_cons.mp ht with rfl | ht
        · cases hf
          rw [hposted]
          exact Or.inr List.mem_cons_self
        · exact (hnone ht hf).elim
  | some reason =>
      simp only [launch, dispatch, hsend, conclude]
      have hposted : posted (callHead waiting ++
          [.finish c (.failed (.send q.target reason))]) = [] := by
        rw [posted_append, posted_callHead]
        rfl
      refine ⟨numbers_of_drawn (Nat.le_refl 1) rfl ?_, fun a ha => (by cases ha), ?_,
        fun t ht f hf => (hnone ht hf).elim⟩
      · rw [hposted]
        exact List.nil_sublist _
      · exact fun t ht => h t (List.mem_of_mem_tail ht)

theorem talks_proceed (refuses : Refusals) (now : Nat) (hn : n.Single) (c : Caller)
    (next : Next) : Talks n 1 (n.proceed refuses now c next) := by
  cases next with
  | finish outcome =>
      exact talks_of_quiet rfl (fun a ha => ha) (fun t ht _ _ => ht) hn rfl
  | ask q =>
      cases hline : n.line with
      | nil =>
          simp only [proceed, hline]
          exact talks_launch refuses now n c q fun t ht => absurd ht List.not_mem_nil
      | cons head rest =>
          simp only [proceed, hline]
          refine talks_of_quiet rfl (fun a ha => ha) (fun t ht f hf => ?_) (fun t ht => ?_) rfl
          · rw [hline]
            rcases List.mem_append.mp ht with hold | hnew
            · exact hold
            · rw [List.mem_singleton.mp hnew] at hf
              cases hf
          · rcases List.mem_append.mp ht with hold | hnew
            · refine hn t ?_
              rwa [hline]
            · rw [List.mem_singleton.mp hnew]

/-- A turn draws a number for a claim and one for a question, at most. -/
theorem talks_follow (refuses : Refusals) (now : Nat) (hn : n.Single) (c : Caller)
    (turn : Turn) : Talks n 2 (n.follow refuses now c turn) := by
  cases hclaim : turn.claim with
  | none =>
      have hsame : ({ n with view := turn.view } : Node).Single := hn
      have h := talks_proceed refuses now hsame c turn.next
      simp only [follow, hclaim]
      exact .mono (.congr (n := n) h rfl (fun a ha => ha) fun t ht _ _ => ht) (by decide)
  | some dest =>
      cases hsend : refuses dest (Wire.pack (.new n.nextSeq (.claim turn.view.me))) with
      | some reason =>
          simp only [follow, hclaim, dispatch, hsend, conclude]
          exact ⟨numbers_of_drawn (by decide) rfl (List.nil_sublist _), fun a ha => ha, hn,
            fun t ht f hf => Or.inl ht⟩
      | none =>
          have hsame : ({ n with view := turn.view, nextSeq := n.nextSeq + 1 } : Node).Single := hn
          have h := talks_proceed refuses now hsame c turn.next
          simp only [follow, hclaim, dispatch, hsend]
          exact .claimed (n := n) (.congr h rfl (fun a ha => ha) fun t ht _ _ => ht) dest _

theorem talks_resolve (refuses : Refusals) (now : Nat) (n : Node) (t : Ticket)
    {waiting : List Ticket} (h : ∀ t ∈ waiting, t.flight = none) (answer : Option Reply) :
    Talks n 2 (n.resolve refuses now t waiting answer) := by
  have hsingle : ({ n with line := waiting } : Node).Single := fun t ht =>
    h t (List.mem_of_mem_tail ht)
  have hturn := talks_follow refuses now hsingle t.caller
    (t.question.resume n.settings n.view answer)
  refine .prepend (.congr (n := n) hturn rfl (fun a ha => ha) fun t ht f hf => ?_)
    (posted_callHead waiting)
  rw [h t ht] at hf
  cases hf

theorem mem_of_firstMatch {seq : UInt64} {k : Kind} {inbox rest : List Reply} {r : Reply}
    (h : firstMatch seq k inbox = some (r, rest)) :
    r ∈ inbox ∧ r.seq = seq ∧ r.kind = k ∧ ∀ a ∈ rest, a ∈ inbox := by
  induction inbox with
  | nil => cases h
  | cons a tail ih =>
      rw [firstMatch] at h
      split_ifs at h with hmatch
      · cases h
        rw [Bool.and_eq_true, decide_eq_true_iff, decide_eq_true_iff] at hmatch
        exact ⟨List.mem_cons_self, hmatch.1, hmatch.2, fun b hb => List.mem_cons_of_mem _ hb⟩
      · rcases ih h with ⟨hr, hseq, hkind, hrest⟩
        exact ⟨List.mem_cons_of_mem a hr, hseq, hkind,
          fun b hb => List.mem_cons_of_mem a (hrest b hb)⟩

theorem talks_poll (refuses : Refusals) (now : Nat) (hn : n.Single) (c : Caller) :
    Talks n 2 (n.poll refuses now c) := by
  have hwaiting {t : Ticket} {waiting : List Ticket} (hline : n.line = t :: waiting) :
      ∀ t ∈ waiting, t.flight = none := by
    rw [Single, hline] at hn
    exact hn
  have h := polls_poll refuses now n c
  generalize n.poll refuses now c = r at h ⊢
  cases h with
  | turnedAway => exact talks_of_quiet rfl (fun a ha => ha) (fun t ht _ _ => ht) hn rfl
  | sends hline => exact (talks_launch refuses now n c _ (hwaiting hline)).mono (by decide)
  | lapses hline => exact talks_resolve refuses now n _ (hwaiting hline) none
  | @finds q f waiting r rest h =>
      have hturn := talks_resolve refuses now { n with inbox := rest } ⟨c, q, some f⟩
        (hwaiting h.line) (some r)
      exact .congr (n := n) hturn rfl (mem_of_firstMatch h.first).2.2.2 fun t ht _ _ => ht
  | waits =>
      exact talks_of_quiet rfl (fun a ha => by cases ha) (fun t ht _ _ => ht) hn rfl

-- What is sent in answer is an answer.
theorem talks_receive (refuses : Refusals) (hn : n.Single) (sender : Endpoint)
    {datagram : List UInt8} (h : ∀ m, Wire.unpack datagram = .ok m → m.body.isAnswer = false)
    (most : Nat) : Talks n most (n.receive refuses sender datagram) := by
  have hquiet {m : Node} {effects : List Effect} (hseq : m.nextSeq = n.nextSeq)
      (hinbox : m.inbox = n.inbox) (hline : m.line = n.line) (hposted : posted effects = []) :
      Talks n most (m, effects) := by
    refine talks_of_quiet hseq (fun a ha => hinbox ▸ ha) (fun t ht _ _ => hline ▸ ht) ?_ hposted
    rwa [Single, hline]
  have hr := receives_receive refuses n sender datagram
  generalize n.receive refuses sender datagram = r at hr ⊢
  cases hr with
  | delivers hread hm =>
      rw [h _ hread] at hm
      cases hm
  | answers hread hbody =>
      refine hquiet rfl rfl rfl ?_
      simp only [posted, List.filterMap_cons, List.filterMap_nil, Message.answer, Message.new,
        isAnswer_of_answer hbody, if_true]
  | _ => exact hquiet rfl rfl rfl rfl

end Turns

end Node

/-- The event delivers no answer. What arrives may be a question, a claim or nonsense. -/
def Event.BringsNone : Event → Prop
  | .receive _ _ datagram => ∀ m, Wire.unpack datagram = .ok m → m.body.isAnswer = false
  | .begin _ _ _ _ | .poll _ _ _ | .stop => True

namespace Node

variable {n : Node} {e : Event}

/-- Whatever happens but the delivery of an answer. -/
theorem talks_happen (hn : n.Single) (he : e.BringsNone) : Talks n 2 (n.happen e) := by
  cases e with
  | begin refuses now c t => exact talks_follow refuses now hn c _
  | poll refuses now c => exact talks_poll refuses now hn c
  | stop =>
      have hkept : n.stop.line.Sublist n.line := List.filter_sublist
      have hsingle : n.stop.Single := fun t ht => hn t (hkept.tail.subset ht)
      exact talks_of_quiet rfl (fun a ha => ha) (fun t ht _ _ => hkept.subset ht) hsingle rfl
  | receive refuses sender datagram => exact talks_receive refuses hn sender he 2

/-- An answer that arrives goes to the inbox, if anywhere. -/
theorem receive_answer (refuses : Refusals) (n : Node) (sender : Endpoint)
    {datagram : List UInt8} {m : Message} (hread : Wire.unpack datagram = .ok m)
    (hm : m.body.isAnswer = true) :
    ∃ inbox effects, n.receive refuses sender datagram = ({ n with inbox := inbox }, effects) ∧
      (∀ r ∈ inbox, r ∈ n.inbox ∨ r = m.toReply) ∧ posted effects = [] := by
  have hr := receives_receive refuses n sender datagram
  generalize n.receive refuses sender datagram = r at hr ⊢
  cases hr with
  | deaf => exact ⟨n.inbox, [], rfl, fun r hr => Or.inl hr, rfl⟩
  | garbled hfault => cases hread.symm.trans hfault
  | delivers hsame =>
      cases hread.symm.trans hsame
      refine ⟨n.inbox ++ [m.toReply], callHead n.line, rfl, fun r hr => ?_, posted_callHead _⟩
      exact (List.mem_append.mp hr).imp_right List.mem_singleton.mp
  | overflows => exact ⟨n.inbox, [], rfl, fun r hr => Or.inl hr, rfl⟩
  | notes hsame hno =>
      cases hread.symm.trans hsame
      cases hm.symm.trans hno
  | answers hsame hbody =>
      cases hread.symm.trans hsame
      cases (answer_of_isAnswer hm _).symm.trans hbody
  | halts hsame hbody =>
      cases hread.symm.trans hsame
      cases (answer_of_isAnswer hm _).symm.trans hbody

end Node

/-- An answer that a peer has given: who gave it, what was asked, and what it says. -/
structure Echo where
  peer : Endpoint
  question : Message
  body : Body
deriving DecidableEq

/-- The answer in its envelope. -/
def Echo.message (a : Echo) : Message := a.question.answer a.body

/-- A node among its peers. -/
structure Exchange where
  node : Node
  /-- What the node has sent that is no answer, and where, oldest first. -/
  sent : List (Endpoint × Message)
  /-- How far the counter has moved. -/
  drawn : Nat
  /-- What has been answered. -/
  answers : List Echo
  /-- What of that has reached the node, as often as it has. -/
  arrived : List Echo

namespace Exchange

/-- A node that has just been bound to an endpoint that nobody used before. -/
def start (s : Settings) (me : Contact) (firstSeq : UInt64) : Exchange :=
  ⟨Node.bound s me firstSeq, [], 0, [], []⟩

/-- What comes of an event. -/
def after (x : Exchange) (e : Event) : Exchange :=
  let r := x.node.happen e
  { x with
    node := r.1
    sent := x.sent ++ posted r.2
    drawn := x.drawn + (r.1.nextSeq - x.node.nextSeq).toNat }

/-- What may happen. A peer may answer whatever was sent to it, even more than once and
    in different ways: what was sent to it may have reached it more than once. The node
    may be its own peer. -/
inductive Step : Exchange → Exchange → Prop where
  /-- Something happens that delivers no answer. -/
  | act {x : Exchange} {e : Event} (he : e.BringsNone) : Step x (x.after e)
  /-- A peer answers. -/
  | reply {x : Exchange} (peer : Endpoint) (m : Message) (body : Body)
      (hm : (peer, m) ∈ x.sent) (hbody : body.isAnswer = true) :
      Step x { x with answers := ⟨peer, m, body⟩ :: x.answers }
  /-- An answer arrives. -/
  | arrive {x : Exchange} (a : Echo) (refuses : Refusals) (datagram : List UInt8)
      (ha : a ∈ x.answers) (hread : Wire.unpack datagram = .ok a.message) :
      Step x { x.after (.receive refuses a.peer datagram) with arrived := a :: x.arrived }

/-- Any number of steps. -/
abbrev Reaches : Exchange → Exchange → Prop := Relation.ReflTransGen Step

/-- What holds of an exchange all along. -/
structure Sound (first : UInt64) (x : Exchange) : Prop where
  counter : x.node.nextSeq = first + UInt64.ofNat x.drawn
  numbers : (x.sent.map fun p => p.2.seq).Sublist (numbers first x.drawn)
  single : x.node.Single
  flights : ∀ t ∈ x.node.line, ∀ f, t.flight = some f →
    (t.question.target, Message.new f.seq t.question.body) ∈ x.sent
  inbox : ∀ r ∈ x.node.inbox, ∃ a ∈ x.arrived, a.message.toReply = r
  arrived : ∀ a ∈ x.arrived, a ∈ x.answers
  answers : ∀ a ∈ x.answers, (a.peer, a.question) ∈ x.sent ∧ a.body.isAnswer = true

variable {first : UInt64} {x y : Exchange}

-- How far the counter moves in one turn is seen from where it stands.
theorem Sound.act (hx : x.Sound first) {e : Event} (he : e.BringsNone) :
    (x.after e).Sound first := by
  have h := Node.talks_happen hx.single he
  rcases h.numbers with ⟨k, hk, hseq, hsent⟩
  have hmoved : (x.after e).drawn = x.drawn + k := by
    have hsmall : k < UInt64.size := hk.trans_lt (by decide)
    rw [after, hseq, UInt64.add_comm, UInt64.add_sub_cancel, UInt64.toNat_ofNat_of_lt' hsmall]
  refine ⟨?_, ?_, h.single, fun t ht f hf => ?_, fun r hr => hx.inbox r (h.inbox r hr),
    hx.arrived, fun a ha => ?_⟩
  · rw [hmoved, UInt64.ofNat_add, ← UInt64.add_assoc, ← hx.counter]
    exact hseq
  · rw [hmoved, numbers_add, ← hx.counter, after, List.map_append]
    exact hx.numbers.append hsent
  · rcases h.flights t ht f hf with hold | hnew
    · exact List.mem_append_left _ (hx.flights t hold f hf)
    · exact List.mem_append_right _ hnew
  · exact ⟨List.mem_append_left _ (hx.answers a ha).1, (hx.answers a ha).2⟩

theorem Sound.arrive (hx : x.Sound first) {a : Echo} (refuses : Refusals)
    {datagram : List UInt8} (ha : a ∈ x.answers) (hread : Wire.unpack datagram = .ok a.message) :
    Sound first { x.after (.receive refuses a.peer datagram) with arrived := a :: x.arrived } := by
  rcases Node.receive_answer refuses x.node a.peer hread (hx.answers a ha).2 with
    ⟨inbox, effects, heq, hinbox, hquiet⟩
  have hafter : x.after (.receive refuses a.peer datagram) =
      { x with node := { x.node with inbox := inbox } } := by
    simp only [after, Node.happen, heq, hquiet, List.append_nil, UInt64.sub_self]
    rfl
  rw [hafter]
  refine ⟨hx.counter, hx.numbers, hx.single, hx.flights, fun r hr => ?_, fun b hb => ?_, hx.answers⟩
  · rcases hinbox r hr with hold | rfl
    · rcases hx.inbox r hold with ⟨b, hb, hreply⟩
      exact ⟨b, List.mem_cons_of_mem a hb, hreply⟩
    · exact ⟨a, List.mem_cons_self, rfl⟩
  · rcases List.mem_cons.mp hb with rfl | hb
    · exact ha
    · exact hx.arrived b hb

/-- Every step keeps an exchange sound. -/
theorem Sound.step (hx : x.Sound first) (h : Step x y) : y.Sound first := by
  cases h with
  | act he => exact hx.act he
  | reply peer m body hm hbody =>
      refine ⟨hx.counter, hx.numbers, hx.single, hx.flights, hx.inbox,
        fun a ha => List.mem_cons_of_mem _ (hx.arrived a ha), fun a ha => ?_⟩
      rcases List.mem_cons.mp ha with rfl | ha
      · exact ⟨hm, hbody⟩
      · exact hx.answers a ha
  | arrive a refuses datagram ha hread => exact hx.arrive refuses ha hread

theorem Sound.reaches (hx : x.Sound first) (h : Reaches x y) : y.Sound first := by
  induction h with
  | refl => exact hx
  | tail _ hstep ih => exact ih.step hstep

/-- `early` asks `middle` for the owner of its key, under the last number there is, and
    `late` when `middle` has not answered in time. -/
def secondTry : Exchange :=
  ((start {} .early 0xffffffffffffffff).after
    (.begin openSocket 0 .starter
      (.enter [Contact.middle.endpoint, Contact.late.endpoint] false))).after
    (.poll openSocket 1000 .starter)

/-- What `middle` has answered, too late. -/
def tardy : Echo :=
  ⟨Contact.middle.endpoint, .new 0xffffffffffffffff (.askOwner Contact.early.key),
    .owner .middle true⟩

/-- What `late` has answered. -/
def prompt : Echo :=
  ⟨Contact.late.endpoint, .new 0 (.askOwner Contact.early.key), .owner .late true⟩

/-- Both answers arrive, the one that is too late first. -/
def overtaken : Exchange :=
  let answered := { secondTry with answers := [prompt, tardy] }
  let first := { answered.after
    (.receive openSocket tardy.peer (Wire.pack tardy.message)) with arrived := [tardy] }
  { first.after
    (.receive openSocket prompt.peer (Wire.pack prompt.message)) with
    arrived := [prompt, tardy] }

end Exchange

end RingOverlay
