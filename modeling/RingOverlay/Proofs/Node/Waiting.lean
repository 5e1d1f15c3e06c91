import Mathlib.Data.List.Pairwise
import Mathlib.Logic.Relation
import RingOverlay.Proofs.Growth.Nodes
import RingOverlay.Proofs.Node.History

/-!
# Waiting for an Answer

A caller that has sent its question waits. It looks at the inbox, throws away what is
not for it, and sleeps until something new arrives or its time is up. In between it
also wakes up of its own accord, after a slice of time, only to find that it has to go on
sleeping.

A `Wait` is such a caller at one moment, with what is still to arrive, and `Wait.Step` is
one sleep. The moments do not determine the steps: when something arrives at the very
moment at which a slice ends, the caller may wake for the one or for the other.
`Flight.close` is what a wait should come to, and knows of no slices and no wakings: it
goes through what arrives, burst by burst, and the first reply that fits is the answer if
it came before the deadline.

The two agree. A wait that starts from a node that has just sent a question comes to an
end, and to what `close` says, however long the slices are. What lay in the inbox when
the question was sent has no part in it: that is gone. Replies that do not fit have no
part in it either, since `close` finds the first of those that do.

That a wait *leads* to something is the invariant: the question is under way, and what
lies in the inbox, together with what is still to arrive, closes the wait in that way.
Each step uses up a burst or some of the time that is left.

Two assumptions are needed of what arrives. Nothing arrives at the very deadline, where
it would depend on who is faster; and what arrives between two wakings fits into the
inbox.

## Main definitions

* `Burst`: Replies that arrive together.
* `Flight.close`: What a wait comes to.
* `Arrivals`: What may arrive after a question was sent.
* `Node.deliverAll`: What a burst leaves in the inbox.
* `Node.Waits`: A caller has to wait on.
* `Wait`, `Wait.Step`: A wait at one moment, and one sleep.
* `Wait.Leads`: The invariant.

## Theorems

* `close_eq_firstFit`: What a wait comes to is the first reply that fits.
* `poll_of_waits`: Who has to wait on throws away what is in the inbox.
* `Leads.step`: A step leads to the same, and uses something up.
* `Leads.over`: When the wait is over, it has come to what it led to.
* `Leads.acc`, `Leads.exists_over`: A wait comes to an end.
* `awaits_launch`: What comes of a question that was sent.
-/

namespace RingOverlay

/-- Replies that arrive together. -/
structure Burst where
  moment : Nat
  replies : List Reply
deriving DecidableEq, Repr

/-- Replies with the moments of their arrival, in order. -/
def timed (later : List Burst) : List (Nat × Reply) :=
  later.flatMap fun b => b.replies.map fun r => (b.moment, r)

-- No burst comes before the first of them.
theorem Burst.moment_le_of_sorted {b d : Burst} {later : List Burst}
    (h : ((b :: later).map Burst.moment).Pairwise (· ≤ ·)) (hd : d ∈ b :: later) :
    b.moment ≤ d.moment := by
  rcases List.mem_cons.mp hd with rfl | hd
  · exact Nat.le_refl _
  · exact (List.pairwise_cons.mp h).1 _ (List.mem_map_of_mem hd)

namespace Flight

/-- Whether a reply answers a question that was sent. -/
def fits (f : Flight) (k : Kind) (r : Reply) : Bool := r.seq = f.seq && r.kind = k

/-- What a wait comes to: when it ends, with which answer, and what is left in the
    inbox. -/
structure Close where
  moment : Nat
  answer : Option Reply
  inbox : List Reply
deriving DecidableEq, Repr

/-- The end of a wait in which nothing came. -/
def lapse (f : Flight) : Close := ⟨f.deadline, none, []⟩

/-- Of the replies that fit, the first that comes before the deadline, with its moment.
    Those that do not fit are left out before anything is looked at. -/
def firstFit? (f : Flight) (k : Kind) (later : List Burst) : Option (Nat × Reply) :=
  ((timed later).filter fun a => f.fits k a.2).find? fun a => a.1 < f.deadline

/-- What a wait comes to, if it is never interrupted. -/
def close (f : Flight) (k : Kind) : List Burst → Close
  | [] => f.lapse
  | b :: later =>
    if f.deadline ≤ b.moment then f.lapse
    else match Node.firstMatch f.seq k b.replies with
      | some (r, rest) => ⟨b.moment, some r, rest⟩
      | none => f.close k later

section Close

variable {f : Flight} {k : Kind} {b : Burst} {later : List Burst}

theorem close_of_late (h : f.deadline ≤ b.moment) : f.close k (b :: later) = f.lapse := by
  rw [close, if_pos h]

theorem close_of_match (h : b.moment < f.deadline) {r : Reply} {rest : List Reply}
    (hmatch : Node.firstMatch f.seq k b.replies = some (r, rest)) :
    f.close k (b :: later) = ⟨b.moment, some r, rest⟩ := by
  rw [close, if_neg (Nat.not_le.mpr h), hmatch]

theorem close_of_none (h : b.moment < f.deadline)
    (hnone : Node.firstMatch f.seq k b.replies = none) :
    f.close k (b :: later) = f.close k later := by
  rw [close, if_neg (Nat.not_le.mpr h), hnone]

-- If whatever comes next comes too late, nothing comes.
theorem close_of_head_late (h : ∀ b ∈ later.head?, f.deadline ≤ b.moment) :
    f.close k later = f.lapse := by
  cases later with
  | nil => rfl
  | cons b later => exact close_of_late (h b rfl)

-- While a caller sleeps nothing arrives: it is as if an empty burst had.
theorem close_of_empty {moment : Nat} (hmoment : moment ≤ f.deadline)
    (hnone : ∀ b ∈ later.head?, moment ≤ b.moment) :
    f.close k (⟨moment, []⟩ :: later) = f.close k later := by
  rcases Nat.lt_or_eq_of_le hmoment with hearly | hdue
  · exact close_of_none hearly rfl
  · rw [close_of_late (Nat.le_of_eq hdue.symm), close_of_head_late]
    rwa [← hdue]

theorem fst_firstMatch (f : Flight) (k : Kind) (replies : List Reply) :
    (Node.firstMatch f.seq k replies).map Prod.fst = replies.find? (f.fits k) := by
  induction replies with
  | nil => rfl
  | cons r rest ih =>
      simp only [Node.firstMatch, List.find?_cons, fits]
      cases hfits : decide (r.seq = f.seq) && decide (r.kind = k) with
      | true => rfl
      | false => exact ih

-- Nothing that comes from the deadline on is in time.
theorem firstFit?_of_late (hsorted : ((b :: later).map Burst.moment).Pairwise (· ≤ ·))
    (h : f.deadline ≤ b.moment) : f.firstFit? k (b :: later) = none := by
  refine List.find?_eq_none.mpr fun a ha => ?_
  rcases List.mem_flatMap.mp (List.mem_of_mem_filter ha) with ⟨d, hd, ha⟩
  rcases List.mem_map.mp ha with ⟨r, _, rfl⟩
  rw [decide_eq_true_eq]
  exact Nat.not_lt.mpr (Nat.le_trans h (Burst.moment_le_of_sorted hsorted hd))

-- What comes before the deadline is looked at before what comes after it.
theorem firstFit?_cons (h : b.moment < f.deadline) :
    f.firstFit? k (b :: later) =
      ((b.replies.find? (f.fits k)).map fun r => (b.moment, r)).or (f.firstFit? k later) := by
  have hhead : ((b.replies.map fun r => (b.moment, r)).filter fun a => f.fits k a.2).find?
      (fun a => a.1 < f.deadline) =
        (b.replies.find? (f.fits k)).map fun r => (b.moment, r) := by
    rw [List.find?_filter, List.find?_map]
    congr 2
    funext r
    simp [h]
  rw [firstFit?, timed, List.flatMap_cons, List.filter_append, List.find?_append, hhead]
  rfl

/-- A wait comes to the first reply that fits and comes before the deadline. -/
theorem close_eq_firstFit (hsorted : (later.map Burst.moment).Pairwise (· ≤ ·)) :
    ((f.close k later).moment, (f.close k later).answer) =
      (f.firstFit? k later).elim (f.deadline, none) fun a => (a.1, some a.2) := by
  induction later with
  | nil => rfl
  | cons b later ih =>
      by_cases hlate : f.deadline ≤ b.moment
      · rw [close_of_late hlate, firstFit?_of_late hsorted hlate]
        rfl
      · have hearly := Nat.lt_of_not_le hlate
        rw [firstFit?_cons hearly, ← fst_firstMatch]
        cases hmatch : Node.firstMatch f.seq k b.replies with
        | some found =>
            rw [close_of_match hearly hmatch]
            rfl
        | none =>
            rw [close_of_none hearly hmatch]
            exact ih (List.pairwise_cons.mp hsorted).2

end Close

end Flight

namespace Node

/-- The node after replies have been delivered. -/
def deliverAll (n : Node) (replies : List Reply) : Node :=
  replies.foldl (fun n r => (n.deliver r).1) n

/-- A caller has a question under way, there is time left, and nothing in the inbox
    answers it. -/
structure Waits (n : Node) (now : Nat) (c : Caller) (q : Question) (f : Flight)
    (waiting : List Ticket) : Prop where
  line : n.line = ⟨c, q, some f⟩ :: waiting
  early : now < f.deadline
  nothing : firstMatch f.seq q.expects n.inbox = none

end Node

/-- What may arrive after a question was sent, in order: nothing before that, nothing at
    the very deadline, and never more at once than the inbox holds. -/
structure Arrivals (now : Nat) (f : Flight) (later : List Burst) : Prop where
  sorted : (later.map Burst.moment).Pairwise (· ≤ ·)
  since : ∀ b ∈ later, now ≤ b.moment
  off : ∀ b ∈ later, b.moment ≠ f.deadline
  room : ∀ b ∈ later, b.replies.length ≤ inboxSize

/-- Later on, what has not arrived yet may still arrive. -/
theorem Arrivals.later {now moment : Nat} {f : Flight} {later : List Burst}
    (h : Arrivals now f later) (hnone : ∀ b ∈ later.head?, moment ≤ b.moment) :
    Arrivals moment f later where
  sorted := h.sorted
  since := by
    cases later with
    | nil => exact fun d hd => absurd hd List.not_mem_nil
    | cons b later =>
        exact fun d hd => Nat.le_trans (hnone b rfl) (Burst.moment_le_of_sorted h.sorted hd)
  off := h.off
  room := h.room

theorem Arrivals.tail {now : Nat} {f : Flight} {b : Burst} {later : List Burst}
    (h : Arrivals now f (b :: later)) : Arrivals b.moment f later where
  sorted := (List.pairwise_cons.mp h.sorted).2
  since := fun _ hd => Burst.moment_le_of_sorted h.sorted (List.mem_cons_of_mem b hd)
  off := fun d hd => h.off d (List.mem_cons_of_mem b hd)
  room := fun d hd => h.room d (List.mem_cons_of_mem b hd)

namespace Node

section Poll

variable {n : Node} {now : Nat} {c : Caller} {q : Question} {f : Flight}
  {waiting : List Ticket} {refuses : Refusals}

/-- What fits into an empty inbox is all delivered. -/
theorem deliverAll_eq (n : Node) {replies : List Reply}
    (h : n.inbox.length + replies.length ≤ inboxSize) :
    n.deliverAll replies = { n with inbox := n.inbox ++ replies } := by
  induction replies generalizing n with
  | nil => rw [List.append_nil]; rfl
  | cons r rest ih =>
      rw [List.length_cons] at h
      have hroom : n.inbox.length < inboxSize := by omega
      have hone : (n.deliver r).1 = { n with inbox := n.inbox ++ [r] } := by
        rw [deliver, if_pos hroom]
      have hrest := ih { n with inbox := n.inbox ++ [r] } (by
        simp only [List.length_append, List.length_singleton]
        omega)
      rw [List.append_assoc, List.singleton_append] at hrest
      rw [deliverAll, List.foldl_cons, hone]
      exact hrest

/-- Who has to wait on throws away what is in the inbox. -/
theorem poll_of_waits (h : n.Waits now c q f waiting) (refuses : Refusals) :
    n.poll refuses now c = ({ n with inbox := [] }, []) := by
  simp only [poll, h.line, ne_eq, not_true_eq_false, if_false, Nat.not_le.mpr h.early, h.nothing]

/-- The caller goes on with what its wait has come to. -/
def goOn (n : Node) (refuses : Refusals) (c : Caller) (q : Question) (f : Flight)
    (waiting : List Ticket) (w : Flight.Close) : Node × List Effect :=
  { n with inbox := w.inbox }.resolve refuses w.moment ⟨c, q, some f⟩ waiting w.answer

/-- That is the turn after its question, with what came for an answer, and the next in line
    is called. -/
theorem goOn_eq (n : Node) (refuses : Refusals) (c : Caller) (q : Question) (f : Flight)
    (waiting : List Ticket) (w : Flight.Close) :
    let r := ({ n with inbox := w.inbox, line := waiting } : Node).follow refuses w.moment c
      (q.resume n.settings n.view w.answer)
    n.goOn refuses c q f waiting w = (r.1, callHead waiting ++ r.2) := rfl

/-- The question is sent under a number of its own, and the inbox is empty then. -/
theorem launch_eq (n : Node) (now : Nat) (c : Caller) (q : Question) (waiting : List Ticket)
    (hsend : refuses q.target (Wire.pack (.new n.nextSeq q.body)) = none) :
    n.launch refuses now c q waiting =
      ({ n with
          nextSeq := n.nextSeq + 1
          inbox := []
          line := ⟨c, q, some ⟨n.nextSeq, now + n.settings.responseTimeout⟩⟩ :: waiting },
        [.send q.target (.new n.nextSeq q.body)]) := by
  rw [launch, dispatch, hsend]

end Poll

end Node

/-- A caller's wait at one moment, and what is still to arrive. -/
structure Wait where
  node : Node
  now : Nat
  later : List Burst

namespace Wait

/-- The caller need not wait on: it has found an answer, or its time is up. -/
def Over (x : Wait) (c : Caller) : Prop := ∀ q f waiting, ¬ x.node.Waits x.now c q f waiting

/-- A caller that has to wait on has thrown away what was in the inbox. It sleeps until the
    next burst arrives, but no longer than a slice of time and not beyond its deadline. -/
inductive Step (slice : Nat) (refuses : Refusals) (c : Caller) : Wait → Wait → Prop where
  | wakes {x : Wait} {b : Burst} {later : List Burst} {q : Question} {f : Flight}
      {waiting : List Ticket} (h : x.node.Waits x.now c q f waiting) (hlater : x.later = b :: later)
      (hnext : b.moment ≤ min f.deadline (x.now + slice)) :
      Step slice refuses c x
        ⟨(x.node.poll refuses x.now c).1.deliverAll b.replies, b.moment, later⟩
  | dozes {x : Wait} {q : Question} {f : Flight} {waiting : List Ticket}
      (h : x.node.Waits x.now c q f waiting)
      (hnone : ∀ b ∈ x.later.head?, min f.deadline (x.now + slice) ≤ b.moment) :
      Step slice refuses c x
        ⟨(x.node.poll refuses x.now c).1, min f.deadline (x.now + slice), x.later⟩

/-- Any number of steps. -/
abbrev Reaches (slice : Nat) (refuses : Refusals) (c : Caller) : Wait → Wait → Prop :=
  Relation.ReflTransGen (Step slice refuses c)

/-- What there is left to wait for: bursts, and time. -/
def rest (f : Flight) (x : Wait) : Nat := x.later.length + (f.deadline - x.now)

/-- A caller's question is under way, and what lies in the inbox, together with what is
    still to arrive, closes its wait in a certain way. Nothing lies in the inbox when the
    time is up. -/
structure Leads (x : Wait) (n : Node) (c : Caller) (q : Question) (f : Flight)
    (waiting : List Ticket) (w : Flight.Close) : Prop where
  node : x.node = { n with inbox := x.node.inbox }
  line : n.line = ⟨c, q, some f⟩ :: waiting
  left : x.now < f.deadline ∨ x.now = f.deadline ∧ x.node.inbox = []
  arrivals : Arrivals x.now f x.later
  close : f.close q.expects (⟨x.now, x.node.inbox⟩ :: x.later) = w

section Run

variable {x y : Wait} {n : Node} {c : Caller} {q : Question} {f : Flight}
  {waiting : List Ticket} {w : Flight.Close} {refuses : Refusals} {slice : Nat}

-- Only one question heads the line.
theorem Leads.eq_of_line (h : x.Leads n c q f waiting w) {p : Question} {g : Flight}
    {behind : List Ticket} (hline : x.node.line = ⟨c, p, some g⟩ :: behind) :
    p = q ∧ g = f ∧ behind = waiting := by
  rw [h.node] at hline
  have hsame := hline.symm.trans h.line
  simp only [List.cons.injEq, Ticket.mk.injEq, Option.some.injEq, true_and] at hsame
  exact ⟨hsame.1.1, hsame.1.2, hsame.2⟩

/-- A step leads to the same, and uses up a burst or some of the time that is left. -/
theorem Leads.step (hslice : 0 < slice) (h : x.Leads n c q f waiting w)
    (hstep : Step slice refuses c x y) : y.Leads n c q f waiting w ∧ y.rest f < x.rest f := by
  have hclose := h.close
  cases hstep with
  | @wakes b later p g behind hwaits hlater hnext =>
      rcases h.eq_of_line hwaits.line with ⟨rfl, rfl, rfl⟩
      rw [Flight.close_of_none hwaits.early hwaits.nothing, hlater] at hclose
      have harrivals : Arrivals x.now g (b :: later) := hlater ▸ h.arrivals
      have hsince := harrivals.since b List.mem_cons_self
      have hearly : b.moment < g.deadline :=
        Nat.lt_of_le_of_ne (Nat.le_trans hnext (Nat.min_le_left _ _))
          (harrivals.off b List.mem_cons_self)
      -- What arrives is all that lies in the inbox when the caller wakes.
      have hwoken : (x.node.poll refuses x.now c).1.deliverAll b.replies =
          { n with inbox := b.replies } := by
        rw [Node.poll_of_waits hwaits, h.node]
        exact Node.deliverAll_eq { n with inbox := [] } (by
          simpa using harrivals.room b List.mem_cons_self)
      rw [hwoken]
      refine ⟨⟨rfl, h.line, Or.inl hearly, harrivals.tail, hclose⟩, ?_⟩
      simp only [rest, hlater, List.length_cons]
      omega
  | @dozes p g behind hwaits hnone =>
      rcases h.eq_of_line hwaits.line with ⟨rfl, rfl, rfl⟩
      rw [Flight.close_of_none hwaits.early hwaits.nothing] at hclose
      have hearly := hwaits.early
      have hmoment : min g.deadline (x.now + slice) ≤ g.deadline := Nat.min_le_left _ _
      have hdozed : (x.node.poll refuses x.now c).1 = { n with inbox := [] } := by
        rw [Node.poll_of_waits hwaits, h.node]
      rw [hdozed]
      refine ⟨⟨rfl, h.line, ?_, h.arrivals.later hnone, ?_⟩, ?_⟩
      · exact (Nat.lt_or_eq_of_le hmoment).imp id fun hdue => ⟨hdue, rfl⟩
      · exact (Flight.close_of_empty hmoment hnone).trans hclose
      · simp only [rest]
        omega

theorem Leads.reaches (hslice : 0 < slice) (h : x.Leads n c q f waiting w)
    (hreach : Reaches slice refuses c x y) : y.Leads n c q f waiting w := by
  induction hreach with
  | refl => exact h
  | tail _ hstep ih => exact (ih.step hslice hstep).1

/-- When the wait is over, it has come to what it led to. -/
theorem Leads.over (h : x.Leads n c q f waiting w) (hover : x.Over c) (refuses : Refusals) :
    x.now = w.moment ∧ x.node.poll refuses x.now c = n.goOn refuses c q f waiting w := by
  have hgoOn : n.goOn refuses c q f waiting w = x.node.goOn refuses c q f waiting w := by
    rw [h.node]
    rfl
  have hclose := h.close
  have hpoll := Node.polls_poll refuses x.now x.node c
  rw [hgoOn]
  -- Of all that may come of the chance to go on, what is left is a lapse or a find.
  generalize x.node.poll refuses x.now c = r at hpoll ⊢
  cases hpoll with
  | turnedAway haway =>
      rw [h.node, h.line] at haway
      exact absurd rfl (haway _ rfl)
  | sends hline =>
      rw [h.node] at hline
      cases hline.symm.trans h.line
  | lapses hline hdue =>
      rcases h.eq_of_line hline with ⟨rfl, rfl, rfl⟩
      rw [Flight.close_of_late hdue] at hclose
      rcases h.left with hearly | ⟨hnow, hempty⟩
      · exact absurd hdue (Nat.not_le.mpr hearly)
      · rw [← hclose, Node.goOn, Flight.lapse, ← hempty, ← hnow]
        exact ⟨rfl, rfl⟩
  | finds hfinds =>
      rcases h.eq_of_line hfinds.line with ⟨rfl, rfl, rfl⟩
      rw [Flight.close_of_match hfinds.early hfinds.first] at hclose
      rw [← hclose]
      exact ⟨rfl, rfl⟩
  | waits hline hearly hnone => exact absurd ⟨hline, hearly, hnone⟩ (hover _ _ _)

/-- A caller that has to wait on can: it sleeps until something arrives, or else until its
    slice or its time is up. -/
theorem exists_step (hover : ¬ x.Over c) (slice : Nat) (refuses : Refusals) :
    ∃ y, Step slice refuses c x y := by
  simp only [Over, not_forall, not_not] at hover
  rcases hover with ⟨q, f, waiting, hwaits⟩
  by_cases hnone : ∀ b ∈ x.later.head?, min f.deadline (x.now + slice) ≤ b.moment
  · exact ⟨_, .dozes hwaits hnone⟩
  · cases hlater : x.later with
    | nil =>
        rw [hlater] at hnone
        exact absurd (fun b hb => absurd hb (by simp)) hnone
    | cons b later =>
        have hnext : b.moment < min f.deadline (x.now + slice) := by
          simpa [hlater] using hnone
        exact ⟨_, .wakes hwaits hlater (Nat.le_of_lt hnext)⟩

/-- A wait cannot go on for ever. -/
theorem Leads.acc (hslice : 0 < slice) (h : x.Leads n c q f waiting w) (refuses : Refusals) :
    Acc (fun y x => Step slice refuses c x y) x := by
  induction hrest : x.rest f using Nat.strong_induction_on generalizing x with
  | _ size ih =>
      refine ⟨x, fun y hstep => ?_⟩
      rcases h.step hslice hstep with ⟨hy, hless⟩
      exact ih (y.rest f) (hrest ▸ hless) hy rfl

/-- A wait can always come to its end. -/
theorem Leads.exists_over (hslice : 0 < slice) (h : x.Leads n c q f waiting w)
    (refuses : Refusals) :
    ∃ y, Reaches slice refuses c x y ∧ y.Over c := by
  have hacc := h.acc hslice refuses
  induction hacc with
  | intro x _ ih =>
      by_cases hover : x.Over c
      · exact ⟨x, .refl, hover⟩
      · rcases exists_step hover slice refuses with ⟨y, hstep⟩
        rcases ih y hstep (h.step hslice hstep).1 with ⟨z, hreach, hz⟩
        exact ⟨z, .head hstep hreach, hz⟩

/-- A caller whose turn it is sends its question and waits. It sends it once, under the next
    number. Whatever lay in the inbox then is gone: the wait would be the same without it.

    Whatever the slices are in which the caller sleeps, the wait cannot go on for ever, it
    can come to an end from wherever it stands, and there is just one end that it can come
    to: the caller leaves the line to those who wait behind it, and takes the turn that its
    question takes with the answer. Of the replies that fit, the answer is the first that
    comes before its time is up, and the turn is taken at the moment at which that reply
    comes; if there is none the turn is taken without an answer, at the very moment at which
    its time is up. If it has no time, that is at once. -/
theorem awaits_launch (slice : Nat) (refuses : Refusals) (n : Node) (now : Nat) (c : Caller)
    (q : Question) (waiting : List Ticket) (later : List Burst) (hslice : 0 < slice)
    (hsend : refuses q.target (Wire.pack (.new n.nextSeq q.body)) = none)
    (hlater : Arrivals now ⟨n.nextSeq, now + n.settings.responseTimeout⟩ later) :
    let f : Flight := ⟨n.nextSeq, now + n.settings.responseTimeout⟩
    let asked := n.launch refuses now c q waiting
    let x : Wait := ⟨asked.1, now, later⟩
    let w := f.close q.expects later
    let turn := q.resume n.settings n.view w.answer
    let gone : Node := { asked.1 with inbox := w.inbox, line := waiting }
    let r := gone.follow refuses w.moment c turn
    asked.2 = [.send q.target (.new f.seq q.body)] ∧
      (∀ inbox, ({ n with inbox := inbox } : Node).launch refuses now c q waiting = asked) ∧
      Acc (fun z y => Step slice refuses c y z) x ∧
      (∀ y, Reaches slice refuses c x y →
        (∃ z, Reaches slice refuses c y z ∧ z.Over c) ∧
          (y.Over c → y.now = w.moment ∧
            y.node.poll refuses y.now c = (r.1, Node.callHead waiting ++ r.2))) ∧
      (w.moment, w.answer) =
        (f.firstFit? q.expects later).elim (f.deadline, none) (fun a => (a.1, some a.2)) ∧
      (n.settings.responseTimeout = 0 → (w.moment, w.answer) = (now, none)) := by
  intro f asked x w turn gone r
  have hasked : asked = _ := Node.launch_eq n now c q waiting hsend
  have hgone : asked.1.goOn refuses c q f waiting w = (r.1, Node.callHead waiting ++ r.2) := by
    simp only [Node.goOn_eq, r, gone, turn, hasked]
  have hnow : now ≤ f.deadline := Nat.le_add_right _ _
  have hnone : ∀ b ∈ later.head?, now ≤ b.moment :=
    fun b hb => hlater.since b (List.mem_of_mem_head? hb)
  have hx : x.Leads asked.1 c q f waiting w := by
    refine ⟨rfl, ?_, ?_, hlater, ?_⟩
    · rw [hasked]
    · exact (Nat.lt_or_eq_of_le hnow).imp id fun hdue => ⟨hdue, congrArg (·.1.inbox) hasked⟩
    · have hempty : x.node.inbox = [] := congrArg (·.1.inbox) hasked
      rw [hempty]
      exact Flight.close_of_empty hnow hnone
  refine ⟨congrArg Prod.snd hasked, fun inbox => ?_, hx.acc hslice refuses, fun y hreach => ?_,
    Flight.close_eq_firstFit hlater.sorted, fun hzero => ?_⟩
  · exact (Node.launch_eq { n with inbox := inbox } now c q waiting hsend).trans hasked.symm
  · have hy := hx.reaches hslice hreach
    exact ⟨hy.exists_over hslice refuses, fun hover => hgone ▸ hy.over hover refuses⟩
  · have hdue : f.deadline = now := by
      simp only [f, hzero, Nat.add_zero]
    have hlapse : w = f.lapse :=
      Flight.close_of_head_late fun b hb => hdue ▸ hnone b hb
    rw [hlapse, Flight.lapse, hdue]

end Run

/-- A node that waits longer than a slice. The answer to a question that it has not asked
    yet lies in its inbox. -/
def patient : Node :=
  { Node.bound { responseTimeout := 2500 } .early 7 with
    inbox := [⟨7, .predecessor, .late, false, []⟩] }

/-- What arrives while it waits: an answer to the question before, an answer of another
    kind at the end of a slice, and at last the one it waits for, with a second one. -/
def trickle : List Burst :=
  [⟨400, [⟨6, .predecessor, .late, false, []⟩]⟩,
    ⟨1000, [⟨7, .alive, Contact.unset, false, []⟩]⟩,
    ⟨1700, [⟨7, .predecessor, .early, false, []⟩, ⟨7, .predecessor, .late, false, []⟩]⟩]

/-- The node goes on with the first answer that fits, and finds the second behind it. -/
theorem patient_waits :
    let asked := patient.launch openSocket 0 (.holder 0) (.probe .middle) []
    let question := Wire.pack (.new 7 .askPredecessor)
    let gone : Node :=
      { asked.1 with inbox := [⟨7, .predecessor, .late, false, []⟩], line := [] }
    0 < 1000 ∧ openSocket Contact.middle.endpoint question = none ∧
      Arrivals 0 ⟨7, 2500⟩ trickle ∧
      asked.2 = [.send Contact.middle.endpoint (.new 7 .askPredecessor)] ∧
      ∃ z, Reaches 1000 openSocket (.holder 0) ⟨asked.1, 0, trickle⟩ z ∧ z.now = 1700 ∧
        z.node.poll openSocket z.now (.holder 0) =
          gone.follow openSocket 1700 (.holder 0) ((Question.probe .middle).resume
            patient.settings patient.view (some ⟨7, .predecessor, .early, false, []⟩)) := by
  intro asked question gone
  have harrivals : Arrivals 0 ⟨7, 2500⟩ trickle :=
    ⟨by decide, by decide, by decide, by decide⟩
  rcases awaits_launch 1000 openSocket patient 0 (.holder 0) (.probe .middle) [] trickle
    (by decide) rfl harrivals with ⟨hsent, _, _, hends, _, _⟩
  rcases (hends _ .refl).1 with ⟨z, hreach, hover⟩
  have hz := (hends z hreach).2 hover
  exact ⟨by decide, rfl, harrivals, hsent, z, hreach, hz.1, hz.2⟩

end Wait

end RingOverlay
