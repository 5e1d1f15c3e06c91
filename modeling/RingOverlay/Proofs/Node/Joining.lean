import RingOverlay.Proofs.Node.Service

/-!
# Claims That Are Made While a Node Joins

A node receives from the moment it is bound, and so while it looks for its place in a ring.
It believes the nearest of those who claim to come before it as at any other time. Then the
lookup finds an owner, and the view that the node has from there on is a new one: its
successor is that owner, and nobody comes before it. Whoever has claimed in the meantime is
forgotten, and has to claim again.

An endpoint that does not help leaves no trace, so it is only the last step of a join that
does this. After it, claims count as ever. The predecessor is then the nearest of those who
have claimed since, which is the nearest of all if each of those who claimed before has done
so again.

## Main definitions

* `Event.Starting`: What may happen to a node that its starter has not handed out yet.
* `Node.joins`: Whom a node follows that has found its place in an event.
* `Node.hears`, `Node.heardAlong`: Who claims, in an event and in a history.
* `Node.Joining`: A node that has nothing to ask but for its place.

## Theorems

* `Nearest.key_eq_append_iff`: When the nearest of some is the nearest of all.
* `hears_receive`: A datagram bears on nothing that is asked or believed, but for the claim
  in it.
* `enters_resume`: An answer shows the node its place, or leaves the view as it was.
* `joining_happen`: What an event does to a node that is joining.
* `view_live_of_joining`: Claims count for as long as the place has not been found.
* `claims_of_starting`: What becomes of the claims, before and after.
-/

namespace RingOverlay

/-- What may happen to a node that is not handed out yet: its callers get their chance to go
    on, and datagrams arrive. -/
def Event.Starting : Event → Prop
  | .poll _ _ _ | .receive _ _ _ => True
  | .begin _ _ _ _ | .stop => False

namespace Question

/-- A question of a node that is looking for its place in a ring. -/
def Enters : Question → Prop
  | hop h => h.start = none ∧ ∃ untried total alone, h.purpose = .enter untried total alone
  | _ => False

/-- The owner that the answer to a lookup names, if it names one. -/
def owner? (q : Question) (answer : Option Reply) : Option Contact :=
  match q with
  | hop h =>
    match judge h.id h.asked answer with
    | .found c => some c
    | _ => none
  | _ => none

end Question

theorem enters_approach {v : View} {total : Nat} {alone : Bool} {untried : List Endpoint}
    {q : Question} (h : (approach v total alone untried).next = .ask q) : q.Enters := by
  cases untried with
  | nil =>
      simp only [approach] at h
      split_ifs at h
  | cons e rest =>
      cases h
      exact ⟨rfl, rest, total, alone, rfl⟩

/-- An answer to somebody who looks for its place shows that place, and then nothing more is
    asked; or it leaves the view as it was, and there is at most a question of the same
    kind. -/
theorem enters_resume {q : Question} (hq : q.Enters) (s : Settings) (v : View)
    (answer : Option Reply) :
    (∃ c, q.owner? answer = some c ∧
        q.resume s v answer = { view := View.joined v.me c, next := .finish .done }) ∨
      q.owner? answer = none ∧ (q.resume s v answer).view = v ∧
        ∀ next, (q.resume s v answer).next = .ask next → next.Enters := by
  cases q with
  | hop h =>
      rcases h with ⟨id, asked, left, start, purpose⟩
      rcases hq with ⟨rfl, untried, total, alone, rfl⟩
      simp only [Question.owner?, Question.resume, Hop.resume, Hop.atStart, Option.filter_none]
      cases judge id asked answer with
      | found c => exact Or.inl ⟨c, rfl, rfl⟩
      | onward next =>
          refine Or.inr ⟨rfl, ?_⟩
          cases left with
          | zero => exact ⟨approach_view v total alone untried, fun _ => enters_approach⟩
          | succ left =>
              refine ⟨rfl, fun q hq => ?_⟩
              cases hq
              exact ⟨rfl, untried, total, alone, rfl⟩
      | failed f =>
          refine Or.inr ⟨rfl, ?_⟩
          cases answer <;>
            exact ⟨approach_view v total alone untried, fun _ => enters_approach⟩
  | _ => exact hq.elim

/-- The nearest of some contacts stands where the nearest of more contacts stands just if
    none of the others is nearer than all of the first. -/
theorem Nearest.key_eq_append_iff {id : Id} {cs ds : List Contact} {p q : Option Contact}
    (hp : Nearest id ds p) (hq : Nearest id (cs ++ ds) q) :
    p.map Contact.key = q.map Contact.key ↔
      ∀ c ∈ cs, ∃ d ∈ ds, Id.between d.key id ≤ Id.between c.key id := by
  constructor
  · intro hkey c hc
    have hmem := List.mem_append_left ds hc
    cases q with
    | none =>
        rw [show cs ++ ds = [] from hq] at hmem
        cases hmem
    | some d =>
        cases p with
        | none => cases hkey
        | some a =>
            have hak : a.key = d.key := Option.some.inj hkey
            exact ⟨a, hp.1, hak ▸ hq.2 c hmem⟩
  · intro houtdone
    refine Nearest.key_eq (fun _ => Iff.rfl) (?_ : Nearest id (cs ++ ds) p) hq
    cases p with
    | none =>
        have hds : ds = [] := hp
        have hcs : cs = [] := List.eq_nil_iff_forall_not_mem.mpr fun c hc => by
          rcases houtdone c hc with ⟨d, hd, _⟩
          rw [hds] at hd
          cases hd
        rw [hcs, hds]
        rfl
    | some a =>
        refine ⟨List.mem_append_right cs hp.1, fun c hc => ?_⟩
        rcases List.mem_append.mp hc with hfirst | hlater
        · rcases houtdone c hfirst with ⟨d, hd, hle⟩
          exact UInt64.le_trans (hp.2 d hd) hle
        · exact hp.2 c hlater

namespace Node

/-- Whom a node follows that finds its place in an event. -/
def joins (n : Node) (e : Event) : Option Contact := (n.resumed e).bind fun x => x.1.owner? x.2

/-- Who claims in an event to come before the node, if it hears that. -/
def hears (n : Node) : Event → List Contact
  | .receive _ sender datagram =>
    if n.running then (Datagram.claimant? ⟨sender, datagram⟩).toList else []
  | _ => []

/-- Who claims in the course of a history. -/
def heardAlong (n : Node) : List Event → List Contact
  | [] => []
  | e :: rest => n.hears e ++ (n.happen e).1.heardAlong rest

/-- A node that has nothing to ask but for its place, and not more than so much. -/
structure Joining (n : Node) (k : Nat) : Prop where
  bounded : n.questions.length ≤ k
  enters : ∀ q ∈ n.questions, q.Enters

section Step

variable {n : Node} {e : Event} {k : Nat}

theorem heard_eq_claimed {d : Datagram} {m : Message} (hread : Wire.unpack d.bytes = .ok m)
    (v : View) : v.heard m.body = v.claimed d.claimant?.toList := by
  rw [Datagram.claimant?, Datagram.body?_of_ok hread]
  rcases m with ⟨version, seq, body⟩
  cases body <;> rfl

/-- A datagram bears on nothing that is asked, and on the view only by the claim in it. -/
theorem hears_receive (n : Node) (refuses : Refusals) (sender : Endpoint)
    (datagram : List UInt8) :
    let m := (n.receive refuses sender datagram).1
    m.questions = n.questions ∧
      m.view = n.view.claimed (n.hears (.receive refuses sender datagram)) := by
  cases hrunning : n.running with
  | false =>
      simp only [receive, hears, hrunning]
      exact ⟨rfl, rfl⟩
  | true =>
      have hreceives := receives_receive refuses n sender datagram
      simp only [hears, hrunning, if_true]
      generalize n.receive refuses sender datagram = r at hreceives ⊢
      have hheard {m : Message} (hread : Wire.unpack datagram = .ok m) :=
        heard_eq_claimed (d := ⟨sender, datagram⟩) hread n.view
      cases hreceives with
      | deaf hdeaf => cases hrunning.symm.trans hdeaf
      | garbled hread =>
          rw [Datagram.claimant?, Datagram.body?_of_error hread]
          exact ⟨rfl, rfl⟩
      | delivers hread hm =>
          rw [claimant?_of_isAnswer hread hm]
          exact ⟨rfl, rfl⟩
      | overflows hread hm =>
          rw [claimant?_of_isAnswer hread hm]
          exact ⟨rfl, rfl⟩
      | notes hread => exact ⟨rfl, hheard hread⟩
      | answers hread => exact ⟨rfl, hheard hread⟩
      | halts hread => exact ⟨rfl, hheard hread⟩

theorem idles_of_not_resumed {refuses : Refusals} {now : Nat} {c : Caller}
    (h : n.resumed (.poll refuses now c) = none) : n.Idles (n.poll refuses now c) := by
  have hpolls := polls_poll refuses now n c
  generalize n.poll refuses now c = r at hpolls ⊢
  cases hpolls with
  | turnedAway => exact idles_of_same rfl rfl rfl fun _ _ hm => absurd hm List.not_mem_nil
  | sends hline => exact (tries_launch refuses now n c _ _).idles (by rw [questions, hline]; rfl)
  | lapses hline hdue =>
      rw [resumed_eq_some.mpr ⟨refuses, now, c, _, _, rfl, hline, Or.inl ⟨rfl, hdue⟩⟩] at h
      cases h
  | finds hfinds =>
      rw [resumed_eq_some.mpr
        ⟨refuses, now, c, _, _, rfl, hfinds.line, Or.inr ⟨_, _, rfl, hfinds⟩⟩] at h
      cases h
  | waits => exact idles_of_same rfl rfl rfl fun _ _ hm => absurd hm List.not_mem_nil

theorem Joining.of_sublist {m : Node} (h : n.Joining k) (hm : m.questions.Sublist n.questions) :
    m.Joining k :=
  ⟨Nat.le_trans hm.length_le h.bounded, fun q hq => h.enters q (hm.subset hq)⟩

-- A node that is joining goes on with an answer, or without one.
theorem joining_resumed (h : n.Joining k) {q : Question} {answer : Option Reply}
    (hended : n.resumed e = some (q, answer)) :
    (∃ c, q.owner? answer = some c ∧ (n.happen e).1.view = View.joined n.view.me c ∧
        (n.happen e).1.Joining (k - 1)) ∨
      q.owner? answer = none ∧ (n.happen e).1.view = n.view ∧ (n.happen e).1.Joining k := by
  have hcomes := comes_happen n e
  rw [hended] at hcomes
  generalize n.happen e = r at hcomes ⊢
  cases hcomes with
  | ended _ waiting _ hquestions hcarries =>
      have hbound := h.bounded
      have henters := h.enters
      rw [hquestions, List.length_cons] at hbound
      rw [hquestions, List.forall_mem_cons] at henters
      rcases enters_resume henters.1 n.settings n.view answer with
        ⟨c, howner, hturn⟩ | ⟨howner, hview, hnext⟩
      · rw [hturn] at hcarries
        have hleft : r.1.questions = waiting := by
          rcases hcarries.questions with heq | ⟨next, hask, _⟩
          · exact heq
          · cases hask
        refine Or.inl ⟨c, howner, hcarries.view, ?_, ?_⟩ <;> rw [hleft]
        · omega
        · exact henters.2
      · refine Or.inr ⟨howner, hcarries.view.trans hview, ?_⟩
        rcases hcarries.questions with heq | ⟨next, hask, heq⟩
        · exact ⟨by rw [heq]; omega, by rw [heq]; exact henters.2⟩
        · refine ⟨by rw [heq, List.length_append]; exact hbound, fun q hq => ?_⟩
          rw [heq, List.mem_append, List.mem_singleton] at hq
          rcases hq with hold | rfl
          · exact henters.2 q hold
          · exact hnext q hask

/-- A node that is joining finds its place and has nothing left to ask, or hears a claim or
    none and is joining still. -/
theorem joining_happen (h : n.Joining k) (he : e.Starting) :
    (∃ c, n.joins e = some c ∧ (n.happen e).1.view = View.joined n.view.me c ∧
        (n.happen e).1.Joining (k - 1)) ∨
      n.joins e = none ∧ (n.happen e).1.view = n.view.claimed (n.hears e) ∧
        (n.happen e).1.Joining k := by
  cases e with
  | begin refuses now c t => exact he.elim
  | stop => exact he.elim
  | receive refuses sender datagram =>
      rcases n.hears_receive refuses sender datagram with ⟨hquestions, hview⟩
      exact Or.inr ⟨rfl, hview, h.of_sublist (by rw [happen, hquestions])⟩
  | poll refuses now c =>
      cases hended : n.resumed (.poll refuses now c) with
      | none =>
          have hidle := idles_of_not_resumed hended
          exact Or.inr ⟨by rw [joins, hended, Option.bind_none], hidle.view,
            h.of_sublist hidle.questions⟩
      | some ended =>
          rw [joins, hended, Option.bind_some]
          exact joining_resumed h hended

-- Whoever has nothing left to ask finds nothing any more.
theorem joins_of_joining_zero (h : n.Joining 0) (e : Event) : n.joins e = none := by
  cases hended : n.resumed e with
  | none => rw [joins, hended, Option.bind_none]
  | some ended =>
      rcases resumed_eq_some.mp hended with ⟨_, _, c, f, waiting, _, hline, _⟩
      have hbound := h.bounded
      rw [questions, hline, List.map_cons, List.length_cons] at hbound
      omega

end Step

section Run

variable {n : Node} {e : Event} {events : List Event} {k : Nat}

/-- Claims count for as long as the place has not been found. The induction is on the
    history, from any node that is joining. -/
theorem view_live_of_joining (h : n.Joining k) (hevents : ∀ e ∈ events, e.Starting)
    (hnone : ∀ past e, past ++ [e] <+: events → (n.live past).1.joins e = none) :
    (n.live events).1.view = n.view.claimed (n.heardAlong events) ∧
      (n.live events).1.Joining k := by
  induction events generalizing n with
  | nil => exact ⟨rfl, h⟩
  | cons e rest ih =>
      have hnow : n.joins e = none := hnone [] e (List.prefix_append [e] rest)
      rcases joining_happen h (hevents e List.mem_cons_self) with ⟨c, hc, _⟩ | ⟨_, hview, hnext⟩
      · cases hc.symm.trans hnow
      · have hrest := ih hnext (fun e' he' => hevents e' (List.mem_cons_of_mem e he'))
          fun past e' hpast => hnone (e :: past) e' (List.cons_prefix_cons.mpr ⟨rfl, hpast⟩)
        rw [live_cons, heardAlong, View.claimed_append, ← hview]
        exact hrest

theorem joining_live (h : n.Joining k) (hevents : ∀ e ∈ events, e.Starting) :
    (n.live events).1.Joining k := by
  refine (live_keep (fun m => m.Joining k) (fun _ => True) (fun m hm e he => ⟨?_, ?_⟩) h).1
  · rcases joining_happen hm (hevents e he) with ⟨_, _, _, hnext⟩ | ⟨_, _, hnext⟩
    · exact ⟨Nat.le_trans hnext.bounded (Nat.sub_le k 1), hnext.enters⟩
    · exact hnext
  · exact fun _ _ => trivial

-- Once the place has been found nothing is asked any more, and so they all count.
theorem view_live_of_joining_zero (h : n.Joining 0) (hevents : ∀ e ∈ events, e.Starting) :
    (n.live events).1.view = n.view.claimed (n.heardAlong events) := by
  refine (view_live_of_joining h hevents fun past e hpast => ?_).1
  exact joins_of_joining_zero (joining_live h fun e' he' =>
    hevents e' (hpast.subset (List.mem_append_left [e] he'))) e

-- A place is found only once.
theorem joins_before (h : n.Joining 1) (hevents : ∀ e ∈ events, e.Starting) {last : Event}
    {c : Contact} (hlast : (n.live events).1.joins last = some c) :
    ∀ past e, past ++ [e] <+: events → (n.live past).1.joins e = none := by
  rintro past e ⟨rest, rfl⟩
  refine Option.eq_none_iff_forall_ne_some.mpr fun d hd => ?_
  have hpast : (n.live past).1.Joining 1 := joining_live h fun e' he' => hevents e' (by simp [he'])
  rcases joining_happen hpast (hevents e (by simp)) with ⟨_, _, _, hdone⟩ | ⟨hnone, _⟩
  · rw [← live_concat] at hdone
    have hover : (n.live (past ++ [e] ++ rest)).1.Joining 0 := by
      rw [live_append]
      exact joining_live hdone fun e' he' => hevents e' (List.mem_append_right _ he')
    cases (joins_of_joining_zero hover last).symm.trans hlast
  · cases hnone.symm.trans hd

/-- The view before a node finds its place, when it finds it, and afterwards. -/
theorem view_live_of_joins (h : n.Joining 1) {past future : List Event} {c : Contact}
    (hevents : ∀ e' ∈ past ++ e :: future, e'.Starting)
    (hjoins : (n.live past).1.joins e = some c) :
    (n.live past).1.view = n.view.claimed (n.heardAlong past) ∧
      (n.live (past ++ [e])).1.view = View.joined n.view.me c ∧
        (n.live (past ++ e :: future)).1.view =
          (View.joined n.view.me c).claimed ((n.live (past ++ [e])).1.heardAlong future) := by
  have hpast : ∀ e' ∈ past, e'.Starting := fun e' he' => hevents e' (List.mem_append_left _ he')
  have he : e.Starting := hevents e (by simp)
  rcases view_live_of_joining h hpast (joins_before h hpast hjoins) with ⟨hview, hjoining⟩
  rcases joining_happen hjoining he with ⟨d, hd, hfound, hdone⟩ | ⟨hnone, _⟩
  · cases hd.symm.trans hjoins
    rw [hview, View.claimed_eq] at hfound
    rw [← live_concat] at hfound hdone
    refine ⟨hview, hfound, ?_⟩
    rw [List.append_cons, live_append, view_live_of_joining_zero hdone fun e' he' =>
      hevents e' (by simp [he']), hfound]
  · cases hnone.symm.trans hjoins

end Run

/-- A node that looks for its place through some endpoints and nothing else has happened to. -/
def starting (s : Settings) (me : Contact) (firstSeq : UInt64) (refuses : Refusals) (now : Nat)
    (through : List Endpoint) (alone : Bool) : Node :=
  ((bound s me firstSeq).begin refuses now .starter (.enter through alone)).1

theorem joining_starting (s : Settings) (me : Contact) (firstSeq : UInt64) (refuses : Refusals)
    (now : Nat) (through : List Endpoint) (alone : Bool) :
    let n := starting s me firstSeq refuses now through alone
    n.view = View.alone me ∧ n.Joining 1 := by
  have hcarries := carries_follow refuses now (bound s me firstSeq) .starter
    (approach (View.alone me) through.length alone through)
  refine ⟨hcarries.view.trans (approach_view _ _ _ _), ?_⟩
  have hnone : (bound s me firstSeq).questions = [] := rfl
  rcases hcarries.questions with heq | ⟨q, hask, heq⟩ <;> rw [hnone] at heq
  · exact ⟨Nat.le_trans (Nat.le_of_eq (congrArg List.length heq)) (Nat.zero_le 1),
      fun q hq => absurd (heq ▸ hq) List.not_mem_nil⟩
  · refine ⟨Nat.le_of_eq (congrArg List.length heq), fun q' hq' => ?_⟩
    cases List.mem_singleton.mp (heq ▸ hq')
    exact enters_approach hask

/-- What becomes of the claims that a node hears while it looks for its place in a ring, which
    may take it any number of endpoints that do not help. As long as it has not found its place
    it believes the nearest of those who have claimed. When it finds it, it forgets its
    predecessor and follows the owner that it has found. From then on claims count again, and
    the predecessor is the nearest of those who have claimed since. It stands where it would
    stand if all claims had been made after the join just if for everybody who claimed before
    somebody at least as near has claimed since. -/
theorem claims_of_starting (s : Settings) (me : Contact) (firstSeq : UInt64) (refuses : Refusals)
    (now : Nat) (through : List Endpoint) (alone : Bool) (events : List Event)
    (hevents : ∀ e ∈ events, e.Starting) :
    let start := starting s me firstSeq refuses now through alone
    let node (past : List Event) : Node := (start.live past).1
    ((∀ past e, past ++ [e] <+: events → (node past).joins e = none) →
      (node events).view = (View.alone me).claimed (start.heardAlong events)) ∧
    ∀ past e future c, events = past ++ e :: future → (node past).joins e = some c →
      let before := start.heardAlong past
      let after := (node (past ++ [e])).heardAlong future
      (node past).view = (View.alone me).claimed before ∧
        (node (past ++ [e])).view =
          { (node past).view with predecessor := none, successor := c, successors := [c] } ∧
        (node events).view = (View.joined me c).claimed after ∧
        Nearest me.key (after.filter Contact.isRoutable) (node events).view.predecessor ∧
        ((node events).view.predecessor.map Contact.key =
            ((View.joined me c).claimed (before ++ after)).predecessor.map Contact.key ↔
          ∀ d ∈ before.filter Contact.isRoutable, ∃ a ∈ after.filter Contact.isRoutable,
            Id.between a.key me.key ≤ Id.between d.key me.key) := by
  intro start node
  rcases joining_starting s me firstSeq refuses now through alone with ⟨hview, hjoining⟩
  refine ⟨fun hnone => ?_, ?_⟩
  · rw [← hview]
    exact (view_live_of_joining hjoining hevents hnone).1
  · rintro past e future c rfl hjoins before after
    rcases view_live_of_joins hjoining hevents hjoins with ⟨hpast, hnow, hlast⟩
    rw [hview] at hpast hnow hlast
    have hlast : (node (past ++ e :: future)).view = (View.joined me c).claimed after := hlast
    -- Nobody is believed right after the join, so that only those who claim then count.
    have hnearest (cs : List Contact) : Nearest me.key (cs.filter Contact.isRoutable)
        ((View.joined me c).claimed cs).predecessor :=
      View.nearest_of_claims (View.joined me c) cs
    have hall := hnearest (before ++ after)
    rw [List.filter_append] at hall
    refine ⟨hpast, ?_, hlast, ?_, ?_⟩
    · rw [show (node past).view = _ from hpast, View.claimed_eq]
      exact hnow
    · rw [hlast]
      exact hnearest after
    · rw [hlast]
      exact (hnearest after).key_eq_append_iff hall

/-- `early` on its way into a ring, through `middle`. -/
def entrant : Node := starting {} .early 0 openSocket 0 [Contact.middle.endpoint] false

/-- `late` claims to come before somebody. -/
def lateClaims : Event :=
  .receive openSocket Contact.late.endpoint (Wire.pack (.new 0 (.claim .late)))

/-- The answer of `middle`: it is the owner itself. -/
def middleAnswers : Event :=
  .receive openSocket Contact.middle.endpoint (Wire.pack (.new 0 (.owner .middle true)))

/-- The claim was believed, and is forgotten when the answer has been read, although the same
    claim after the join would have counted. -/
theorem late_claims_in_vain :
    let past := [lateClaims, middleAnswers]
    let before := (entrant.live past).1
    let after := (entrant.live (past ++ [.poll openSocket 0 .starter])).1
    entrant.heardAlong past = [.late] ∧ before.view.predecessor = some .late ∧
      before.joins (.poll openSocket 0 .starter) = some .middle ∧
        after.view = View.joined .early .middle ∧ after.view.predecessor = none ∧
          ((View.joined .early .middle).claimed [.late]).predecessor = some .late := by
  decide +kernel

/-- If `late` claims again it counts, and nothing has been lost. -/
theorem late_claims_again :
    let events := [lateClaims, middleAnswers, .poll openSocket 0 .starter, lateClaims]
    (∀ e ∈ events, e.Starting) ∧
      (entrant.live events).1.view.predecessor.map Contact.key = some Contact.late.key := by
  intro events
  have hevents : ∀ e ∈ events, e.Starting := by
    intro e he
    simp only [events, List.mem_cons, List.not_mem_nil, or_false] at he
    rcases he with rfl | rfl | rfl | rfl <;> trivial
  have hbefore : entrant.heardAlong [lateClaims, middleAnswers] = [.late] := by decide +kernel
  have hafter : (entrant.live ([lateClaims, middleAnswers] ++
      [.poll openSocket 0 .starter])).1.heardAlong [lateClaims] = [.late] := by decide +kernel
  rcases (claims_of_starting {} .early 0 openSocket 0 [Contact.middle.endpoint] false events
    hevents).2 [lateClaims, middleAnswers] (.poll openSocket 0 .starter) [lateClaims] .middle rfl
      (by decide +kernel) with ⟨_, _, _, _, hplace⟩
  rw [← entrant, hbefore, hafter] at hplace
  have hkept := hplace.mpr fun d hd => ⟨d, hd, UInt64.le_refl _⟩
  beta_reduce at hkept
  refine ⟨hevents, ?_⟩
  rw [hkept]
  decide +kernel

end Node

end RingOverlay
