import RingOverlay.Proofs.Lookup.Course
import RingOverlay.Proofs.Node.Frames
import RingOverlay.Proofs.Node.Service
import RingOverlay.Proofs.Overlay

/-!
# The Same Lookup From Home and From Afar

There are two ways to look for the owner of a point through a node. The node itself reads its
own view, and asks somebody else only if that does not know the owner. Anybody else asks
the node first, and the node answers from the same view. So from afar a lookup makes one
question more, and after that question both are the same lookup. In a network where
nothing changes they ought to come to the same.

There are two differences. From afar, what the view says of the point arrives as an answer
and is judged like one; from home it is taken as it is. And the question that is made more
counts, so from afar there is one less for the rest. `found_from_afar_iff` says that there
are no others: from afar an owner is found just if it is found from home, with a question to
spare, and if what the view says is an answer that can be gone by.

That the answer gets through is not assumed. The question is packed, read by the node that
runs at its endpoint and answered from its view, and the reply is packed again, read, and
looked for among all that has arrived by its number and kind. None of this changes the
node. What is assumed is that everything arrives, and in time, or nothing ever does.

What a lookup comes to in such a network does not depend on who makes it, and so it is a
recursion on the questions that are allowed: `trail`. An allowance of one question more makes
no difference unless the smaller one is used up, and this is the only thing that has to be
known about it.

## Main definitions

* `Node.reply?`: The reply to a question, as it reaches the one who asked.
* `Standstill`: A network in which nothing changes.
* `Standstill.find`, `Standstill.findFrom`, `Standstill.enter`: A lookup from home, one
  from afar, and a node that enters a ring.
* `Standstill.trail`, `Standstill.homeTrail`: Whom a lookup asks and what it comes to.
* `Standstill.StartsAt`: What a lookup from afar needs where it starts.

## Theorems

* `take_askOwner`: A node that runs answers a question and is as it was.
* `treads_trail`: A lookup follows its trail.
* `enter_iff`: When a node enters a ring.
* `trail_succ`: What one question more may change.
* `trail_of_startsAt`: From afar it is the same trail, after the first question.
* `found_from_afar_iff`: The two lookups agree.
-/

namespace RingOverlay

namespace Node

/-- All that reaches an endpoint when a message from there has reached a node, as it is read
    on arrival. -/
def heardBack (n : Node) (asker : Endpoint) (m : Message) : List Reply :=
  (sends (n.take ⟨asker, Wire.pack m⟩).2).filterMap fun p =>
    if p.1 = asker then (Wire.unpack (Wire.pack p.2)).toOption.map Message.toReply else none

/-- The reply of a node to a question that is asked from an endpoint under a number. -/
def reply? (n : Node) (asker : Endpoint) (seq : UInt64) (q : Question) : Option Reply :=
  (firstMatch seq q.expects (n.heardBack asker (.new seq q.body))).map Prod.fst

-- A message that is no list is short enough to be read back.
theorem unpack_of_short {m : Message} (h : m.body.kind ≠ .successors) :
    Wire.unpack (Wire.pack m) = .ok m :=
  unpack_fitting (Wire.fits_of_kind_ne h)

/-- A node that runs answers a question about a point, and is as it was. -/
theorem take_askOwner {n : Node} (hn : n.running = true) (asker : Endpoint) (seq : UInt64)
    (id : Id) :
    n.take ⟨asker, Wire.pack (.new seq (.askOwner id))⟩ =
      (n, [.send asker (.new seq (.owner (n.view.lookup id).1 (n.view.lookup id).2))]) := by
  have hread : Wire.unpack (Wire.pack (.new seq (.askOwner id))) = .ok (.new seq (.askOwner id)) :=
    unpack_of_short Kind.noConfusion
  simp only [take, receive, hn, Bool.not_true, Bool.false_eq_true, if_false, hread]
  rfl

/-- The reply that a lookup waits for, with what a view says of the point. -/
def ownerReply (seq : UInt64) (named : Contact × Bool) : Reply :=
  (Message.new seq (.owner named.1 named.2)).toReply

theorem reply_hop {n : Node} (hn : n.running = true) (asker : Endpoint) (seq : UInt64) (h : Hop) :
    n.reply? asker seq (.hop h) = some (ownerReply seq (n.view.lookup h.id)) := by
  have hread : Wire.unpack
      (Wire.pack (.new seq (.owner (n.view.lookup h.id).1 (n.view.lookup h.id).2))) =
        .ok (.new seq (.owner (n.view.lookup h.id).1 (n.view.lookup h.id).2)) :=
    unpack_of_short Kind.noConfusion
  have hback : n.heardBack asker (.new seq (.askOwner h.id)) =
      [ownerReply seq (n.view.lookup h.id)] := by
    simp only [heardBack, take_askOwner hn, sends, List.filterMap_cons, List.filterMap_nil, if_true,
      hread, Except.toOption, Option.map_some, ownerReply]
  rw [reply?, Question.body, hback]
  simp only [firstMatch, ownerReply, Question.expects, Message.toReply, Message.new, decide_true,
    Bool.and_self, if_true, Option.map_some]

theorem reply_of_stopped {n : Node} (hn : n.running = false) (asker : Endpoint) (seq : UInt64)
    (q : Question) : n.reply? asker seq q = none := by
  have hdeaf : (n.take ⟨asker, Wire.pack (.new seq q.body)⟩).2 = [] := by
    rw [take, receive, hn]
    rfl
  rw [reply?, heardBack, hdeaf]
  rfl

end Node

/-- A network in which nothing changes: who is at an endpoint, if anybody is. Whoever is
    there and runs is always reached and always answers in time. -/
abbrev Standstill := Endpoint → Option Node

namespace Standstill

variable (S : Standstill)

/-- The others, as they are met by a node that numbers its questions in order. -/
def peers (j : Node) : Peers where
  refuses := fun _ _ => none
  answer := fun past q =>
    (S q.target).bind fun n => n.reply? j.home (j.nextSeq + UInt64.ofNat past.length) q

/-- What becomes of a turn that a node takes while nothing else happens there. -/
def carryOut (j : Node) (t : Turn) : Run := t.conduct j.settings (S.peers j) []

/-- A node looks for the owner of a point, starting from its own view. -/
def find (x : Node) (id : Id) : Run := S.carryOut x ((Task.find id).begin x.view)

/-- A node looks for the owner of a point, starting at an endpoint. -/
def findFrom (j : Node) (e : Endpoint) (id : Id) : Run :=
  S.carryOut j { view := j.view, next := .ask (.hop ⟨id, e, hopLimit - 1, none, .report⟩) }

/-- A node enters a ring through an endpoint. -/
def enter (j : Node) (e : Endpoint) : Run :=
  S.carryOut j ((Task.enter [e] false).begin j.view)

/-- What is said of a point at an endpoint, if anything is. -/
def tells (e : Endpoint) (id : Id) : Option (Contact × Bool) :=
  (S e).bind fun n => if n.running then some (n.view.lookup id) else none

/-- What that means to whoever asked. -/
def verdict (id : Id) (e : Endpoint) : Verdict :=
  judge id e ((S.tells e id).map (Node.ownerReply 0))

/-- Whom a lookup asks and what it comes to, with one question to an endpoint and the rest
    from wherever it goes from there. -/
def leg (id : Id) (e : Endpoint) (rest : Endpoint → List Endpoint × Finding) :
    List Endpoint × Finding :=
  match S.verdict id e with
  | .found c => ([e], .ok c)
  | .failed f => ([e], .error f)
  | .onward next => (e :: (rest next).1, (rest next).2)

/-- Whom a lookup asks that starts at an endpoint, and what it comes to, with so many
    questions allowed. -/
def trail (id : Id) : Nat → Endpoint → List Endpoint × Finding
  | 0, _ => ([], .error (.hopLimit id hopLimit))
  | n + 1, e => S.leg id e (trail id n)

/-- Whom a lookup asks that starts from a view, and what it comes to, with so many questions
    allowed. -/
def homeTrail (id : Id) (n : Nat) (v : View) : List Endpoint × Finding :=
  match v.lookup id with
  | (c, true) => ([], .ok c)
  | (c, false) => S.trail id n c.endpoint

/-- A lookup asks whom a trail names, and what is made of it is what the trail comes to. -/
def Treads (j : Node) (s : Settings) (v : View) (past : List Question) (h : Hop)
    (r : List Endpoint × Finding) : Prop :=
  ∃ qs, qs.map Question.target = r.1 ∧
    ({ view := v, next := .ask (.hop h) } : Turn).conduct s (S.peers j) past =
      ((h.purpose.conclude (v.cleared h.start r.2) r.2).conduct s (S.peers j) (past ++ qs)).after qs

/-- What a lookup from afar needs at the endpoint where it starts: the node is reached there,
    and what its view says of the point is an answer to go by. -/
structure StartsAt (x : Node) (e : Endpoint) (id : Id) : Prop where
  here : S e = some x
  running : x.running = true
  routable : (x.view.lookup id).1.isRoutable = true
  leads : (x.view.lookup id).2 = true ∨ (x.view.lookup id).1.endpoint ≠ e

variable {S} {x j : Node} {e : Endpoint} {id : Id}

-- The number under which a reply comes has no bearing on what it means.
theorem verdict_respond (S : Standstill) (j : Node) (past : List Question) (h : Hop) :
    ((S.peers j).respond past (.hop h)).verdict h.id h.asked = S.verdict h.id h.asked := by
  rw [respond_of_sent _ rfl, verdict, tells]
  simp only [peers, Question.target]
  cases S h.asked with
  | none => rfl
  | some n =>
      cases hn : n.running with
      | true =>
          simp only [Option.bind_some, Node.reply_hop hn, hn, if_true, Option.map_some]
          rfl
      | false =>
          simp only [Option.bind_some, Node.reply_of_stopped hn, hn, Bool.false_eq_true, if_false,
            Option.map_none]
          rfl

-- A lookup that is ended by the first response.
theorem leg_of_ends {past : List Question} {h : Hop} {result : Finding}
    (hends : ((S.peers j).respond past (.hop h)).Ends h.id h.asked result)
    (rest : Endpoint → List Endpoint × Finding) :
    S.leg h.id h.asked rest = ([h.asked], result) := by
  have hmeans := (verdict_respond S j past h).symm.trans (Response.verdict_of_ends hends)
  rw [leg, hmeans]
  cases result <;> rfl

-- One that is passed on.
theorem leg_of_passes {past : List Question} {h : Hop}
    (hpass : ((S.peers j).respond past (.hop h)).Passes h.asked)
    (rest : Endpoint → List Endpoint × Finding) :
    let r := rest (h.toward ((S.peers j).respond past (.hop h))).asked
    S.leg h.id h.asked rest = (h.asked :: r.1, r.2) := by
  have hmeans := verdict_respond S j past h
  rcases hpass.exists_reply with ⟨r, hr⟩
  rw [hr] at hpass hmeans ⊢
  rw [Response.verdict_of_passes hpass] at hmeans
  rw [leg, ← hmeans]
  rfl

theorem treads_of_ends {past : List Question} {h : Hop} {result : Finding}
    (hends : ((S.peers j).respond past (.hop h)).Ends h.id h.asked result) (s : Settings)
    (v : View) (n : Nat) : S.Treads j s v past h (S.trail h.id (n + 1) h.asked) := by
  rw [trail, leg_of_ends hends]
  refine ⟨[.hop h], rfl, ?_⟩
  rw [conduct_ask s _ past v (.hop h) rfl, Question.resume, resume_of_ends _ v rfl hends]

/-- A lookup follows its trail. -/
theorem treads_trail (S : Standstill) (j : Node) (s : Settings) (v : View) (left : Nat)
    (past : List Question) (h : Hop) (hleft : h.left = left) :
    S.Treads j s v past h (S.trail h.id (left + 1) h.asked) := by
  -- On the questions left. What a response that ends the lookup comes to does not depend on them.
  induction left generalizing past h with
  | zero =>
      rcases Response.passes_or_ends h.id h.asked ((S.peers j).respond past (.hop h)) with
        hpass | ⟨result, hends⟩
      · rw [trail, leg_of_passes hpass]
        refine ⟨[.hop h], rfl, ?_⟩
        rw [conduct_of_passes _ s v hpass, hleft]
        rfl
      · exact treads_of_ends hends s v 0
  | succ left ih =>
      rcases Response.passes_or_ends h.id h.asked ((S.peers j).respond past (.hop h)) with
        hpass | ⟨result, hends⟩
      · rcases ih (past ++ [.hop h]) (h.toward ((S.peers j).respond past (.hop h)))
          (Hop.toward_left hpass hleft) with ⟨qs, hqs, hrun⟩
        rw [Hop.toward_id] at hqs hrun
        rw [trail, leg_of_passes hpass]
        refine ⟨.hop h :: qs, congrArg (h.asked :: ·) hqs, ?_⟩
        rw [conduct_of_passes _ s v hpass, hleft]
        simp only []
        rw [hrun, Run.after_after, Hop.toward_purpose, Hop.toward_start, List.append_assoc]
        rfl
      · exact treads_of_ends hends s v (left + 1)

-- What a lookup reports that is made for its own sake.
theorem carryOut_report (S : Standstill) (j : Node) (v : View) (h : Hop)
    (hleft : h.left = hopLimit - 1) (hpurpose : h.purpose = .report) :
    let run := S.carryOut j { view := v, next := .ask (.hop h) }
    run.outcome = .ofFinding (S.trail h.id hopLimit h.asked).2 ∧
      run.asked.map Question.target = (S.trail h.id hopLimit h.asked).1 := by
  rcases treads_trail S j j.settings v (hopLimit - 1) [] h hleft with ⟨qs, hqs, hrun⟩
  rw [hpurpose, conclude_report, conduct_finish, Run.after, List.append_nil] at hrun
  simp only [carryOut, hrun]
  exact ⟨rfl, hqs⟩

theorem findFrom_trail (S : Standstill) (j : Node) (e : Endpoint) (id : Id) :
    (S.findFrom j e id).outcome = .ofFinding (S.trail id hopLimit e).2 ∧
      (S.findFrom j e id).asked.map Question.target = (S.trail id hopLimit e).1 :=
  carryOut_report S j j.view ⟨id, e, hopLimit - 1, none, .report⟩ rfl rfl

theorem find_trail (S : Standstill) (x : Node) (id : Id) :
    (S.find x id).outcome = .ofFinding (S.homeTrail id hopLimit x.view).2 ∧
      (S.find x id).asked.map Question.target = (S.homeTrail id hopLimit x.view).1 := by
  rw [find, Task.begin, homeTrail]
  rcases seek_cases x.view id .report with ⟨c, hl, hturn⟩ | ⟨c, hl, hturn⟩ <;> rw [hl, hturn]
  · rw [carryOut, Purpose.succeed, conduct_finish]
    exact ⟨rfl, rfl⟩
  · exact carryOut_report S x x.view ⟨id, c.endpoint, hopLimit - 1, some c, .report⟩ rfl rfl

/-- A node enters a ring just if the lookup of its own key from there finds an owner, and then
    it follows that one. -/
theorem enter_iff (S : Standstill) (j : Node) (e : Endpoint) (c : Contact) :
    (S.enter j e).outcome = .done ∧ (S.enter j e).view = View.joined j.view.me c ↔
      (S.trail j.view.key hopLimit e).2 = .ok c := by
  rcases treads_trail S j j.settings j.view (hopLimit - 1) []
    ⟨j.view.key, e, hopLimit - 1, none, .enter [] 1 false⟩ rfl with ⟨qs, _, hrun⟩
  have hent : S.enter j e = _ := hrun
  rw [hent, show hopLimit - 1 + 1 = hopLimit from rfl]
  cases (S.trail j.view.key hopLimit e).2 with
  | ok d =>
      rw [Purpose.conclude, Purpose.succeed, conduct_finish]
      constructor
      · rintro ⟨_, hview⟩
        exact congrArg Except.ok (congrArg View.successor hview)
      · intro hc
        cases hc
        exact ⟨rfl, rfl⟩
  | error f =>
      have hfails : ∃ g, (Purpose.enter [] 1 false).conclude (j.view.cleared none (.error f))
          (.error f) = { view := j.view.cleared none (.error f), next := .finish (.failed g) } := by
        cases f <;> exact ⟨_, rfl⟩
      rcases hfails with ⟨g, hg⟩
      simp only [hg, conduct_finish]
      constructor
      · rintro ⟨hdone, _⟩
        cases hdone
      · intro hc
        cases hc

/-- One question more makes no difference, unless the questions were used up. -/
theorem trail_succ (S : Standstill) (id : Id) (n : Nat) (e : Endpoint) :
    S.trail id (n + 1) e = S.trail id n e ∨
      (S.trail id n e).2 = .error (.hopLimit id hopLimit) ∧
        (S.trail id (n + 1) e).1.length = n + 1 := by
  induction n generalizing e with
  | zero =>
      refine Or.inr ⟨rfl, ?_⟩
      simp only [trail, leg]
      split <;> rfl
  | succ n ih =>
      rw [trail, trail, leg, leg]
      cases S.verdict id e with
      | found c => exact Or.inl rfl
      | failed f => exact Or.inl rfl
      | onward next =>
          rcases ih next with hsame | ⟨hspent, hlength⟩
          · exact Or.inl (by simp only [hsame])
          · exact Or.inr ⟨hspent, by simp only [List.length_cons, hlength]⟩

theorem length_trail_le (S : Standstill) (id : Id) (n : Nat) (e : Endpoint) :
    (S.trail id n e).1.length ≤ n := by
  induction n generalizing e with
  | zero => exact Nat.le_refl 0
  | succ n ih =>
      rw [trail, leg]
      cases S.verdict id e with
      | found c => exact Nat.le_add_left 1 n
      | failed f => exact Nat.le_add_left 1 n
      | onward next => exact Nat.succ_le_succ (ih next)

theorem length_homeTrail_le (S : Standstill) (id : Id) (n : Nat) (v : View) :
    (S.homeTrail id n v).1.length ≤ n := by
  rw [homeTrail]
  rcases v.lookup id with ⟨c, _ | _⟩
  · exact length_trail_le S id n c.endpoint
  · exact Nat.zero_le n

theorem homeTrail_succ (S : Standstill) (id : Id) (n : Nat) (v : View) :
    S.homeTrail id (n + 1) v = S.homeTrail id n v ∨
      (S.homeTrail id n v).2 = .error (.hopLimit id hopLimit) ∧
        (S.homeTrail id (n + 1) v).1.length = n + 1 := by
  rw [homeTrail, homeTrail]
  rcases v.lookup id with ⟨c, _ | _⟩
  · exact trail_succ S id n c.endpoint
  · exact Or.inl rfl

theorem verdict_of_here (hx : S e = some x) (hrunning : x.running = true) (id : Id) :
    S.verdict id e = (Response.reply (Node.ownerReply 0 (x.view.lookup id))).verdict id e := by
  rw [verdict, tells, hx, Option.bind_some, if_pos hrunning]
  rfl

-- A lookup from home that leaves a question over does as well without it.
theorem homeTrail_of_length {n : Nat} {v : View} (h : (S.homeTrail id (n + 1) v).1.length ≤ n) :
    S.homeTrail id (n + 1) v = S.homeTrail id n v := by
  rcases homeTrail_succ S id n v with hsame | ⟨_, hlong⟩
  · exact hsame
  · omega

-- One that finds an owner has no use for another question.
theorem homeTrail_of_ok {n : Nat} {v : View} {c : Contact} (h : (S.homeTrail id n v).2 = .ok c) :
    S.homeTrail id (n + 1) v = S.homeTrail id n v := by
  rcases homeTrail_succ S id n v with hsame | ⟨hspent, _⟩
  · exact hsame
  · cases hspent.symm.trans h

-- An answer that a lookup can go by leads to where the view itself would go.
theorem trail_of_startsAt (h : S.StartsAt x e id) (n : Nat) :
    S.trail id (n + 1) e = (e :: (S.homeTrail id n x.view).1, (S.homeTrail id n x.view).2) := by
  have hmeans := verdict_of_here h.here h.running id
  have hroute := h.routable
  have hleads := h.leads
  rw [trail, leg, homeTrail, hmeans]
  generalize x.view.lookup id = named at hroute hleads ⊢
  rcases named with ⟨c, _ | _⟩
  · have hpass : (Response.reply (Node.ownerReply 0 (c, false))).Passes e :=
      ⟨rfl, hroute, hleads.resolve_left Bool.false_ne_true⟩
    rw [Response.verdict_of_passes hpass]
    rfl
  · have hresolves : (Response.reply (Node.ownerReply 0 (c, true))).Resolves c :=
      ⟨rfl, rfl, hroute⟩
    rw [Response.verdict_of_resolves hresolves]

theorem exists_running (h : ∀ f, S.verdict id e ≠ .failed f) :
    ∃ y, S e = some y ∧ y.running = true := by
  rw [verdict, tells] at h
  cases hy : S e with
  | none =>
      rw [hy] at h
      exact absurd rfl (h (.timeout e .owner))
  | some y =>
      cases hrunning : y.running with
      | true => exact ⟨y, rfl, hrunning⟩
      | false =>
          rw [hy, Option.bind_some, hrunning] at h
          exact absurd rfl (h (.timeout e .owner))

-- A lookup that finds an owner has started from such an answer.
theorem startsAt_of_trail (hx : ∀ y, S e = some y → y = x) {n : Nat} {c : Contact}
    (h : (S.trail id (n + 1) e).2 = .ok c) : S.StartsAt x e id := by
  have hgoes (f : Fault) : S.verdict id e ≠ .failed f := fun hf => by
    rw [trail, leg, hf] at h
    cases h
  rcases exists_running hgoes with ⟨y, hy, hrunning⟩
  cases hx y hy
  have hmeans := verdict_of_here hy hrunning id
  rcases Response.passes_or_ends id e (.reply (Node.ownerReply 0 (x.view.lookup id))) with
    ⟨_, hroute, hback⟩ | ⟨f | owner, hends⟩
  · exact ⟨hy, hrunning, hroute, Or.inr hback⟩
  · exact absurd (hmeans.trans (Response.verdict_of_breaks hends)) (hgoes f)
  · rcases hends with ⟨hresolved, rfl, hroute⟩
    exact ⟨hy, hrunning, hroute, Or.inl hresolved⟩

/-- A lookup that anybody starts at the endpoint of a node against the same lookup of the
    node itself, in a network where nothing changes, whatever its nodes believe. From afar an
    owner is found just if the same owner is found from home with at most 63 questions, the
    node is reached, and what its view says of the point can be reached and is the owner or
    is at another endpoint than the node. If all this holds but for the owner, both come to the
    same, and from afar the same endpoints are asked after that of the node. A node that
    enters the ring there and looks for its own key follows just whoever is found from
    afar. -/
theorem found_from_afar_iff (S : Standstill) (x j : Node) (e : Endpoint) (id : Id)
    (hx : ∀ y, S e = some y → y = x) :
    let home := S.find x id
    let afar := S.findFrom j e id
    (∀ c, afar.outcome = .found c ↔
      home.outcome = .found c ∧ home.asked.length ≤ 63 ∧ S.StartsAt x e id) ∧
    (home.asked.length ≤ 63 → S.StartsAt x e id →
      afar.outcome = home.outcome ∧
        afar.asked.map Question.target = e :: home.asked.map Question.target) ∧
    (j.view.key = id → ∀ c,
      (S.enter j e).outcome = .done ∧ (S.enter j e).view = View.joined j.view.me c ↔
        afar.outcome = .found c) := by
  intro home afar
  rcases find_trail S x id with ⟨hhome, hasked⟩
  rcases findFrom_trail S j e id with ⟨hafar, htargets⟩
  have hfound (r : Finding) (c : Contact) : Outcome.ofFinding r = .found c ↔ r = .ok c := by
    constructor
    · intro h
      exact Outcome.ofFinding_inj (h.trans (show Outcome.found c = .ofFinding (.ok c) from rfl))
    · rintro rfl
      rfl
  rw [show hopLimit = 63 + 1 from rfl] at hhome hasked hafar htargets
  have hlength : home.asked.length = (S.homeTrail id (63 + 1) x.view).1.length := by
    rw [← hasked, List.length_map]
  have hboth (hless : home.asked.length ≤ 63) (hstart : S.StartsAt x e id) :
      afar.outcome = home.outcome ∧
        afar.asked.map Question.target = e :: home.asked.map Question.target := by
    rw [hlength] at hless
    rw [hhome, hafar, htargets, hasked, homeTrail_of_length hless, trail_of_startsAt hstart 63]
    exact ⟨rfl, rfl⟩
  refine ⟨fun c => ⟨fun hc => ?_, fun ⟨hc, hless, hstart⟩ => ?_⟩, hboth, fun hkey c => ?_⟩
  · rw [hafar, hfound] at hc
    have hstart := startsAt_of_trail hx hc
    rw [trail_of_startsAt hstart 63] at hc
    rw [hhome, hfound, hlength, homeTrail_of_ok hc]
    exact ⟨hc, length_homeTrail_le S id 63 x.view, hstart⟩
  · rw [(hboth hless hstart).1]
    exact hc
  · rw [enter_iff, hkey, hafar, hfound]
    rfl

/-- One of the trio, running. It knows who comes next and nobody else. -/
def runner (c : Contact) : Node :=
  { Node.bound {} c 0 with view := View.joined c (.ofTrio (c.key + 1)) }

/-- The trio at rest. -/
def trio : Standstill := fun e =>
  ((Overlay.trio fun _ _ => .unset).memberAt? e).map runner

/-- A newcomer behind `late` looks for its own key. From home `early` asks the two others and
    finds that it is the owner itself; from afar it is asked first, and the newcomer then
    follows it. -/
theorem early_follows_newcomer :
    let x := runner .early
    let j := Node.bound {} ⟨18446744073709551611, ⟨⟨127, 0, 0, 1⟩, 4004⟩⟩ 9
    let home := trio.find x j.view.key
    let afar := trio.findFrom j Contact.early.endpoint j.view.key
    (∀ y, trio Contact.early.endpoint = some y → y = x) ∧
      home.outcome = .found .early ∧ afar.outcome = .found .early ∧
        afar.asked.map Question.target =
          [Contact.early.endpoint, Contact.middle.endpoint, Contact.late.endpoint] ∧
        (trio.enter j Contact.early.endpoint).view = View.joined j.view.me .early := by
  intro x j home afar
  have hx : ∀ y, trio Contact.early.endpoint = some y → y = x := fun y hy =>
    (Option.some.inj hy).symm
  have htrail : trio.homeTrail j.view.key hopLimit x.view =
      ([Contact.middle.endpoint, Contact.late.endpoint], .ok .early) := by decide +kernel
  have hstart : trio.StartsAt x Contact.early.endpoint j.view.key :=
    ⟨rfl, rfl, by decide +kernel, Or.inr (by decide +kernel)⟩
  rcases find_trail trio x j.view.key with ⟨hhome, hasked⟩
  rw [htrail] at hhome hasked
  have hlength : home.asked.length ≤ 63 := by
    rw [← List.length_map (f := Question.target), hasked]
    decide
  rcases found_from_afar_iff trio x j Contact.early.endpoint j.view.key hx with
    ⟨hfound, hsame, henter⟩
  have hafar := (hfound .early).mpr ⟨hhome, hlength, hstart⟩
  refine ⟨hx, hhome, hafar, ?_, ((henter rfl .early).mpr hafar).2⟩
  rw [(hsame hlength hstart).2, hasked]

end Standstill

end RingOverlay
