import RingOverlay.Proofs.Node.History

/-!
# Whom a Node Believes and Whom It Writes To

Contacts reach a view from outside in five ways: a claim, a candidate in the
answer to a probe, a reported list, and the owner that a lookup names, which
becomes a finger or, for a node that enters, the successor. Anybody may have made
them up. In each of the five ways the contact is looked at before it is stored,
so all that a view ever holds is the node itself, contacts that can be reached,
and fingers that are not set.

What a node sends follows from that. A question goes to somebody the view holds,
to whom a judged answer has named, or to an endpoint that the node was given to
enter through; and the view's own successor gets the claims. The endpoints a node
was given and has not tried travel with the lookup that is under way, so what
waits in the line has to be followed along with the view. Answers are another
matter: they go back to wherever the question came from.

## Main definitions

* `Contact.Fit`: The node itself, or somebody who can be reached.
* `View.Trusting`: A view that holds nobody else.
* `Task.through`, `Event.through`: The endpoints a node is given to enter through.
* `Endpoint.Open`: Where a node may send something of its own accord.
* `Question.Within`, `Turn.Within`: What waits, or is about to be done, goes there.

## Theorems

* `Trusting.change`: Every change keeps a view trusting.
* `within_begin`, `within_resume`: Every turn stays within these endpoints.
* `trusting_of_live`: After every history a node holds nobody unfit and has
  written to nobody else.
-/

namespace RingOverlay

/-- The node itself, or somebody who can be reached. -/
def Contact.Fit (c me : Contact) : Prop := c = me ∨ c.isRoutable = true

namespace View

/-- A view that holds nobody but the node itself and those who can be reached. A
    finger may also be unset. -/
structure Trusting (me : Contact) (v : View) : Prop where
  own : v.me = me
  predecessor : ∀ c, v.predecessor = some c → c.Fit me
  successor : v.successor.Fit me
  successors : ∀ c ∈ v.successors, c.Fit me
  fingers : ∀ i : Fin slotCount, v.finger i = Contact.unset ∨ (v.finger i).Fit me

theorem trusting_joined (me : Contact) {c : Contact} (h : c.Fit me) :
    (View.joined me c).Trusting me where
  own := rfl
  predecessor := fun d hd => by cases hd
  successor := h
  successors := fun d hd => by rwa [List.mem_singleton.mp hd]
  fingers := fun i => Or.inl (Vector.getElem_replicate i.isLt)

namespace Trusting

variable {s : Settings} {me : Contact} {v w : View}

theorem setFinger (h : v.Trusting me) (slot : Fin slotCount) {c : Contact} (hc : c.Fit me) :
    (v.setFinger slot c).Trusting me where
  own := h.own
  predecessor := h.predecessor
  successor := h.successor
  successors := h.successors
  fingers := fun i => by
    by_cases hi : i = slot
    · rw [hi, setFinger_same]
      exact Or.inr hc
    · rw [setFinger_other v c hi]
      exact h.fingers i

theorem forget (h : v.Trusting me) (c : Contact) : (v.forget c).Trusting me where
  own := h.own
  predecessor := h.predecessor
  successor := h.successor
  successors := h.successors
  fingers := fun i => by
    rw [forget_finger]
    split_ifs
    · exact Or.inl rfl
    · exact h.fingers i

theorem probed (h : v.Trusting me) (c : Contact) : (v.probed c).Trusting me := by
  have hanswered : ({ v with misses := 0 } : View).Trusting me :=
    ⟨h.own, h.predecessor, h.successor, h.successors, h.fingers⟩
  simp only [View.probed]
  split_ifs with hnear
  · have hc : c.Fit me := Or.inr (Bool.and_eq_true_iff.mp hnear).1
    refine ⟨h.own, h.predecessor, hc, fun d hd => ?_, h.fingers⟩
    rcases List.mem_cons.mp hd with rfl | hold
    · exact hc
    · exact h.successors d (List.mem_of_mem_tail hold)
  · exact hanswered

-- Heirs come from the list, unless the node has to stand in itself.
theorem heirs (h : v.Trusting me) : ∀ c ∈ v.heirs, c.Fit me := by
  intro c hc
  rcases v.heirs_cases with heq | heq <;> rw [heq] at hc
  · rw [List.mem_singleton.mp hc]
    exact Or.inl h.own
  · exact h.successors c (List.mem_of_mem_tail (List.mem_filter.mp hc).1)

theorem promote (h : v.Trusting me) : v.promote.Trusting me := by
  have hhead : (v.heirs.headD v.me).Fit me :=
    h.heirs _ (List.mem_of_mem_head? v.head_heirs)
  have hgiven : ({ v with
      successor := v.heirs.headD v.me, successors := v.heirs, misses := 0 } : View).Trusting me :=
    ⟨h.own, h.predecessor, hhead, h.heirs, h.fingers⟩
  exact hgiven.forget v.successor

theorem missed (h : v.Trusting me) (threshold : Nat) : (v.missed threshold).Trusting me := by
  have hcounted : ({ v with misses := v.misses + 1 } : View).Trusting me :=
    ⟨h.own, h.predecessor, h.successor, h.successors, h.fingers⟩
  simp only [View.missed]
  split_ifs
  · exact hcounted.promote
  · exact hcounted

theorem reported (h : v.Trusting me) (source : Contact) (list : List Contact) (ceiling : Nat) :
    (v.reported source list ceiling).Trusting me := by
  unfold View.reported
  split_ifs
  · refine ⟨h.own, h.predecessor, h.successor, fun c hc => ?_, h.fingers⟩
    rcases List.mem_cons.mp hc with rfl | hkept
    · exact h.successor
    · exact Or.inr (v.routable_of_mem_fallbacks hkept)
  · exact h

theorem notified (h : v.Trusting me) (c : Contact) : (v.notified c).Trusting me := by
  unfold View.notified
  split_ifs with haccept
  · refine ⟨h.own, fun d hd => ?_, h.successor, h.successors, h.fingers⟩
    cases hd
    exact Or.inr (Bool.and_eq_true_iff.mp haccept).1
  · exact h

/-- Whom a lookup may end with is fit. -/
theorem fit_of_vouches (h : v.Trusting me) {c : Contact} (hc : v.Vouches c) : c.Fit me := by
  rcases hc with hr | rfl | rfl
  · exact Or.inr hr
  · exact h.successor
  · exact Or.inl h.own

/-- Every change keeps a view trusting. -/
theorem change (h : v.Trusting me) (hc : Change s v w) : w.Trusting me := by
  cases hc with
  | advance => exact ⟨h.own, h.predecessor, h.successor, h.successors, h.fingers⟩
  | setFinger slot c hv => exact h.setFinger slot (h.fit_of_vouches hv)
  | forget c => exact h.forget c
  | joined c hr =>
      rw [h.own]
      exact trusting_joined me (Or.inr hr)
  | probed c => exact h.probed c
  | missed => exact h.missed s.failureThreshold
  | reported source list => exact h.reported source list s.ceiling
  | bereaved c =>
      unfold View.bereaved
      split_ifs
      · exact ⟨h.own, fun d hd => (by cases hd), h.successor, h.successors, h.fingers⟩
      · exact h
  | notified c => exact h.notified c

/-- So changes do. -/
theorem changes (h : v.Trusting me) (hc : Changes s v w) : w.Trusting me :=
  hc.keep (fun _ _ hu hc => hu.change hc) h

/-- Whoever a view names as the next to ask is fit. -/
theorem fit_of_lookup (h : v.Trusting me) (id : Id) : (v.lookup id).1.Fit me := by
  rcases v.lookup_source id with hme | hsucc | ⟨i, hi, hset⟩
  · rw [hme]
    exact Or.inl h.own
  · rw [hsucc]
    exact h.successor
  · rw [hi]
    rcases h.fingers i with hunset | hfit
    · rw [hunset] at hset
      exact absurd hset Bool.false_ne_true
    · exact hfit

end Trusting

theorem trusting_alone (me : Contact) : (View.alone me).Trusting me :=
  trusting_joined me (Or.inl rfl)

end View

/-- The endpoints a task is given to enter through. -/
def Task.through : Task → List Endpoint
  | .enter through _ => through
  | _ => []

/-- The endpoints a node is given, by an event, to enter through. -/
def Event.through : Event → List Endpoint
  | .begin _ _ _ t => t.through
  | _ => []

/-- The endpoints a lookup has been given and not tried. -/
def Purpose.untried : Purpose → List Endpoint
  | .enter untried _ _ => untried
  | _ => []

/-- The endpoints that may be tried if a question brings nothing. -/
def Question.untried : Question → List Endpoint
  | .hop h => h.purpose.untried
  | _ => []

/-- Where a node may send something of its own accord: to itself, to an endpoint
    that it was given, and to somebody who can be reached. -/
def Endpoint.Open (me : Contact) (given : List Endpoint) (e : Endpoint) : Prop :=
  e = me.endpoint ∨ e ∈ given ∨ ∃ c : Contact, c.isRoutable = true ∧ c.endpoint = e

/-- A question goes where it may, and so does what it may lead to. -/
structure Question.Within (me : Contact) (given : List Endpoint) (q : Question) : Prop where
  target : q.target.Open me given
  untried : ∀ e ∈ q.untried, e ∈ given

/-- What a turn sends goes where it may. -/
structure Turn.Within (me : Contact) (given : List Endpoint) (t : Turn) : Prop where
  claim : ∀ dest, t.claim = some dest → dest.Open me given
  next : ∀ q, t.next = .ask q → q.Within me given

section Turns

variable {me : Contact} {given : List Endpoint} {v : View}

theorem Contact.Fit.open {c : Contact} (h : c.Fit me) : c.endpoint.Open me given := by
  rcases h with rfl | hr
  · exact Or.inl rfl
  · exact Or.inr (Or.inr ⟨c, hr, rfl⟩)

theorem within_finish (v : View) (o : Outcome) :
    ({ view := v, next := .finish o } : Turn).Within me given :=
  ⟨fun dest h => (by cases h), fun q h => (by cases h)⟩

theorem within_ask (v : View) {q : Question} (h : q.Within me given) :
    ({ view := v, next := .ask q } : Turn).Within me given :=
  ⟨fun dest h => (by cases h), fun q' hq => (by cases hq; exact h)⟩

theorem within_approach (v : View) (total : Nat) (alone : Bool) {untried : List Endpoint}
    (h : ∀ e ∈ untried, e ∈ given) : (approach v total alone untried).Within me given := by
  cases untried with
  | nil =>
      simp only [approach]
      split_ifs <;> exact within_finish v _
  | cons e rest =>
      exact within_ask v ⟨Or.inr (Or.inl (h e List.mem_cons_self)),
        fun e' he' => h e' (List.mem_cons_of_mem e he')⟩

theorem within_succeed (v : View) (p : Purpose) (c : Contact) :
    (p.succeed v c).Within me given := by
  cases p <;> exact within_finish _ _

theorem within_fail (v : View) {p : Purpose} (f : Fault) (h : ∀ e ∈ p.untried, e ∈ given) :
    (p.fail v f).Within me given := by
  cases p with
  | report => exact within_finish v _
  | finger slot => exact within_finish v _
  | enter untried total alone => exact within_approach v total alone h

theorem within_seek (hv : v.Trusting me) (id : Id) {p : Purpose} (h : p.untried = []) :
    (seek v id p).Within me given := by
  rcases seek_cases v id p with ⟨c, _, heq⟩ | ⟨c, hc, heq⟩ <;> rw [heq]
  · exact within_succeed v p c
  · have hfit : c.Fit me := by
      have := hv.fit_of_lookup id
      rwa [hc] at this
    exact within_ask v ⟨hfit.open, fun e he => by simp [Question.untried, h] at he⟩

theorem within_askList (hv : v.Trusting me) :
    ∀ q, askList v = .ask q → q.Within me given := by
  intro q hq
  unfold askList at hq
  split_ifs at hq
  cases hq
  exact ⟨hv.successor.open, fun e he => absurd he List.not_mem_nil⟩

theorem within_introduce (hv : v.Trusting me) : (introduce v).Within me given where
  claim := by
    intro dest hdest
    simp only [introduce] at hdest
    split_ifs at hdest
    cases hdest
    exact hv.successor.open
  next := within_askList hv

/-- The first turn of a task stays within what the node was given. -/
theorem within_begin (hv : v.Trusting me) {t : Task} (ht : ∀ e ∈ t.through, e ∈ given) :
    (t.begin v).Within me given := by
  cases t with
  | find id => exact within_seek hv id rfl
  | stabilize =>
      refine ⟨fun dest h => (by cases h), fun q hq => ?_⟩
      simp only [Task.begin] at hq
      split_ifs at hq
      cases hq
      exact ⟨hv.successor.open, fun e he => absurd he List.not_mem_nil⟩
  | fixFinger => exact within_seek (hv.change (s := {}) .advance) _ rfl
  | fixSuccessors => exact ⟨fun dest h => (by cases h), within_askList hv⟩
  | checkPredecessor =>
      refine ⟨fun dest h => (by cases h), fun q hq => ?_⟩
      simp only [Task.begin] at hq
      cases hp : v.predecessor with
      | none =>
          rw [hp] at hq
          cases hq
      | some p =>
          rw [hp] at hq
          cases hq
          exact ⟨(hv.predecessor p hp).open, fun e he => absurd he List.not_mem_nil⟩
  | enter through alone => exact within_approach v through.length alone ht

/-- So does the turn after a question, whoever answers it and however. -/
theorem within_resume (s : Settings) (hv : v.Trusting me) {q : Question}
    (hq : q.Within me given) (answer : Option Reply) :
    (q.resume s v answer).Within me given := by
  cases q with
  | hop h =>
      cases answer with
      | some r =>
          rcases h.resume_cases v r with ⟨_, _, heq⟩ | ⟨f, heq⟩ | ⟨hr, left, heq⟩ <;>
            rw [Question.resume, heq]
          · exact within_succeed v h.purpose r.node
          · exact within_fail v f hq.untried
          · exact within_ask v ⟨Or.inr (Or.inr ⟨r.node, hr, rfl⟩), hq.untried⟩
      | none =>
          rcases h.resume_none v with ⟨w, f, heq, _⟩
          rw [Question.resume, heq]
          exact within_fail w f hq.untried
  | probe c =>
      cases answer with
      | some r => exact within_introduce (hv.probed r.node)
      | none => exact within_introduce (hv.missed s.failureThreshold)
  | list c => cases answer <;> exact within_finish _ _
  | pulse c => cases answer <;> exact within_finish _ _

end Turns

namespace Node

/-- A node that holds nobody unfit, and whose waiting questions go where they may. -/
structure Guarded (me : Contact) (given : List Endpoint) (n : Node) : Prop where
  view : n.view.Trusting me
  questions : ∀ q ∈ n.questions, q.Within me given

variable {me : Contact} {given : List Endpoint} {n : Node} {e : Event} {r : Node × List Effect}

theorem Carries.guarded {s : Settings} {waiting : List Question} {turn : Turn}
    (h : Carries s waiting turn r) (hview : turn.view.Trusting me) (hturn : turn.Within me given)
    (hwaiting : ∀ q ∈ waiting, q.Within me given) :
    r.1.Guarded me given ∧
      ∀ dest m, Effect.send dest m ∈ r.2 → dest.Open me given := by
  refine ⟨⟨by rwa [h.view], fun q hq => ?_⟩, fun dest m hm => ?_⟩
  · rcases h.questions with heq | ⟨asked, hasked, heq⟩ <;> rw [heq] at hq
    · exact hwaiting q hq
    · rcases List.mem_append.mp hq with hold | hnew
      · exact hwaiting q hold
      · rw [List.mem_singleton.mp hnew]
        exact hturn.next asked hasked
  · rcases h.sends dest m hm with ⟨hclaim, _⟩ | ⟨q, hq, rfl, _⟩
    · exact hturn.claim dest hclaim
    · exact (hturn.next q hq).target

/-- Whatever happens, a guarded node stays guarded, and what it sends is an answer
    or goes where it may. -/
theorem Guarded.passes (hn : n.Guarded me given) (he : ∀ d ∈ e.through, d ∈ given)
    (h : n.Passes e r) :
    r.1.Guarded me given ∧
      ∀ dest m, Effect.send dest m ∈ r.2 → m.body.isAnswer = false → dest.Open me given := by
  have hview : r.1.view.Trusting me := hn.view.changes h.changes.2
  cases h with
  | idle h =>
      refine ⟨⟨hview, fun q hq => hn.questions q (h.questions.subset hq)⟩, fun dest m hm _ => ?_⟩
      rcases h.sends dest m hm with ⟨q, hq, rfl, _⟩
      exact (hn.questions q hq).target
  | heard body h =>
      refine ⟨⟨hview, fun q hq => hn.questions q (by rwa [h.questions] at hq)⟩,
        fun dest m hm hm' => ?_⟩
      rw [h.sends dest m hm] at hm'
      cases hm'
  | begun h =>
      rw [h.view] at hview
      rcases h.guarded hview (within_begin hn.view he) hn.questions with ⟨hkeep, hsends⟩
      exact ⟨hkeep, fun dest m hm _ => hsends dest m hm⟩
  | resumed q waiting answer hq h =>
      rw [h.view] at hview
      have hall := hn.questions
      rw [hq] at hall
      rcases h.guarded hview (within_resume n.settings hn.view (hall q List.mem_cons_self) answer)
        (fun q' hq' => hall q' (List.mem_cons_of_mem q hq')) with ⟨hkeep, hsends⟩
      exact ⟨hkeep, fun dest m hm _ => hsends dest m hm⟩

/-- After every history a node's predecessor, successor and fallbacks are the node
    itself or can be reached, and so are its fingers unless they are unset. All that
    it has sent except answers has gone to itself, to an endpoint that it was given to
    enter through, or to somebody who can be reached. -/
theorem trusting_of_live (s : Settings) (me : Contact) (firstSeq : UInt64)
    (events : List Event) :
    let r := (bound s me firstSeq).live events
    r.1.view.Trusting me ∧
      ∀ dest m, Effect.send dest m ∈ r.2 → m.body.isAnswer = false →
        dest.Open me (events.flatMap Event.through) := by
  have hstart : (bound s me firstSeq).Guarded me (events.flatMap Event.through) :=
    ⟨View.trusting_alone me, fun q hq => absurd hq List.not_mem_nil⟩
  have hstep (m : Node) (hm : m.Guarded me (events.flatMap Event.through)) (e : Event)
      (he : e ∈ events) : (m.happen e).1.Guarded me (events.flatMap Event.through) ∧
        ∀ x ∈ (m.happen e).2, ∀ dest a, x = .send dest a → a.body.isAnswer = false →
          dest.Open me (events.flatMap Event.through) := by
    rcases hm.passes (fun d hd => List.mem_flatMap.mpr ⟨e, he, hd⟩) (passes_happen m e) with
      ⟨hkeep, hsends⟩
    exact ⟨hkeep, fun x hx dest a hxa => hsends dest a (hxa ▸ hx)⟩
  rcases live_keep _ _ hstep hstart with ⟨hend, hsends⟩
  exact ⟨hend.view, fun dest m hm => hsends _ hm dest m rfl⟩

end Node

end RingOverlay
