import RingOverlay.Proofs.Growth.Invariant
import RingOverlay.Proofs.Lookup.Step

/-!
# What a Turn May Do

The procedures of a node, read for what they do to the ring. There are many of
them and every one has several ways to go on, but the ring sees only two kinds
of turn. A node that has joined may replace its successor by one that lies
nearer and leads to the old one, and makes itself known to the successor it has
then: this is `Growth.Fair`. A newcomer asks on, gives up, or learns whom to
follow: this is `Growth.Entering`.

So every procedure is opened once, here, to be sorted into one of the two; that
a turn of either kind keeps a ring sound is put together from the changes that
are known to keep it.

Only the answer to a probe can change a successor, and only the end of a lookup
a finger. In all other turns the view is `Growth.Steady`.

## Main definitions

* `Growth.Steady`: A view that differs from that of a node in nothing that
  others could notice.
* `Growth.Fair`: What a turn of a node that has joined may do.
* `Growth.Entering`: What a turn of a newcomer may do.

## Theorems

* `Sound.fair_begin`, `Sound.fair_resume`: The turns of a node that has joined
  are fair.
* `entering_begin`, `entering_resume`: Those of a newcomer bring it closer to
  entering.
* `Sound.exists_answer`: No question goes to nobody.
* `Sound.credible_answer`: What is answered is credible.
* `Sound.follow`: A turn, put together from the changes it is made of.
* `Sound.follow_fair`, `Sound.follow_entering`: Turns of either kind keep a ring
  sound.
-/

namespace RingOverlay

namespace Growth

variable {g : Growth} {x : Contact}

/-- A view that a node could have without following anybody else, claiming
    anything else, or believing in strangers. -/
structure Steady (g : Growth) (x : Contact) (v : View) : Prop where
  me : v.me = x
  successor : v.successor = g.succ x
  predecessor : v.predecessor = (g.view x).predecessor
  fingers : ∀ i : Fin slotCount, g.Sincere (v.finger i)

/-- What a turn of a node that has joined may do. -/
structure Fair (g : Growth) (x : Contact) (t : Turn) : Prop where
  successor : t.view.successor = g.succ x ∨
    Id.span x.key t.view.successor.key < Id.span x.key (g.succ x).key ∧
      g.Behind t.view.successor (g.succ x)
  predecessor : t.view.predecessor = (g.view x).predecessor
  fingers : ∀ i : Fin slotCount, g.Sincere (t.view.finger i)
  claim : ∀ dest, t.claim = some dest → dest = t.view.successor.endpoint
  next : ∀ q, t.next = .ask q → g.Sensible x t.view.successor q

/-- What a turn of a newcomer may do. -/
inductive Entering (g : Growth) (x : Contact) : Turn → Prop where
  /-- It asks on. -/
  | asks (q : Question) (h : g.Sensible x (g.succ x) q) :
      Entering g x { view := g.view x, next := .ask q }
  /-- It gives up. -/
  | fails (f : Fault) : Entering g x { view := g.view x, next := .finish (.failed f) }
  /-- It learns whom to follow. -/
  | learns (c : Contact) (h : c ∈ g.joined) :
      Entering g x { view := View.joined x c, next := .finish .done }

namespace Steady

variable {v : View}

theorem advance (hv : g.Steady x v) : g.Steady x v.advance where
  me := by rw [View.advance_me, hv.me]
  successor := by rw [View.advance_successor, hv.successor]
  predecessor := by rw [View.advance_predecessor, hv.predecessor]
  fingers i := by
    rw [View.advance_finger]
    exact hv.fingers i

theorem setFinger (hv : g.Steady x v) (slot : Fin slotCount) {c : Contact} (hc : c ∈ g.joined) :
    g.Steady x (v.setFinger slot c) where
  me := by rw [View.setFinger_me, hv.me]
  successor := by rw [View.setFinger_successor, hv.successor]
  predecessor := by rw [View.setFinger_predecessor, hv.predecessor]
  fingers i := by
    by_cases hi : i = slot
    · rw [hi, View.setFinger_same]
      exact Or.inr hc
    · rw [View.setFinger_other v c hi]
      exact hv.fingers i

-- A turn that changes nothing others could notice is fair, whatever it asks
-- that makes sense.
theorem fair (hv : g.Steady x v) {next : Next}
    (hnext : ∀ q, next = .ask q → g.Sensible x v.successor q) :
    g.Fair x { view := v, next := next } where
  successor := Or.inl hv.successor
  predecessor := hv.predecessor
  fingers := hv.fingers
  claim := fun dest h => by cases h
  next := hnext

theorem finish (hv : g.Steady x v) (outcome : Outcome) :
    g.Fair x { view := v, next := .finish outcome } :=
  hv.fair fun q h => by cases h

end Steady

namespace Sound

-- A node's own view is steady.
theorem steady (hs : g.Sound) (hx : x ∈ g.members) : g.Steady x (g.view x) :=
  ⟨g.view_me x hx, rfl, rfl, hs.fingers x hx⟩

-- Whoever a node that has joined names in a lookup has joined, too.
theorem lookup_joined (hs : g.Sound) {v : View} (hv : g.Steady x v) (hx : x ∈ g.joined) (id : Id) :
    (v.lookup id).1 ∈ g.joined := by
  rcases v.lookup_source id with h | h | ⟨i, h, hset⟩
  · rw [h, hv.me]
    exact hx
  · rw [h, hv.successor]
    exact hs.succ_joined x hx
  · rw [h]
    rcases hv.fingers i with hunset | hj
    · rw [hunset] at hset
      exact absurd hset Bool.false_ne_true
    · exact hj

-- A lookup that starts from a steady view is fair, unless it is that of a
-- newcomer.
theorem fair_seek (hs : g.Sound) (hx : x ∈ g.joined) {v : View} (hv : g.Steady x v) (id : Id)
    {p : Purpose} (hp : p = .report ∨ ∃ slot, p = .finger slot) : g.Fair x (seek v id p) := by
  have hj := hs.lookup_joined hv hx id
  unfold seek
  cases hl : v.lookup id with
  | mk c b =>
      rw [hl] at hj
      cases b with
      | true =>
          rcases hp with rfl | ⟨slot, rfl⟩
          · exact hv.finish _
          · exact (hv.setFinger slot hj).finish _
      | false =>
          refine hv.fair fun q hq => ?_
          cases hq
          refine ⟨⟨c, hj, rfl⟩, ?_⟩
          rcases hp with rfl | ⟨slot, rfl⟩ <;> exact hx

-- A node that has joined asks its successor for the list, if it asks at all.
theorem sensible_askList {v : View} (hx : x ∈ g.joined) (hv : v.successor ∈ g.joined) (q : Question)
    (hq : askList v = .ask q) : g.Sensible x v.successor q := by
  unfold askList at hq
  split at hq
  · cases hq
    exact ⟨hx, hv⟩
  · cases hq

-- The first turn of a task is fair.
theorem fair_begin (hs : g.Sound) (hx : x ∈ g.joined) (t : Task) (hmay : g.May x t) :
    g.Fair x (t.begin (g.view x)) := by
  have hv := hs.steady (hs.joined_mem x hx)
  have hsucc := hs.succ_joined x hx
  cases t with
  | find id => exact hs.fair_seek hx hv id (Or.inl rfl)
  | stabilize =>
      refine hv.fair fun q hq => ?_
      split at hq
      · cases hq
        exact ⟨hx, rfl, hsucc⟩
      · cases hq
  | fixFinger => exact hs.fair_seek hx hv.advance _ (Or.inr ⟨_, rfl⟩)
  | fixSuccessors => exact hv.fair fun q hq => sensible_askList hx hsucc q hq
  | checkPredecessor =>
      refine hv.fair fun q hq => ?_
      cases hp : (g.view x).predecessor with
      | none => rw [hp] at hq; cases hq
      | some p =>
          rw [hp] at hq
          cases hq
          exact ⟨hx, (hs.predecessor x (hs.joined_mem x hx) p hp).1⟩
  | enter through alone => exact absurd hx hmay.1

/-- After an answered probe a node makes itself known to whom it follows then. -/
theorem fair_introduce (hs : g.Sound) (hx : x ∈ g.joined) {r : Reply}
    (hr : g.Credible r (.probe (g.succ x))) :
    g.Fair x (introduce ((g.view x).probed r.node)) := by
  have hv := hs.steady (hs.joined_mem x hx)
  have hsucc : ((g.view x).probed r.node).successor = g.succ x ∨
      Id.span x.key ((g.view x).probed r.node).successor.key < Id.span x.key (g.succ x).key ∧
        g.Behind ((g.view x).probed r.node).successor (g.succ x) := by
    rcases (g.view x).probed_cases r.node with ⟨hrt, hlt, heq⟩ | heq
    · refine Or.inr ?_
      rw [View.key, hv.me] at hlt
      rw [heq]
      exact ⟨hlt, hr hrt⟩
    · exact Or.inl heq
  have hj : ((g.view x).probed r.node).successor ∈ g.joined := by
    rcases hsucc with heq | ⟨_, hb⟩
    · rw [heq]
      exact hs.succ_joined x hx
    · exact hb.1
  constructor
  case successor => exact hsucc
  case predecessor => exact View.probed_predecessor _ _
  case fingers =>
    intro i
    rw [introduce, View.probed_finger]
    exact hv.fingers i
  case claim =>
    intro dest hdest
    simp only [introduce] at hdest
    split at hdest <;> cases hdest
    rfl
  case next => exact sensible_askList hx hj

/-- After an answer a lookup goes on asking, or leaves nothing behind but a
    finger. -/
theorem fair_hop (hs : g.Sound) (hx : x ∈ g.joined) {h : Hop} {r : Reply}
    (hq : g.Sensible x (g.succ x) (.hop h)) (hr : g.Credible r (.hop h)) :
    g.Fair x (h.resume (g.view x) (some r)) := by
  have hv := hs.steady (hs.joined_mem x hx)
  have hserves := hq.2
  rcases h.resume_cases (g.view x) r with ⟨_, _, heq⟩ | ⟨f, heq⟩ | ⟨_, left, heq⟩ <;> rw [heq]
  · cases hp : h.purpose with
    | report => exact hv.finish _
    | finger slot => exact (hv.setFinger slot hr).finish _
    | enter untried total alone =>
        rw [hp] at hserves
        exact absurd hx hserves.2.1
  · cases hp : h.purpose with
    | report => exact hv.finish _
    | finger slot => exact hv.finish _
    | enter untried total alone =>
        rw [hp] at hserves
        exact absurd hx hserves.2.1
  · refine hv.fair fun q hask => ?_
    cases hask
    exact ⟨⟨r.node, hr, rfl⟩, hserves⟩

-- The turn after an answer is fair.
theorem fair_resume (hs : g.Sound) (hx : x ∈ g.joined) {q : Question} {r : Reply}
    (hq : g.Sensible x (g.succ x) q) (hr : g.Credible r q) :
    g.Fair x (q.resume (g.settings x) (g.view x) (some r)) := by
  have hv := hs.steady (hs.joined_mem x hx)
  cases q with
  | hop h => exact hs.fair_hop hx hq hr
  | probe c =>
      rw [hq.2.1] at hr ⊢
      exact hs.fair_introduce hx hr
  | list c =>
      refine Steady.finish ⟨?_, ?_, ?_, fun i => ?_⟩ _
      · rw [View.reported_me, hv.me]
      · rw [View.reported_successor, hv.successor]
      · rw [View.reported_predecessor]
      · rw [View.reported_finger]
        exact hv.fingers i
  | pulse c => exact hv.finish _

end Sound

/-- A newcomer with endpoints left asks through the next one, and gives up with
    none left. -/
theorem entering_approach {untried : List Endpoint} {total : Nat} {alone : Bool}
    (hx : g.Serves x (.enter untried total alone)) :
    g.Entering x (approach (g.view x) total alone untried) := by
  rcases hx with ⟨hm, hn, halone, htotal, hknown⟩
  cases untried with
  | nil =>
      simp only [approach, halone, htotal, Bool.false_or, decide_false, Bool.false_eq_true,
        if_false]
      exact Entering.fails _
  | cons e rest =>
      refine Entering.asks _ ⟨hknown e (List.mem_cons_self ..), hm, hn, halone, htotal, ?_⟩
      exact fun d hd => hknown d (List.mem_cons_of_mem e hd)

theorem entering_begin (hm : x ∈ g.members) (hx : x ∉ g.joined) (t : Task) (hmay : g.May x t) :
    g.Entering x (t.begin (g.view x)) := by
  cases t with
  | enter through alone =>
      rcases hmay with ⟨_, halone, hne, hknown⟩
      refine entering_approach ⟨hm, hx, halone, ?_, hknown⟩
      exact fun h => hne (List.length_eq_zero_iff.mp h)
  | find id => exact absurd hmay hx
  | stabilize => exact absurd hmay hx
  | fixFinger => exact absurd hmay hx
  | fixSuccessors => exact absurd hmay hx
  | checkPredecessor => exact absurd hmay hx

-- A newcomer asks for nothing but its place.
theorem entering_resume (hx : x ∉ g.joined) {q : Question} {r : Reply}
    (hq : g.Sensible x (g.succ x) q) (hr : g.Credible r q) :
    g.Entering x (q.resume (g.settings x) (g.view x) (some r)) := by
  cases q with
  | hop h =>
      have hserves := hq.2
      cases hp : h.purpose with
      | report => rw [hp] at hserves; exact absurd hserves hx
      | finger slot => rw [hp] at hserves; exact absurd hserves hx
      | enter untried total alone =>
          rw [hp] at hserves
          rcases h.resume_cases (g.view x) r with ⟨_, _, heq⟩ | ⟨f, heq⟩ | ⟨_, left, heq⟩ <;>
            rw [Question.resume, heq]
          · rw [hp, Purpose.succeed, g.view_me x hserves.1]
            exact Entering.learns r.node hr
          · rw [hp]
            exact entering_approach hserves
          · exact Entering.asks _ ⟨⟨r.node, hr, rfl⟩, hq.2⟩
  | probe c => exact absurd hq.1 hx
  | list c => exact absurd hq.1 hx
  | pulse c => exact absurd hq.1 hx

namespace Sound

-- Whoever waits for an answer has asked a node that has joined.
theorem target_known {q : Question} (hq : g.Sensible x (g.succ x) q) : g.Known q.target := by
  cases q with
  | hop h => exact hq.1
  | probe c => exact ⟨c, hq.2.2, rfl⟩
  | list c => exact ⟨c, hq.2, rfl⟩
  | pulse c => exact ⟨c, hq.2, rfl⟩

/-- No question goes to nobody. -/
theorem exists_answer (hs : g.Sound) {q : Question} (hq : g.Sensible x (g.succ x) q) :
    ∃ r, g.answer q = some r := by
  rcases target_known hq with ⟨y, hy, htarget⟩
  rw [g.answer_of_mem (hs.joined_mem y hy) htarget.symm]
  cases q <;> exact ⟨_, rfl⟩

-- What is answered is credible.
theorem credible_answer (hs : g.Sound) {q : Question} {r : Reply}
    (hq : g.Sensible x (g.succ x) q) (hr : g.answer q = some r) : g.Credible r q := by
  rcases target_known hq with ⟨y, hy, htarget⟩
  have hm := hs.joined_mem y hy
  rw [g.answer_of_mem hm htarget.symm] at hr
  cases q with
  | hop h =>
      cases hr
      exact hs.lookup_joined (hs.steady hm) hy h.id
  | probe c =>
      have hyc : y = c := g.eq_of_endpoint_eq hm (hs.joined_mem c hq.2.2) htarget
      cases hr
      intro hrt
      cases hp : (g.view y).predecessor with
      | none =>
          simp only [Message.new, Message.toReply, hp, Option.getD_none] at hrt
          exact absurd hrt (by decide)
      | some p =>
          simp only [Message.new, Message.toReply, Option.getD_some]
          exact hyc ▸ hs.predecessor y hm p hp
  | list c => trivial
  | pulse c => trivial

/-- A turn is put together from the changes that keep a ring sound: the node is
    done with what it was waiting for, changes its mind, makes its claim and
    settles down. -/
theorem follow (hs : g.Sound) (hm : x ∈ g.members) {t : Turn} (h : t.view.me = (g.view x).me)
    (hleads : ∀ a ∈ g.joined, ∀ b, Leads g.succ a b →
      Leads (Function.update g.succ x t.view.successor) a b)
    (hsucc : x ∈ g.joined → t.view.successor ∈ g.joined)
    (hpred : ∀ p, t.view.predecessor = some p → g.Behind p x)
    (hfingers : ∀ i : Fin slotCount, g.Sincere (t.view.finger i))
    (hclaim : ∀ dest, t.claim = some dest → x ∈ g.joined ∧ dest = t.view.successor.endpoint)
    (hask : ∀ q, t.next = .ask q → g.Sensible x t.view.successor q)
    (hdone : t.next = .finish .done → t.view.successor ∈ g.joined) :
    g.Grows (g.follow x t h) ∧ (g.follow x t h).Sound := by
  have hidle := g.errand_wait_self x none
  rcases (hs.wait fun e he => by cases he).revise h (Or.inr hidle) hleads hsucc hpred hfingers with
    ⟨hgrows, hturned⟩
  have hfollows : ((g.wait x none).revise x t.view h).succ x = t.view.successor := by
    have hfun := (g.wait x none).succ_revise x t.view h
    rw [hfun, Function.update_self]
  have hposted := hturned.post t.view.me t.claim fun dest hdest => by
    rcases hclaim dest hdest with ⟨hj, hend⟩
    refine ⟨_, hturned.succ_joined x hj, ?_, ?_⟩
    · rw [hfollows, hend]
    · rw [h, g.view_me x hm]
      exact ⟨hj, Leads.last rfl⟩
  have hsettled := hposted.settle t.next hm hidle
    (fun q hq => hgrows.sensible id (hfollows ▸ hask q hq)) (fun hd => hfollows ▸ hdone hd)
  exact ⟨(((Grows.wait g x none).trans hgrows).trans (Grows.post _ _ _)).trans hsettled.1,
    hsettled.2⟩

theorem follow_fair (hs : g.Sound) (hx : x ∈ g.joined) {t : Turn} (h : t.view.me = (g.view x).me)
    (ht : g.Fair x t) : g.Grows (g.follow x t h) ∧ (g.follow x t h).Sound := by
  have hsucc : t.view.successor ∈ g.joined := by
    rcases ht.successor with heq | ⟨_, hb⟩
    · rw [heq]
      exact hs.succ_joined x hx
    · exact hb.1
  refine hs.follow (hs.joined_mem x hx) h ?_ (fun _ => hsucc) ?_ ht.fingers
    (fun dest hdest => ⟨hx, ht.claim dest hdest⟩) ht.next (fun _ => hsucc)
  · intro a _ b hab
    rcases ht.successor with heq | ⟨hlt, hb⟩
    · rw [heq, Function.update_eq_self]
      exact hab
    · exact Leads.update hb.2 hlt hab
  · intro p hp
    rw [ht.predecessor] at hp
    exact hs.predecessor x (hs.joined_mem x hx) p hp

theorem follow_entering (hs : g.Sound) (hm : x ∈ g.members) (hx : x ∉ g.joined) {t : Turn}
    (h : t.view.me = (g.view x).me) (ht : g.Entering x t) :
    g.Grows (g.follow x t h) ∧ (g.follow x t h).Sound := by
  have hwaits (v : View) := hs.grows_of_waiting (s := v.successor) hx
  cases ht with
  | asks q hq =>
      refine hs.follow hm h (hwaits _) (fun hj => absurd hj hx) (hs.predecessor x hm)
        (hs.fingers x hm) (fun dest hdest => by cases hdest) (fun q' hq' => ?_)
        (fun hdone => by cases hdone)
      cases hq'
      exact hq
  | fails f =>
      exact hs.follow hm h (hwaits _) (fun hj => absurd hj hx) (hs.predecessor x hm)
        (hs.fingers x hm) (fun dest hdest => by cases hdest) (fun q hq => by cases hq)
        (fun hdone => by cases hdone)
  | learns c hc =>
      exact hs.follow hm h (hwaits _) (fun hj => absurd hj hx) (fun p hp => by cases hp)
        (fun i => Or.inl (View.alone_finger i x)) (fun dest hdest => by cases hdest)
        (fun q hq => by cases hq) (fun _ => hc)

end Sound

end Growth

end RingOverlay
