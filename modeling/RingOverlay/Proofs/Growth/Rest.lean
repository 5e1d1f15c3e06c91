import RingOverlay.Proofs.Growth.Slack

/-!
# A Ring at Rest Is Right

What it means that nothing changes any more. Wrong rings can be at rest, too:
several cycles side by side, or one that winds twice, look to each of their
nodes exactly as a right ring does. So rest alone proves nothing, and what is
proved here uses that the ring has grown from one node.

If a cycle of a node changes nothing, then its successor already knows it as its
predecessor, or it would now. This makes the successors injective, since two
nodes cannot both be the predecessor of a third. In a growing ring everybody
gets onto one and the same cycle, and with an injective successor nobody can get
onto a cycle without having been on it before. So all nodes are on the cycle,
and the cycle goes round once.

The cycle of a node is put together from the parts of a step, with everything
answered and heard at once. It says what *would* happen, also at a node that has
something else to do; for an idle one it is what may happen next.

## Main definitions

* `Growth.served`: A question is answered at once.
* `Growth.heeded`: A claim is heard at once.
* `Growth.stabilized`: A node has checked its successor, all in one go.
* `Growth.Settled`: The ring is as it should be.
* `Growth.Settling`: What is promised of a ring that is left to itself.

## Theorems

* `Sound.introduced`: A node once its probe has been answered.
* `succ_stabilized`, `predecessor_stabilized`: The neighbours after a cycle.
* `Sound.stabilized`: A cycle is made up of steps and tightens the ring.
* `Sound.known_of_still`: If a cycle changes nothing, the successor knows its
  node.
* `Sound.settled_of_known`: If every successor does, the ring is right.
* `settling_of_reachable`: Every ring that grows from one node settles.
-/

namespace RingOverlay

namespace Growth

/-- The question that a node waits with is answered at once, and the node takes
    its next turn. -/
def served (g : Growth) (x : Contact) : Growth :=
  match g.errand x with
  | some (.asked q) =>
    match g.answer q with
    | some r => g.follow x (q.resume (g.settings x) (g.view x) (some r)) (resume_view_me _ _ q _)
    | none => g
  | _ => g

/-- A claim of a node reaches the node it follows at once. -/
def heeded (g : Growth) (x : Contact) : Growth :=
  g.revise (g.succ x) ((g.view (g.succ x)).heard (.claim x)) (View.heard_me _ (.claim x))

/-- A node takes up the task of checking its successor. -/
def probing (g : Growth) (x : Contact) : Growth :=
  g.follow x (Task.stabilize.begin (g.view x)) (Overlay.begin_view_me _ _)

/-- A node checks its successor, makes itself known and refreshes its list, and
    nothing else happens meanwhile. -/
def stabilized (g : Growth) (x : Contact) : Growth :=
  (((g.probing x).served x).heeded x).served x

/-- The ring is as it should be. -/
structure Settled (g : Growth) : Prop where
  /-- Everybody follows the next node clockwise. -/
  next : ∀ x ∈ g.joined, g.succ x ∈ g.joined ∧
    ∀ y ∈ g.joined, Id.span x.key (g.succ x).key ≤ Id.span x.key y.key
  /-- Everybody is known to the node it follows. -/
  known : ∀ x ∈ g.joined, (g.view (g.succ x)).predecessor = some x
  /-- All nodes are on one cycle. -/
  cycle : ∀ x ∈ g.joined, g.OnCycle x ∧ ∀ y ∈ g.joined, ∃ k, g.succ^[k] x = y

/-- Whom the successor of a node names as its predecessor. -/
def named (g : Growth) (x : Contact) : Contact :=
  (g.view (g.succ x)).predecessor.getD Contact.unset

variable {g : Growth} {x : Contact}

theorem view_probing (g : Growth) (x : Contact) : (g.probing x).view = g.view := by
  funext y
  by_cases hyx : y = x
  · rw [hyx, probing, view_follow_self]
    rfl
  · rw [probing, view_follow_other _ _ _ hyx]

theorem follow_wait (g : Growth) (x : Contact) (e : Option Errand) (t : Turn)
    (h : t.view.me = (g.view x).me) : (g.wait x e).follow x t h = g.follow x t h := by
  simp only [follow, wait, Function.update_idem]

theorem served_of_answer {q : Question} {r : Reply} (hasked : g.errand x = some (.asked q))
    (hr : g.answer q = some r) :
    g.served x =
      g.follow x (q.resume (g.settings x) (g.view x) (some r)) (resume_view_me _ _ q _) := by
  simp only [served, hasked, hr]

-- The same, when the turn is known by another name.
theorem served_of_turn {q : Question} {r : Reply} {t : Turn}
    (hasked : g.errand x = some (.asked q)) (hr : g.answer q = some r)
    (ht : q.resume (g.settings x) (g.view x) (some r) = t) : ∃ h, g.served x = g.follow x t h := by
  subst ht
  exact ⟨_, served_of_answer hasked hr⟩

namespace Sound

theorem steps_served (hs : g.Sound) (x : Contact) :
    Relation.ReflTransGen Step g (g.served x) := by
  rcases hasked : g.errand x with _ | q | ⟨q, r⟩
  · simp only [served, hasked]
    exact Relation.ReflTransGen.refl
  · rcases hs.exists_answer (hs.errands x _ hasked) with ⟨r, hr⟩
    rw [served_of_answer hasked hr]
    refine (Relation.ReflTransGen.single (Step.answer g x q r hasked hr)).tail ?_
    rw [← follow_wait g x (some (.answered q r))]
    exact Step.resume (g.wait x (some (.answered q r))) x q r (g.errand_wait_self x _)
  · simp only [served, hasked]
    exact Relation.ReflTransGen.refl

theorem tightens_served (hs : g.Sound) (hx : x ∈ g.joined) : g.Tightens (g.served x) := by
  rcases hasked : g.errand x with _ | q | ⟨q, r⟩
  · simp only [served, hasked]
    exact Tightens.refl g
  · have hq : g.Sensible x (g.succ x) q := hs.errands x _ hasked
    rcases hs.exists_answer hq with ⟨r, hr⟩
    rw [served_of_answer hasked hr]
    exact tightens_follow hx _ (hs.fair_resume hx hq (hs.credible_answer hq hr))
  · simp only [served, hasked]
    exact Tightens.refl g

-- A node that has joined follows somebody, so it has somebody to probe.
theorem errand_probing (hs : g.Sound) (hx : x ∈ g.joined) :
    (g.probing x).errand x = some (.asked (.probe (g.succ x))) := by
  have hset := g.isSet_of_mem (hs.joined_mem _ (hs.succ_joined x hx))
  have hnext : (Task.stabilize.begin (g.view x)).next = .ask (.probe (g.succ x)) :=
    if_pos hset
  rw [probing, Growth.follow, hnext, errand_settle_ask]

theorem tightens_probing (hs : g.Sound) (hx : x ∈ g.joined) :
    g.Tightens (g.probing x) ∧ (g.probing x).Sound :=
  ⟨tightens_follow hx _ (hs.fair_begin hx .stabilize hx),
    (hs.follow_fair hx _ (hs.fair_begin hx .stabilize hx)).2⟩

/-- The answer to a probe names whom the successor knows, and its turn takes that
    into account. -/
theorem served_probing (hs : g.Sound) (hx : x ∈ g.joined) :
    ∃ h, (g.probing x).served x =
      (g.probing x).follow x (introduce ((g.view x).probed (g.named x))) h := by
  have hmem : g.succ x ∈ (g.probing x).members := by
    rw [probing, toRoster_follow]
    exact hs.joined_mem _ (hs.succ_joined x hx)
  refine served_of_turn (hs.errand_probing hx)
    ((g.probing x).answer_of_mem (q := .probe (g.succ x)) hmem rfl) ?_
  rw [view_probing]
  rfl

end Sound

/-- Once its probe has been answered, a node may have a nearer successor. It
    waits for that one's list, and has made itself known to it. -/
structure Introduced (g g' : Growth) (x : Contact) : Prop where
  view : g'.view x = (g.view x).probed (g.named x)
  other : ∀ y, y ≠ x → g'.view y = g.view y
  asked : g'.errand x = some (.asked (.list (g'.succ x)))
  claimed : (x, (g'.succ x).endpoint) ∈ g'.claims

namespace Sound

theorem introduced (hs : g.Sound) (hx : x ∈ g.joined) :
    g.Introduced ((g.probing x).served x) x := by
  have hprobing := hs.tightens_probing hx
  have hserved := hprobing.2.steps (hprobing.2.steps_served x)
  have hsucc := hserved.2.succ_joined x (hserved.1.joined x ((hprobing.1.ring x).mpr hx))
  have hset := Roster.isSet_of_mem _ (hserved.2.joined_mem _ hsucc)
  rcases hs.served_probing hx with ⟨h, heq⟩
  rw [heq] at hset ⊢
  have hview := view_follow_self (g.probing x) x _ h
  have hfollows : ((g.probing x).follow x _ h).succ x =
      ((g.view x).probed (g.named x)).successor := congrArg View.successor hview
  rw [hfollows] at hset
  constructor
  case view => exact hview
  case other =>
    intro y hy
    rw [view_follow_other _ _ _ hy, view_probing]
  case asked =>
    have hnext : (introduce ((g.view x).probed (g.named x))).next =
        .ask (.list ((g.view x).probed (g.named x)).successor) := if_pos hset
    rw [hfollows, Growth.follow, hnext, errand_settle_ask]
  case claimed =>
    have hclaim : (introduce ((g.view x).probed (g.named x))).claim =
        some ((g.view x).probed (g.named x)).successor.endpoint := if_pos hset
    rw [hfollows, claims_follow, hclaim]
    refine List.mem_append_left _ (List.mem_singleton.mpr ?_)
    rw [introduce, View.probed_me, g.view_me x (hs.joined_mem x hx)]

end Sound

-- A list that was asked for leaves everybody's neighbours as they are.
theorem served_list {c : Contact} (hasked : g.errand x = some (.asked (.list c))) (y : Contact) :
    g.Alike (g.served x) y := by
  rcases hr : g.answer (.list c) with _ | r
  · simp only [served, hasked, hr]
    exact ⟨rfl, rfl⟩
  · rw [served_of_answer hasked hr]
    by_cases hyx : y = x
    · rw [hyx]
      refine ⟨?_, ?_⟩
      · rw [succ, view_follow_self]
        exact View.reported_successor _ _ _ _
      · rw [view_follow_self]
        exact View.reported_predecessor _ _ _ _
    · rw [Alike, succ, view_follow_other _ _ _ hyx]
      exact ⟨rfl, rfl⟩

namespace Introduced

variable {g' : Growth}

theorem succ_eq (h : g.Introduced g' x) :
    g'.succ x = ((g.view x).probed (g.named x)).successor := congrArg View.successor h.view

theorem notified_predecessor (h : g.Introduced g' x) (y c : Contact) :
    ((g'.view y).notified c).predecessor = ((g.view y).notified c).predecessor := by
  by_cases hyx : y = x
  · rw [hyx, h.view]
    rw [View.notified_predecessor, View.notified_predecessor, View.probed_accepts,
      View.probed_predecessor]
  · rw [h.other y hyx]

-- When the claim has been heard, the node still waits for the list.
theorem errand_heeded (h : g.Introduced g' x) :
    (g'.heeded x).errand x = some (.asked (.list (g'.succ x))) := h.asked

theorem succ_heeded (g' : Growth) (x : Contact) : (g'.heeded x).succ = g'.succ := by
  rw [heeded, succ_revise]
  exact (congrArg _ (View.notified_successor _ x)).trans (Function.update_eq_self _ _)

end Introduced

/-- The successor of a node that has checked it: whom its successor named, if
    that one is nearer. -/
theorem succ_stabilized (h : g.Introduced ((g.probing x).served x) x) :
    (g.stabilized x).succ x = ((g.view x).probed (g.named x)).successor := by
  rw [stabilized, (served_list h.errand_heeded x).1, Introduced.succ_heeded, h.succ_eq]

/-- That successor has heard the claim of the node. -/
theorem predecessor_stabilized (h : g.Introduced ((g.probing x).served x) x) :
    ((g.stabilized x).view ((g.stabilized x).succ x)).predecessor =
      ((g.view ((g.stabilized x).succ x)).notified x).predecessor := by
  rw [stabilized, (served_list h.errand_heeded _).2, (served_list h.errand_heeded x).1,
    Introduced.succ_heeded, heeded, view_revise_self]
  exact h.notified_predecessor _ x

namespace Sound

/-- After its probe a node only has to be heard and told a list. -/
theorem stabilized_of_introduced (hs : g.Sound) (hx : x ∈ g.joined)
    (hclaim : (x, (g.succ x).endpoint) ∈ g.claims) :
    Relation.ReflTransGen Step g ((g.heeded x).served x) ∧
      g.Tightens ((g.heeded x).served x) := by
  have hmem := hs.joined_mem _ (hs.succ_joined x hx)
  have hheard := Step.hear g (g.succ x) x hmem hclaim
  have hsound : (g.heeded x).Sound := (hs.step hheard).2
  have htight : g.Tightens (g.heeded x) := hs.tightens_hear _ _
  exact ⟨Relation.ReflTransGen.head hheard (hsound.steps_served x),
    htight.trans (hsound.tightens_served ((htight.ring x).mpr hx))⟩

/-- A cycle of a node is made up of steps, if the node is idle, and tightens the
    ring. -/
theorem stabilized (hs : g.Sound) (hx : x ∈ g.joined) :
    (g.errand x = none → Relation.ReflTransGen Step g (g.stabilized x)) ∧
      g.Tightens (g.stabilized x) := by
  have hprobing := hs.tightens_probing hx
  have hx' := (hprobing.1.ring x).mpr hx
  have hserved := hprobing.2.tightens_served hx'
  have hsteps := hprobing.2.steps_served x
  have hrest := (hprobing.2.steps hsteps).2.stabilized_of_introduced
    ((hserved.ring x).mpr hx') (hs.introduced hx).claimed
  refine ⟨fun hidle => ?_, (hprobing.1.trans hserved).trans hrest.2⟩
  exact Relation.ReflTransGen.head (Step.begin g x .stabilize (hs.joined_mem x hx) hidle hx)
    (hsteps.trans hrest.1)

/-- If a cycle of a node would change nothing, its successor knows it. -/
theorem known_of_still (hs : g.Sound) (hx : x ∈ g.joined)
    (hstill : ¬ g.Changes (g.stabilized x)) : (g.view (g.succ x)).predecessor = some x := by
  have hsame (y : Contact) (hy : y ∈ g.joined) : g.Alike (g.stabilized x) y :=
    of_not_not fun h => hstill ⟨y, hy, h⟩
  have hy := hs.succ_joined x hx
  have hintro := hs.introduced hx
  have hsucc : ((g.view x).probed (g.named x)).successor = g.succ x :=
    (succ_stabilized hintro).symm.trans (hsame x hx).1
  have hpred : ((g.view (g.succ x)).notified x).predecessor = (g.view (g.succ x)).predecessor := by
    have hheard := predecessor_stabilized hintro
    rw [(hsame x hx).1] at hheard
    exact hheard.symm.trans (hsame _ hy).2
  rw [View.notified_predecessor] at hpred
  by_cases haccept : (g.view (g.succ x)).accepts x = true
  · rw [if_pos haccept] at hpred
    exact hpred.symm
  · -- The claim is not believed, so there is a predecessor, and it is as near.
    rw [View.accepts, g.routable x (hs.joined_mem x hx), Bool.true_and] at haccept
    cases hp : (g.view (g.succ x)).predecessor with
    | none =>
        rw [hp] at haccept
        exact absurd rfl haccept
    | some p =>
        rw [hp, Arc.between_contains_iff, View.key, g.view_me _ (hs.joined_mem _ hy)] at haccept
        have hpj := (hs.predecessor _ (hs.joined_mem _ hy) p hp).1
        have hnamed : g.named x = p := by rw [named, hp]; rfl
        -- Nor is it nearer than the successor, or it would have been adopted.
        rw [hnamed] at hsucc
        have hfar := View.span_le_of_probed (g.routable p (hs.joined_mem p hpj)) hsucc
        rw [View.key, g.view_me x (hs.joined_mem x hx)] at hfar
        have hkey := Id.eq_of_span_le_span hfar (Nat.le_of_not_lt haccept)
        rw [g.eq_of_key_eq (hs.joined_mem x hx) (hs.joined_mem p hpj) hkey]

-- With injective successors the cycle has no way in from outside, so everybody
-- is on it.
theorem iterate_root (hs : g.Sound) {r : Contact} (hr : g.Behind r r)
    (hall : ∀ x ∈ g.joined, Relation.ReflTransGen g.Behind x r)
    (hinj : ∀ x ∈ g.joined, ∀ y ∈ g.joined, g.succ x = g.succ y → x = y) (hx : x ∈ g.joined) :
    ∃ m, g.succ^[m] r = x := by
  have hback (k : Nat) : ∀ x ∈ g.joined, ∀ y ∈ g.joined, g.succ^[k] x = g.succ^[k] y → x = y := by
    induction k with
    | zero => exact fun x _ y _ h => h
    | succ k ih =>
        intro x hx y hy h
        rw [Function.iterate_succ_apply, Function.iterate_succ_apply] at h
        exact hinj x hx y hy (ih _ (hs.succ_joined x hx) _ (hs.succ_joined y hy) h)
  rcases hr.2.iterate with ⟨n, hn, hend, _⟩
  rcases iterate_of_reaches (hall x hx) with ⟨k, hk⟩
  -- Both get to the root in `k` steps, the one from where the cycle is that far
  -- before it.
  refine ⟨n * k - k, hback k _ (hs.iterate_joined hr.1 _) x hx ?_⟩
  have hle : k ≤ n * k := Nat.le_mul_of_pos_left k hn
  rw [← Function.iterate_add_apply, Nat.add_sub_cancel' hle, hk]
  exact Function.IsPeriodicPt.mul_const hend k

/-- If every successor knows its node, the ring is as it should be. -/
theorem settled_of_known (hs : g.Sound)
    (hknown : ∀ x ∈ g.joined, (g.view (g.succ x)).predecessor = some x) : g.Settled := by
  rcases hs.rooted with ⟨r, hr, hall⟩
  have hinj : ∀ x ∈ g.joined, ∀ y ∈ g.joined, g.succ x = g.succ y → x = y := by
    intro x hx y hy h
    have hx' := hknown x hx
    rw [h, hknown y hy] at hx'
    exact (Option.some.inj hx').symm
  have hcycle : ∀ x ∈ g.joined, ∀ y ∈ g.joined, ∃ k, g.succ^[k] x = y := by
    intro x hx y hy
    rcases hs.iterate_root hr hall hinj hy with ⟨m, hm⟩
    rcases iterate_of_reaches (hall x hx) with ⟨k, hk⟩
    exact ⟨m + k, by rw [Function.iterate_add_apply, hk, hm]⟩
  constructor
  case known => exact hknown
  case cycle =>
    intro x hx
    rcases hcycle _ (hs.succ_joined x hx) x hx with ⟨k, hk⟩
    exact ⟨⟨hx, k + 1, Nat.succ_pos k, by rw [Function.IsPeriodicPt, Function.IsFixedPt,
      Function.iterate_succ_apply, hk]⟩, hcycle x hx⟩
  case next =>
    intro x hx
    refine ⟨hs.succ_joined x hx, fun y hy => ?_⟩
    rcases hs.iterate_root hr hall hinj hx with ⟨m, rfl⟩
    rcases hcycle _ hx y hy with ⟨k, rfl⟩
    exact (windsOnce_of_leads hr.2 m).span_le_iterate k

end Sound

/-- What is promised of a growing ring that is left to itself. -/
structure Settling (g : Growth) : Prop where
  /-- If no cycle of any node would change a neighbour of anybody, the ring is as
      it should be. -/
  settled : (∀ x ∈ g.joined, ¬ g.Changes (g.stabilized x)) → g.Settled
  /-- A cycle that changes one makes the slack less. -/
  tighter : ∀ x ∈ g.joined, g.Changes (g.stabilized x) → (g.stabilized x).slack < g.slack
  /-- An idle node can carry out its cycle. -/
  possible : ∀ x ∈ g.joined, g.errand x = none → Relation.ReflTransGen Step g (g.stabilized x)
  /-- However the cycles of the nodes interleave, while nobody joins every step
      that changes a neighbour makes the slack less, and there are no more of
      these than there was slack. -/
  bounded : ∀ run : Nat → Growth, run 0 = g → ∀ n,
    (∀ i < n, Step (run i) (run (i + 1)) ∧ (run i).SameRing (run (i + 1))) →
      (∀ i < n, (run i).Changes (run (i + 1)) → (run (i + 1)).slack < (run i).slack) ∧
        ((Finset.range n).filter fun i => (run i).Changes (run (i + 1))).card ≤ g.slack

/-- Every ring that grows from one node settles. -/
theorem settling_of_reachable {me : Contact} {settings : Contact → Settings}
    {h : me.isRoutable = true} (hg : Reachable me settings h g) : g.Settling := by
  have hs : g.Sound := ((sound_first me settings h).steps hg).2
  constructor
  case settled =>
    intro hstill
    exact hs.settled_of_known fun x hx => hs.known_of_still hx (hstill x hx)
  case tighter => exact fun x hx hchange => (hs.stabilized hx).2.slack_lt hchange
  case possible => exact fun x hx => (hs.stabilized hx).1
  case bounded =>
    intro run hstart n hsteps
    refine ⟨fun i hi hchange => ?_, ?_⟩
    · have hsound := (hs.changes_le_slack run hstart i fun j hj =>
        hsteps j (Nat.lt_trans hj hi)).1
      exact (hsound.tightens_step (hsteps i hi).1 (hsteps i hi).2).slack_lt hchange
    · have hbound := (hs.changes_le_slack run hstart n hsteps).2
      omega

/-- A second node enters through the first, and both carry out a cycle: nothing
    changes any more. -/
theorem two_nodes_settle :
    ∃ g, Reachable .early (fun _ => {}) (by decide) g ∧
      (∀ x ∈ g.joined, ¬ g.Changes (g.stabilized x)) ∧ g.joined = [.middle, .early] ∧
        g.Settled := by
  have harrive : Reachable .early (fun _ => {}) (by decide) _ :=
    Relation.ReflTransGen.single (Step.arrive _ .middle ⟨by decide, by decide, by decide⟩)
  have henter := harrive.tail
    (Step.begin _ .middle (.enter [Contact.early.endpoint] false) (by decide) rfl
      ⟨by decide, rfl, by decide, fun e he => ⟨.early, by decide, (List.mem_singleton.mp he).symm⟩⟩)
  have hjoin := (henter.tail (Step.answer _ .middle _ _ rfl rfl)).tail
    (Step.resume _ .middle _ _ rfl)
  have hfirst := hjoin.trans
    ((settling_of_reachable hjoin).possible .middle (List.mem_cons_self ..) rfl)
  have hsecond := hfirst.trans
    ((settling_of_reachable hfirst).possible .early
      (List.mem_cons_of_mem _ (List.mem_cons_self ..)) rfl)
  refine ⟨_, hsecond, ?still, rfl, (settling_of_reachable hsecond).settled ?still⟩
  decide +kernel

end Growth

end RingOverlay
