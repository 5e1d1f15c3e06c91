import RingOverlay.Proofs.Growth.Turns

/-!
# The Safety of Growing Rings

A growing ring is never quite right: newcomers hang off it by one pointer, and
several of them may wait on one arc to be taken in. What can be promised is that
it is always one ring. Its cycle goes round once, everybody gets onto it, and
nobody who is on it ever falls off; and a predecessor, as far behind the times
as it may be, always lies before its node.

All four follow from the invariant. A node is on the cycle exactly if the
successors lead from it back to itself, and ways are never lost.

## Main definitions

* `Growth.OnCycle`: A node that has joined and comes back to itself.
* `Growth.Safe`: What is promised.

## Theorems

* `Sound.step`, `Sound.steps`: Whatever happens keeps a ring sound and loses no
  way.
* `Sound.onCycle_iff`: Being on the cycle is being led back to oneself.
* `safe_of_reachable`: The promise is kept.
-/

namespace RingOverlay

namespace Growth

/-- A node that has joined, and to which its successors come back. -/
def OnCycle (g : Growth) (c : Contact) : Prop := c ∈ g.joined ∧ c ∈ Function.periodicPts g.succ

/-- What is promised of a growing ring. -/
structure Safe (g : Growth) : Prop where
  /-- There is a cycle. -/
  cycle : ∃ c, g.OnCycle c
  /-- There is only one, and everybody who has joined gets onto it: all of it is
      reached from everywhere. -/
  reached : ∀ c, g.OnCycle c → ∀ x ∈ g.joined, ∃ k, g.succ^[k] x = c
  /-- It goes round the circle once. -/
  winds : ∀ c, g.OnCycle c → WindsOnce g.succ c
  /-- Nobody leaves it, whatever happens. -/
  stays : ∀ c, g.OnCycle c → ∀ g', Relation.ReflTransGen Step g g' → g'.OnCycle c
  /-- From a predecessor the successors come to its node, on the arc between the
      two. -/
  arc : ∀ y ∈ g.members, ∀ p, (g.view y).predecessor = some p →
    p ∈ g.joined ∧ ∃ k > 0, g.succ^[k] p = y ∧
      ∀ i, 0 < i → i ≤ k → (Arc.upTo p.key y.key).contains (g.succ^[i] p).key = true

variable {g g' : Growth} {x c : Contact}

-- A way through several nodes is an iteration.
theorem iterate_of_transGen {a b : Contact} (h : Relation.TransGen g.Behind a b) :
    ∃ k > 0, g.succ^[k] a = b := by
  induction h with
  | single hb =>
      rcases hb.2.iterate with ⟨k, hk, hend, _⟩
      exact ⟨k, hk, hend⟩
  | tail _ hb ih =>
      rcases ih with ⟨j, hj, hmid⟩
      rcases hb.2.iterate with ⟨k, _, hend, _⟩
      exact ⟨k + j, by omega, by rw [Function.iterate_add_apply, hmid, hend]⟩

theorem iterate_of_reaches {a b : Contact} (h : Relation.ReflTransGen g.Behind a b) :
    ∃ k, g.succ^[k] a = b := by
  rcases Relation.reflTransGen_iff_eq_or_transGen.mp h with rfl | ht
  · exact ⟨0, rfl⟩
  · rcases iterate_of_transGen ht with ⟨k, _, hk⟩
    exact ⟨k, hk⟩

namespace Sound

theorem iterate_joined (hs : g.Sound) (hx : x ∈ g.joined) (n : Nat) :
    g.succ^[n] x ∈ g.joined := by
  induction n with
  | zero => exact hx
  | succ n ih =>
      rw [Function.iterate_succ_apply']
      exact hs.succ_joined _ ih

-- An iteration is a way through several nodes.
theorem transGen_iterate (hs : g.Sound) (hx : x ∈ g.joined) (n : Nat) :
    Relation.TransGen g.Behind x (g.succ^[n + 1] x) := by
  induction n with
  | zero => exact Relation.TransGen.single ⟨hx, Leads.last rfl⟩
  | succ n ih =>
      rw [Function.iterate_succ_apply']
      exact ih.tail ⟨hs.iterate_joined hx (n + 1), Leads.last rfl⟩

/-- Being on the cycle is being led back to oneself. -/
theorem onCycle_iff (hs : g.Sound) : g.OnCycle c ↔ Relation.TransGen g.Behind c c := by
  constructor
  · rintro ⟨hj, n, hn, hend⟩
    rcases Nat.exists_eq_succ_of_ne_zero (Nat.ne_of_gt hn) with ⟨m, rfl⟩
    have hway := hs.transGen_iterate hj m
    rw [← Nat.succ_eq_add_one, hend] at hway
    exact hway
  · intro h
    rcases Relation.TransGen.head'_iff.mp h with ⟨b, hb, _⟩
    exact ⟨hb.1, iterate_of_transGen h⟩

-- Whoever is on the cycle stays on it while no way is lost.
theorem onCycle_of_grows (hs : g.Sound) (hs' : g'.Sound) (h : g.Grows g') (hc : g.OnCycle c) :
    g'.OnCycle c :=
  hs'.onCycle_iff.mpr (Relation.TransGen.mono h.behind _ _ (hs.onCycle_iff.mp hc))

-- One node that everybody gets to lies on the cycle, and the cycle goes on from
-- there to everybody else on it.
theorem onCycle_of_rooted {r : Contact}
    (hall : ∀ x ∈ g.joined, Relation.ReflTransGen g.Behind x r) (hc : g.OnCycle c) :
    ∃ m, g.succ^[m] r = c := by
  rcases hc with ⟨hj, n, hn, hend⟩
  rcases iterate_of_reaches (hall c hj) with ⟨k, hk⟩
  -- The cycle is followed from `r` on until it has been gone round `k` times.
  refine ⟨n * k - k, ?_⟩
  have hle : k ≤ n * k := Nat.le_mul_of_pos_left k hn
  rw [← hk, ← Function.iterate_add_apply, Nat.sub_add_cancel hle]
  exact (hend.mul_const k)

-- A heard claim is made by one who leads to the node that hears it.
theorem hear (hs : g.Sound) (hx : x ∈ g.members) (hclaim : (c, x.endpoint) ∈ g.claims) :
    g.Grows (g.revise x ((g.view x).heard (.claim c)) (View.heard_me _ (.claim c))) ∧
      (g.revise x ((g.view x).heard (.claim c)) (View.heard_me _ (.claim c))).Sound := by
  rcases hs.claims c x.endpoint hclaim with ⟨y, hy, he, hb⟩
  have hyx : y = x := g.eq_of_endpoint_eq (hs.joined_mem y hy) hx he
  have hsame : ((g.view x).notified c).successor = g.succ x := View.notified_successor _ c
  refine hs.revise _ (Or.inl hsame) ?_ ?_ ?_ ?_
  · intro a _ b hab
    rw [View.heard, hsame, Function.update_eq_self]
    exact hab
  · intro hj
    rw [View.heard, hsame]
    exact hs.succ_joined x hj
  · intro p hp
    rcases (g.view x).notified_cases c with hnew | hold
    · rw [View.heard, hnew] at hp
      cases hp
      exact hyx ▸ hb
    · rw [View.heard, hold] at hp
      exact hs.predecessor x hx p hp
  · intro i
    rw [View.heard, View.notified_finger]
    exact hs.fingers x hx i

/-- Whatever happens keeps a ring sound and loses no way. -/
theorem step (hs : g.Sound) (h : Step g g') : g.Grows g' ∧ g'.Sound := by
  cases h with
  | arrive x h => exact hs.arrive h
  | begin x t hx hidle hmay =>
      by_cases hj : x ∈ g.joined
      · exact hs.follow_fair hj _ (hs.fair_begin hj t hmay)
      · exact hs.follow_entering hx hj _ (entering_begin hx hj t hmay)
  | answer x q r hasked hanswer =>
      have hq : g.Sensible x (g.succ x) q := hs.errands x _ hasked
      refine ⟨Grows.wait g x _, hs.wait fun e he => ?_⟩
      cases he
      exact ⟨hq, hs.credible_answer hq hanswer⟩
  | resume x q r hanswered =>
      have hup : g.Upheld x (g.succ x) (.answered q r) := hs.errands x _ hanswered
      by_cases hj : x ∈ g.joined
      · exact hs.follow_fair hj _ (hs.fair_resume hj hup.1 hup.2)
      · exact hs.follow_entering (hs.mem_of_errand hanswered) hj _ (entering_resume hj hup.1 hup.2)
  | hear x c hx hclaim => exact hs.hear hx hclaim

-- So does a whole run.
theorem steps (hs : g.Sound) (h : Relation.ReflTransGen Step g g') : g.Grows g' ∧ g'.Sound := by
  induction h with
  | refl => exact ⟨Grows.refl g, hs⟩
  | tail _ hstep ih =>
      have hnext := ih.2.step hstep
      exact ⟨ih.1.trans hnext.1, hnext.2⟩

end Sound

/-- Every ring that grows from one node is safe. -/
theorem safe_of_reachable {me : Contact} {settings : Contact → Settings}
    {h : me.isRoutable = true} (hg : Reachable me settings h g) : g.Safe := by
  have hs : g.Sound := ((sound_first me settings h).steps hg).2
  rcases hs.rooted with ⟨r, hr, hall⟩
  constructor
  case cycle => exact ⟨r, hs.onCycle_iff.mpr (Relation.TransGen.single hr)⟩
  case reached =>
    intro c hc x hx
    rcases Sound.onCycle_of_rooted hall hc with ⟨m, hm⟩
    rcases iterate_of_reaches (hall x hx) with ⟨k, hk⟩
    exact ⟨m + k, by rw [Function.iterate_add_apply, hk, hm]⟩
  case winds =>
    intro c hc
    rcases Sound.onCycle_of_rooted hall hc with ⟨m, rfl⟩
    exact windsOnce_of_leads hr.2 m
  case stays =>
    intro c hc g' hrun
    have hnext := hs.steps hrun
    exact hs.onCycle_of_grows hnext.2 hnext.1 hc
  case arc =>
    intro y hy p hp
    have hb := hs.predecessor y hy p hp
    rcases hb.2.iterate with ⟨k, hk, hend, harc⟩
    exact ⟨hb.1, k, hk, hend, fun i hi hik => Arc.upTo_contains_iff.mpr (harc i hi hik)⟩

/-- A second node enters through the first, and each of them checks its successor
    once: they follow each other, and the first knows the second as its
    predecessor. -/
theorem two_nodes_safe :
    ∃ g, Reachable .early (fun _ => {}) (by decide) g ∧ g.succ .early = .middle ∧
      g.succ .middle = .early ∧ (g.view .early).predecessor = some .middle ∧ g.Safe := by
  have harrive : Reachable .early (fun _ => {}) (by decide) _ :=
    Relation.ReflTransGen.single (Step.arrive _ .middle ⟨by decide, by decide, by decide⟩)
  have henter := harrive.tail
    (Step.begin _ .middle (.enter [Contact.early.endpoint] false) (by decide) rfl
      ⟨by decide, rfl, by decide, fun e he => ⟨.early, by decide, (List.mem_singleton.mp he).symm⟩⟩)
  have hjoin := (henter.tail (Step.answer _ .middle _ _ rfl rfl)).tail
    (Step.resume _ .middle _ _ rfl)
  have hprobe := hjoin.tail
    (Step.begin _ .middle .stabilize (by decide) rfl (List.mem_cons_self ..))
  have hclaim := (hprobe.tail (Step.answer _ .middle _ _ rfl rfl)).tail
    (Step.resume _ .middle _ _ rfl)
  have hheard := hclaim.tail (Step.hear _ .early .middle (by decide) (List.mem_cons_self ..))
  have hback := hheard.tail
    (Step.begin _ .early .stabilize (by decide) rfl
      (List.mem_cons_of_mem _ (List.mem_cons_self ..)))
  have hadopt := (hback.tail (Step.answer _ .early _ _ rfl rfl)).tail
    (Step.resume _ .early _ _ rfl)
  exact ⟨_, hadopt, rfl, rfl, rfl, safe_of_reachable hadopt⟩

end Growth

end RingOverlay
