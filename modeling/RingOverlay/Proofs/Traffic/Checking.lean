import RingOverlay.Proofs.Traffic.Survivors

/-!
# Forgetting Silent Predecessors

What an ideal ring looks like once some of its members have fallen silent and the
others have looked after their predecessors. A predecessor that is silent has been
forgotten, and nothing else has changed. This has to come first: a member that
still names a silent predecessor would send others there.

## Main definitions

* `Traffic.OnlyChecks`: A rule by which nothing else is done.
* `Traffic.Shed`: A view that may have lost a silent predecessor.
* `Traffic.Checking`: The invariant while this is under way.
* `Traffic.bereftTrio`, `Traffic.checkedTrio`: Three members of whom one is silent,
  before and after.

## Theorems

* `Checking.carry`: A turn of such a check.
* `Checking.step`: Whatever happens keeps the invariant.
* `checking_of_ideal`: It holds until something else is done.
-/

namespace RingOverlay

namespace Traffic

/-- A rule by which the members only check their predecessors. -/
def OnlyChecks (_ : Traffic) (_ : Contact) (t : Task) : Prop := t = .checkPredecessor

/-- A view is the first one, but for a silent predecessor that may be missing. -/
structure Shed (g : Traffic) (v w : View) : Prop where
  rest : w = { v with predecessor := w.predecessor }
  predecessor : w.predecessor = v.predecessor ∨
    w.predecessor = none ∧ ∀ p, v.predecessor = some p → g.up p = false

namespace Shed

variable {g : Traffic} {v w : View} {p : Contact}

theorem successor (h : g.Shed v w) : w.successor = v.successor := by rw [h.rest]

theorem successors (h : g.Shed v w) : w.successors = v.successors := by rw [h.rest]

theorem misses (h : g.Shed v w) : w.misses = v.misses := by rw [h.rest]

-- A predecessor that is left is the first one.
theorem known (h : g.Shed v w) (hp : w.predecessor = some p) : v.predecessor = some p := by
  rcases h.predecessor with hsame | ⟨hnone, _⟩
  · exact hsame.symm.trans hp
  · rw [hnone] at hp
    cases hp

-- A silent predecessor is forgotten, if that has not happened before.
theorem bereaved (h : g.Shed v w) (hp : v.predecessor = some p) (hsilent : g.up p = false) :
    g.Shed v (w.bereaved p) ∧ (w.bereaved p).predecessor = none := by
  have hgone : ∀ p', v.predecessor = some p' → g.up p' = false := fun p' hp' => by
    rw [hp] at hp'
    exact Option.some.inj hp' ▸ hsilent
  rcases h.predecessor with hsame | ⟨hnone, _⟩
  · rw [View.bereaved, if_pos (hsame.trans hp)]
    exact ⟨⟨by rw [h.rest], Or.inr ⟨rfl, hgone⟩⟩, rfl⟩
  · rw [View.bereaved, if_neg (by rw [hnone]; exact (Option.some_ne_none p).symm)]
    exact ⟨h, hnone⟩

end Shed

/-- The invariant while the members of an ideal ring that are left check their
    predecessors. -/
structure Checking (g₀ g : Traffic) : Prop where
  frame : g₀.Frame g
  views : ∀ x ∈ g₀.survivors.members, g₀.Shed (g₀.view x) (g.view x)
  ended : ∀ e ∈ g.ended, e.2 = .checkPredecessor
  /-- Whoever has ended its check does not believe in a silent predecessor. -/
  checked : ∀ x ∈ g₀.survivors.members, (x, .checkPredecessor) ∈ g.ended →
    ∀ p, (g.view x).predecessor = some p → g₀.up p = true
  jobs : ∀ j ∈ g.jobs, j.node ∈ g₀.survivors.members ∧ j.task = .checkPredecessor ∧
    ∃ p, j.question = .pulse p ∧ (g₀.view j.node).predecessor = some p ∧
      ∀ r, j.reply = some r → g₀.up p = true
  claims : ∀ c e, (c, e) ∈ g.claims → ∀ z ∈ g₀.survivors.members, z.endpoint = e →
    (g₀.view z).predecessor = some c ∧ g₀.up c = true

variable {g₀ g g' : Traffic} {x y : Contact} {ceiling : Nat}

namespace Checking

/-- A turn of a check. -/
theorem carry (h : Checking g₀ g) (hx : x ∈ g₀.survivors.members)
    {begun : List (Contact × Task)} {others : List Job} (hothers : ∀ j ∈ others, j ∈ g.jobs)
    {turn : Turn} (hme : turn.view.me = (g.view x).me) (hview : g₀.Shed (g₀.view x) turn.view)
    (hclaim : turn.claim = none)
    (hchecked : (turn.next.isLast = true ∨ (x, .checkPredecessor) ∈ g.ended) →
      ∀ p, turn.view.predecessor = some p → g₀.up p = true)
    (hnext : ∀ q, turn.next = .ask q → ∃ p, q = .pulse p ∧ (g₀.view x).predecessor = some p) :
    Checking g₀ (g.carry begun others x .checkPredecessor turn hme) := by
  constructor
  case frame => exact ⟨h.frame.roster, h.frame.settings, h.frame.up⟩
  case views =>
    intro y hy
    by_cases hyx : y = x
    · rw [hyx, view_carry_self]
      exact hview
    · rw [view_carry_other _ hyx]
      exact h.views y hy
  case ended =>
    intro e he
    rw [Traffic.carry] at he
    split at he
    · rcases List.mem_cons.mp he with rfl | hold
      · rfl
      · exact h.ended e hold
    · exact h.ended e he
  case checked =>
    intro y hy hended
    rw [Traffic.carry] at hended
    by_cases hyx : y = x
    · rw [hyx, view_carry_self]
      refine hchecked ?_
      rw [hyx] at hended
      split at hended
      · rename_i hlast
        exact Or.inl hlast
      · exact Or.inr hended
    · rw [view_carry_other _ hyx]
      refine h.checked y hy ?_
      split at hended
      · rcases List.mem_cons.mp hended with heq | hold
        · exact absurd (congrArg Prod.fst heq) hyx
        · exact hold
      · exact hended
  case jobs =>
    intro j hj
    rcases mem_jobs_carry hj with hold | ⟨q, hq, rfl⟩
    · exact h.jobs j (hothers j hold)
    · rcases hnext q hq with ⟨p, rfl, hp⟩
      exact ⟨hx, rfl, p, rfl, hp, fun r hr => by cases hr⟩
  case claims =>
    intro c e hc
    rcases mem_claims_carry hc with hold | ⟨hnew, _⟩
    · exact h.claims c e hold
    · rw [hclaim] at hnew
      cases hnew

/-- Whatever happens keeps the invariant. -/
theorem step (hideal : g₀.Ideal ceiling) (h : Checking g₀ g) (hstep : Step OnlyChecks g g') :
    Checking g₀ g' := by
  cases hstep with
  | launch x t hx hup hmay =>
      rcases hmay with rfl
      have hs := h.frame.mem_survivors hx hup
      refine h.carry hs (fun j hj => hj) _ (h.views x hs) rfl ?_ ?_
      · rintro (hlast | hended) p hp
        · have hknown : (g.view x).predecessor = some p := hp
          simp only [Task.begin, hknown, Next.isLast, Bool.false_eq_true] at hlast
        · exact h.checked x hs hended p hp
      · intro q hq
        cases hknown : (g.view x).predecessor with
        | none => simp only [Task.begin, hknown, reduceCtorEq] at hq
        | some p =>
            simp only [Task.begin, hknown, Next.ask.injEq] at hq
            exact ⟨p, hq.symm, (h.views x hs).known hknown⟩
  | receive j y r hj hopen hy hup htarget hr =>
      refine ⟨⟨h.frame.roster, h.frame.settings, h.frame.up⟩, h.views, h.ended, h.checked, ?_,
        h.claims⟩
      intro k hk
      rcases List.mem_cons.mp hk with rfl | hold
      · rcases h.jobs j hj with ⟨hx, htask, p, hq, hp, _⟩
        refine ⟨hx, htask, p, hq, hp, fun _ _ => ?_⟩
        have hpm := (hideal.follows_predecessor (mem_survivors.mp hx).1 hp).1
        rw [hq] at htarget
        rw [g₀.eq_of_endpoint_eq hpm (h.frame.mem.mp hy) htarget, ← h.frame.up, hup]
      · exact h.jobs k (List.mem_of_mem_erase hold)
  | resume j r hj hr =>
      rcases j with ⟨x, t, q, reply⟩
      rcases h.jobs _ hj with ⟨hx, rfl, p, rfl, hp, hup⟩
      refine h.carry hx (fun _ => List.mem_of_mem_erase) _ (h.views x hx) rfl ?_ fun q hq => ?_
      · intro _ p' hp'
        have hsame := (h.views x hx).known hp'
        rw [show (g₀.view x).predecessor = some p from hp] at hsame
        exact Option.some.inj hsame ▸ hup r hr
      · cases hq
  | lapse j hj hopen hnobody =>
      rcases j with ⟨x, t, q, reply⟩
      rcases h.jobs _ hj with ⟨hx, rfl, p, rfl, hp, _⟩
      have hpm := (hideal.follows_predecessor (mem_survivors.mp hx).1 hp).1
      have hsilent := h.frame.silent hnobody hpm rfl
      rcases (h.views x hx).bereaved hp hsilent with ⟨hview, hnone⟩
      refine h.carry hx (fun _ => List.mem_of_mem_erase) _ hview rfl ?_ fun q hq => ?_
      · intro _ p' hp'
        rw [show ((g.view x).bereaved p).predecessor = some p' from hp'] at hnone
        cases hnone
      · cases hq
  | tell x hx hup hset =>
      have hmem := h.frame.mem.mp hx
      have hs := h.frame.mem_survivors hx hup
      refine ⟨⟨h.frame.roster, h.frame.settings, h.frame.up⟩, h.views, h.ended, h.checked, h.jobs,
        ?_⟩
      intro c e hc z hz he
      rcases List.mem_cons.mp hc with heq | hold
      · cases heq
        rw [(h.views x hs).successor] at he
        rw [g₀.eq_of_endpoint_eq (mem_survivors.mp hz).1 (hideal.successor x hmem).1 he]
        exact ⟨hideal.known hmem, (mem_survivors.mp hs).2⟩
      · exact h.claims c e hold z hz he
  | hear x c hx hup hclaim =>
      have hs := h.frame.mem_survivors hx hup
      rcases h.claims c _ hclaim x hs rfl with ⟨hp, hcup⟩
      have hsame : (g.view x).notified c = g.view x := by
        rcases (h.views x hs).predecessor with hkept | ⟨_, hsilent⟩
        · exact View.notified_of_known _ _ (hkept.trans hp)
        · rw [hsilent c hp] at hcup
          cases hcup
      have hview : (g.hear x c).view = g.view := by
        funext z
        by_cases hzx : z = x
        · rw [hzx, view_hear_self, hsame]
        · exact view_hear_other g c hzx
      refine ⟨⟨h.frame.roster, h.frame.settings, h.frame.up⟩, ?_, h.ended, ?_, h.jobs, ?_⟩
      · exact hview ▸ h.views
      · exact hview ▸ h.checked
      · exact fun c' e hc => h.claims c' e (List.mem_of_mem_erase hc)

end Checking

/-- As long as nothing else is done, the invariant holds. -/
theorem checking_of_ideal (hideal : g.Ideal ceiling) (hquiet : g.Quiet)
    (hrun : Relation.ReflTransGen (Step OnlyChecks) g g') : Checking g g' := by
  induction hrun with
  | refl =>
      constructor
      case frame => exact ⟨rfl, rfl, rfl⟩
      case views => exact fun x _ => ⟨rfl, Or.inl rfl⟩
      case ended => rw [hquiet.ended]; exact fun e he => by cases he
      case checked => rw [hquiet.ended]; exact fun x _ he => by cases he
      case jobs => rw [hquiet.jobs]; exact fun j hj => by cases hj
      case claims => rw [hquiet.claims]; exact fun c e hc => by cases hc
  | tail _ hstep ih => exact ih.step hideal hstep

/-- The trio once its second member has fallen silent. -/
def bereftTrio : Traffic := quietTrio fun c => decide (c ≠ .middle)

/-- The two who are left have checked their predecessors, one after the other. -/
def checkedTrio : Traffic :=
  (((bereftTrio.launch .early .checkPredecessor).answered
    ⟨.early, .checkPredecessor, .pulse .late, none⟩ (Message.new 0 .alive).toReply).launch
    .late .checkPredecessor).proceed ⟨.late, .checkPredecessor, .pulse .middle, none⟩ none

theorem reaches_checkedTrio : Relation.ReflTransGen (Step OnlyChecks) bereftTrio checkedTrio := by
  have hearly : Relation.ReflTransGen (Step OnlyChecks) bereftTrio _ :=
    .single (.launch _ .early .checkPredecessor (by decide) rfl rfl)
  have halive := reaches_answered hearly .late (List.mem_cons_self ..) rfl (by decide) rfl rfl rfl
  have hlate := halive.tail (.launch _ .late .checkPredecessor (by decide) rfl rfl)
  exact hlate.tail (.lapse _ _ (List.mem_cons_self ..) rfl (by decide))

end Traffic

end RingOverlay
