import RingOverlay.Proofs.Traffic.Checking

/-!
# A Ring Heals

After some members of an ideal ring have fallen silent, the others find each other
again. Each goes through its own list at its own pace, past those that are silent,
and stops at the first that answers; that one is the next one who is left, and it
is told so.

Nobody is misled on the way. A member believes only in a predecessor that made
itself known, and whoever made itself known had stopped there. So whoever is asked
for its predecessor names the one who asks, or nobody. And nobody goes too far:
a successor that answers is never missed.

The last is only true because a member does not check its successor twice at a
time. A probe that runs out of time is held against whomever the member follows
*then*, and with a second cycle under way that may be another one than the one who
was asked. `late_is_lost` shows how a node is given up that has answered everything.

## Main definitions

* `Traffic.OneCycle`: A rule by which a member checks its successor only once at a
  time.
* `Traffic.probes`: How many probes of a member have come to an end.
* `Traffic.Announced`: A member is known to the one it follows, or soon will be.
* `Traffic.Proper`: What holds of a job under way.
* `Traffic.Healing`: The invariant.

## Theorems

* `probes_carry`, `probes_launch`, `probes_proceed`: How probes are counted.
* `Healing.carry`: A turn, by what it does to its member.
* `Healing.lapse_probe`: A probe that runs out of time, the one turn that takes a
  member further.
* `Healing.step`: Whatever happens keeps the invariant.
* `healed_of_ideal`: When every member has made enough probes, the ring is healed.
* `late_is_lost`: It need not be if cycles of one member overlap.
-/

namespace RingOverlay

/-- A question is a probe of the successor. -/
def Question.isProbe : Question → Bool
  | .probe _ => true
  | _ => false

/-- A turn ends with a probe of the successor. -/
def Next.asksProbe : Next → Bool
  | .ask q => q.isProbe
  | .finish _ => false

namespace Job

/-- A job is a cycle of a member that is done with its probe. -/
def probed (x : Contact) (j : Job) : Bool :=
  decide (j.node = x ∧ j.task = .stabilize ∧ j.question.isProbe = false)

/-- Two jobs are not two cycles of one member. -/
def Apart (a b : Job) : Prop := a.node = b.node → a.task = .stabilize → b.task ≠ .stabilize

theorem Apart.symm {a b : Job} (h : a.Apart b) : b.Apart a :=
  fun hnode hb ha => h hnode.symm ha hb

end Job

namespace Traffic

/-- A rule by which a member may take up anything but entering a ring, and does not
    check its successor while it is still at it. -/
def OneCycle (g : Traffic) (x : Contact) (t : Task) : Prop :=
  t.Stays ∧ (t = .stabilize → ∀ j ∈ g.jobs, j.node = x → j.task ≠ .stabilize)

/-- How many probes of a member have come to an end. -/
def probes (g : Traffic) (x : Contact) : Nat :=
  g.ended.count (x, .stabilize) + g.jobs.countP (Job.probed x)

section Probes

variable {g : Traffic} {begun : List (Contact × Task)} {others : List Job} {x y : Contact}
  {t : Task} {turn : Turn}

-- A turn of a cycle counts unless it asks the probe.
theorem probes_carry (hme : turn.view.me = (g.view x).me) :
    (g.carry begun others x t turn hme).probes y =
      g.ended.count (y, .stabilize) + others.countP (Job.probed y) +
        if x = y ∧ t = .stabilize ∧ turn.next.asksProbe = false then 1 else 0 := by
  cases hnext : turn.next with
  | ask q =>
      simp only [probes, Traffic.carry, hnext, Next.job?, Option.toList_some, List.singleton_append,
        List.countP_cons, Job.probed, decide_eq_true_eq, Next.isLast, Bool.false_eq_true, if_false,
        Next.asksProbe, Nat.add_assoc]
      rfl
  | finish outcome =>
      simp only [probes, Traffic.carry, hnext, Next.job?, Option.toList_none, List.nil_append,
        Next.isLast, if_true, List.count_cons, beq_iff_eq, Prod.mk.injEq, Next.asksProbe, and_true]
      omega

-- A task that is taken up does not count, unless it is a cycle without a probe.
theorem probes_launch (h : t = .stabilize → (t.begin (g.view x)).next.asksProbe = true) :
    (g.launch x t).probes y = g.probes y := by
  rw [launch, probes_carry, if_neg]
  · rfl
  · rintro ⟨_, htask, hnext⟩
    rw [h htask] at hnext
    cases hnext

theorem probes_proceed {j : Job} (hj : j ∈ g.jobs) (answer : Option Reply) :
    (g.proceed j answer).probes y +
        (if j.node = y ∧ j.task = .stabilize ∧ j.question.isProbe = false then 1 else 0) =
      g.probes y +
        if j.node = y ∧ j.task = .stabilize ∧
          (j.question.resume (g.settings j.node) (g.view j.node) answer).next.asksProbe = false
        then 1 else 0 := by
  have hperm := (List.perm_cons_erase hj).countP_eq (Job.probed y)
  simp only [List.countP_cons, Job.probed, decide_eq_true_eq] at hperm
  rw [proceed, probes_carry]
  simp only [probes]
  omega

end Probes

/-- A member is known to the one it follows, or will be once its claim arrives. -/
def Announced (g : Traffic) (x : Contact) : Prop :=
  (g.view (g.view x).successor).predecessor = some x ∨
    (x, (g.view x).successor.endpoint) ∈ g.claims

/-- What holds of a job under way. -/
structure Proper (g₀ g : Traffic) (j : Job) : Prop where
  node : j.node ∈ g₀.survivors.members
  stays : ∀ h, j.question = .hop h → h.purpose.Stays
  /-- Only a cycle probes, and the one probed is still followed when the answer
      comes; that one names the member itself, or nobody. -/
  probe : ∀ c, j.question = .probe c → j.task = .stabilize ∧ c = (g.view j.node).successor ∧
    ∀ r, j.reply = some r → r.node.isRoutable = true → r.node = j.node
  cycle : j.task = .stabilize → ∃ c, j.question = .probe c ∨ j.question = .list c
  /-- Only those who are left answer. -/
  manned : ∀ r, j.reply = some r → ∃ y ∈ g₀.survivors.members, y.endpoint = j.question.target

theorem Proper.congr {g₀ g g' : Traffic} {j : Job} (h : g₀.Proper g j)
    (hsucc : (g'.view j.node).successor = (g.view j.node).successor) : g₀.Proper g' j :=
  { h with
    probe := fun c hc => by
      rw [hsucc]
      exact h.probe c hc }

/-- The invariant of a ring that heals. -/
structure Healing (g₀ : Traffic) (threshold : Nat) (g : Traffic) : Prop where
  frame : g₀.Frame g
  /-- Everybody is on its way, or has found the next one and told it. -/
  status : ∀ x ∈ g₀.survivors.members,
    (∃ gone rest, g₀.Searching (max 1 threshold) x (g.probes x) (g.view x) gone rest) ∨
      g₀.survivors.Follows (g.view x).successor x ∧ g.Announced x
  predecessor : ∀ x ∈ g₀.survivors.members, ∀ p, (g.view x).predecessor = some p →
    p ∈ g₀.survivors.members ∧ g₀.survivors.Follows x p
  claims : ∀ c e, (c, e) ∈ g.claims → ∀ z ∈ g₀.survivors.members, z.endpoint = e →
    c ∈ g₀.survivors.members ∧ g₀.survivors.Follows z c
  jobs : ∀ j ∈ g.jobs, g₀.Proper g j
  apart : g.jobs.Pairwise Job.Apart

variable {g₀ g g' : Traffic} {x y : Contact} {ceiling threshold : Nat}

/-- A turn leaves a member where it is on the ring, and where it is in its list as
    long as it is on its way. -/
structure Mild (g : Traffic) (v w : View) : Prop where
  successor : w.successor = v.successor
  predecessor : w.predecessor = v.predecessor
  searching : g.up v.successor = false → w.successors = v.successors ∧ w.misses = v.misses

theorem Mild.of_kept {v w : View} (h : v.Kept w) : g.Mild v w :=
  ⟨h.successor, h.predecessor, fun _ => ⟨h.successors, h.misses⟩⟩

theorem Searching.congr {t n : Nat} {v w : View} {gone rest : List Contact}
    (h : g.Searching t x n v gone rest) (hsucc : w.successor = v.successor)
    (hlist : w.successors = v.successors) (hmisses : w.misses = v.misses) :
    g.Searching t x n w gone rest where
  list := by rw [hsucc, h.list]
  successors := by rw [hsucc, hlist, h.successors]
  before := h.before
  silent := by rw [hsucc, h.silent]
  misses_lt := by rw [hmisses]; exact h.misses_lt
  probes := by rw [hmisses, h.probes]

-- What a member is told is told, and whoever believes it goes on doing so.
theorem Announced.mono (h : g.Announced x) (hsucc : (g'.view x).successor = (g.view x).successor)
    (hpred : ∀ z, (g'.view z).predecessor = (g.view z).predecessor)
    (hclaims : ∀ c ∈ g.claims, c ∈ g'.claims) : g'.Announced x := by
  rw [Announced, hsucc, hpred]
  exact h.imp_right (hclaims _)

namespace Healing

-- Whoever is followed is a member, and if it is left it is the next one.
theorem follows (hideal : g₀.Ideal ceiling) (h : g₀.Healing threshold g)
    (hx : x ∈ g₀.survivors.members) :
    (g.view x).successor ∈ g₀.members ∧ (g₀.up (g.view x).successor = true →
      g₀.survivors.Follows (g.view x).successor x ∧ g.Announced x) := by
  rcases h.status x hx with ⟨gone, rest, hs⟩ | hfound
  · refine ⟨hideal.mem_of_mem_list (mem_survivors.mp hx).1 (hs.list ▸ List.mem_append_right _
      (List.mem_cons_self ..)), fun hup => ?_⟩
    rw [hs.silent] at hup
    cases hup
  · exact ⟨(mem_survivors.mp hfound.1.1).1, fun _ => hfound⟩

section Carry

variable {begun : List (Contact × Task)} {others : List Job} {t : Task} {turn : Turn}
  {hme : turn.view.me = (g.view x).me}

/-- A turn, by what it does to its member. The others only have to do with it
    through what it tells them. -/
theorem carry (hideal : g₀.Ideal ceiling) (h : g₀.Healing threshold g)
    (hx : x ∈ g₀.survivors.members) (hothers : others.Sublist g.jobs)
    (hpred : turn.view.predecessor = (g.view x).predecessor)
    (hclaim : ∀ e, turn.claim = some e → e = turn.view.successor.endpoint)
    (hprobes : ∀ y, y ≠ x →
      (g.carry begun others x t turn hme).probes y = g.probes y)
    (hstatus : (∃ gone rest, g₀.Searching (max 1 threshold) x
        ((g.carry begun others x t turn hme).probes x)
        turn.view gone rest) ∨
      g₀.survivors.Follows turn.view.successor x ∧
        (g.carry begun others x t turn hme).Announced x)
    (hfollows : turn.view.successor = (g.view x).successor ∨
      ∀ j ∈ others, j.node = x → j.task ≠ .stabilize)
    (hnext : ∀ q, turn.next = .ask q →
      g₀.Proper (g.carry begun others x t turn hme) ⟨x, t, q, none⟩)
    (hapart : ∀ q, turn.next = .ask q → t = .stabilize →
      ∀ j ∈ others, j.node = x → j.task ≠ .stabilize) :
    g₀.Healing threshold (g.carry begun others x t turn hme) := by
  have hself : (g.carry begun others x t turn hme).view x =
      turn.view := view_carry_self hme
  have hother {y : Contact} (hy : y ≠ x) :
      (g.carry begun others x t turn hme).view y = g.view y :=
    view_carry_other hme hy
  have hpreds (z : Contact) :
      ((g.carry begun others x t turn hme).view z).predecessor =
        (g.view z).predecessor := by
    by_cases hzx : z = x
    · rw [hzx, hself, hpred]
    · rw [hother hzx]
  have hclaims : ∀ c ∈ g.claims,
      c ∈ (g.carry begun others x t turn hme).claims :=
    fun c hc => List.mem_append_right _ hc
  constructor
  case frame => exact ⟨h.frame.roster, h.frame.settings, h.frame.up⟩
  case status =>
    intro y hy
    by_cases hyx : y = x
    · rw [hyx, hself]
      exact hstatus
    · rw [hother hyx, hprobes y hyx]
      exact (h.status y hy).imp_right fun hfound =>
        ⟨hfound.1, hfound.2.mono (by rw [hother hyx]) hpreds hclaims⟩
  case predecessor =>
    intro y hy p hp
    rw [hpreds] at hp
    exact h.predecessor y hy p hp
  case claims =>
    intro c e hc z hz he
    rcases mem_claims_carry hc with hold | ⟨hnew, rfl⟩
    · exact h.claims c e hold z hz he
    · rw [hme, g.view_me x (h.frame.mem.mpr (mem_survivors.mp hx).1)]
      refine ⟨hx, ?_⟩
      rw [hclaim e hnew] at he
      rcases hstatus with ⟨gone, rest, hs⟩ | hfound
      · have hmem := hideal.mem_of_mem_list (mem_survivors.mp hx).1
          (hs.list ▸ List.mem_append_right _ (List.mem_cons_self ..))
        have hup := up_of_endpoint_eq hz hmem he
        rw [hs.silent] at hup
        cases hup
      · rw [g₀.survivors.eq_of_endpoint_eq hz hfound.1.1 he]
        exact hfound.1
  case jobs =>
    intro j hj
    rcases mem_jobs_carry hj with hold | ⟨q, hq, rfl⟩
    · have hproper := h.jobs j (hothers.subset hold)
      by_cases hjx : j.node = x
      · rcases hfollows with hsame | hnone
        · exact hproper.congr (by rw [hjx, hself, hsame])
        · refine { hproper with probe := fun c hc => ?_ }
          exact absurd (hproper.probe c hc).1 (hnone j hold hjx)
      · exact hproper.congr (by rw [hother hjx])
    · exact hnext q hq
  case apart =>
    have hold := h.apart.sublist hothers
    show List.Pairwise Job.Apart ((turn.next.job? x t).toList ++ others)
    cases hq : turn.next with
    | finish outcome => exact hold
    | ask q =>
        refine List.pairwise_cons.mpr ⟨fun j hj hnode htask => ?_, hold⟩
        exact hapart q hq htask j hj hnode.symm

/-- A mild turn keeps the invariant, if it does not count as a probe while its
    member is on its way. -/
theorem carry_mild (hideal : g₀.Ideal ceiling) (h : g₀.Healing threshold g)
    (hx : x ∈ g₀.survivors.members) (hothers : others.Sublist g.jobs)
    (hmild : g₀.Mild (g.view x) turn.view)
    (hclaim : ∀ e, turn.claim = some e → e = turn.view.successor.endpoint)
    (hprobes : ∀ y, y ≠ x ∨ g₀.up (g.view x).successor = false →
      (g.carry begun others x t turn hme).probes y = g.probes y)
    (hnext : ∀ q, turn.next = .ask q →
      g₀.Proper (g.carry begun others x t turn hme) ⟨x, t, q, none⟩)
    (hapart : ∀ q, turn.next = .ask q → t = .stabilize →
      ∀ j ∈ others, j.node = x → j.task ≠ .stabilize) :
    g₀.Healing threshold (g.carry begun others x t turn hme) := by
  refine h.carry hideal hx hothers hmild.predecessor hclaim (fun y hy => hprobes y (Or.inl hy)) ?_
    (Or.inl hmild.successor) hnext hapart
  rcases h.status x hx with ⟨gone, rest, hs⟩ | hfound
  · rcases hmild.searching hs.silent with ⟨hlist, hmisses⟩
    rw [hprobes x (Or.inr hs.silent)]
    exact Or.inl ⟨gone, rest, hs.congr hmild.successor hlist hmisses⟩
  · refine Or.inr ⟨hmild.successor ▸ hfound.1, hfound.2.mono ?_ (fun z => ?_)
      fun c hc => List.mem_append_right _ hc⟩
    · rw [view_carry_self, hmild.successor]
    · by_cases hzx : z = x
      · rw [hzx, view_carry_self, hmild.predecessor]
      · rw [view_carry_other _ hzx]

end Carry

/-- A task that is taken up. -/
theorem launch (hideal : g₀.Ideal ceiling) (h : g₀.Healing threshold g)
    (hx : x ∈ g₀.survivors.members) {t : Task} (hmay : OneCycle g x t) :
    g₀.Healing threshold (g.launch x t) := by
  have hlight := light_begin hmay.1 (g.view x)
  have hset := g₀.isSet_of_mem (h.follows hideal hx).1
  have hprobe : t = .stabilize → (t.begin (g.view x)).next.asksProbe = true := by
    rintro rfl
    simp only [Task.begin, hset, if_true]
    rfl
  refine h.carry_mild hideal hx (List.Sublist.refl _) (Mild.of_kept hlight.view) ?_
    (fun y _ => probes_launch hprobe) (fun q hq => ?_) fun _ _ ht => hmay.2 ht
  · intro e he
    rw [hlight.claim] at he
    cases he
  · have hasks := hlight.next q hq
    constructor
    case node => exact hx
    case stays =>
      rintro h' rfl
      exact hasks.stays
    case probe =>
      rintro c rfl
      refine ⟨hasks.probe.1, ?_, fun r hr => by cases hr⟩
      rw [view_carry_self, hlight.view.successor]
      exact hasks.probe.2
    case cycle =>
      rintro rfl
      exact ⟨_, Or.inl hasks.cycle⟩
    case manned => exact fun r hr => by cases hr

section Proceed

variable {j : Job} {answer : Option Reply}

-- The other jobs of a member are no cycles if this one is.
theorem apart_erase (h : g₀.Healing threshold g) (hj : j ∈ g.jobs) (htask : j.task = .stabilize) :
    ∀ k ∈ g.jobs.erase j, k.node = j.node → k.task ≠ .stabilize := by
  intro k hk hnode
  have hpairs := (List.perm_cons_erase hj).pairwise_iff (fun {a b} => Job.Apart.symm) |>.mp h.apart
  exact List.rel_of_pairwise_cons hpairs hk hnode.symm htask

/-- A job that goes on with a mild turn. If it is a cycle, it asks no probe; and it
    comes from none while its member is on its way. -/
theorem proceed_mild (hideal : g₀.Ideal ceiling) (h : g₀.Healing threshold g) (hj : j ∈ g.jobs)
    {turn : Turn}
    (hturn : j.question.resume (g.settings j.node) (g.view j.node) answer = turn)
    (hmild : g₀.Mild (g.view j.node) turn.view)
    (hclaim : ∀ e, turn.claim = some e → e = turn.view.successor.endpoint)
    (hquiet : g₀.up (g.view j.node).successor = false → j.task = .stabilize →
      j.question.isProbe = false)
    (hnext : ∀ q, turn.next = .ask q → (∀ c, q ≠ .probe c) ∧
      (∀ h, q = .hop h → h.purpose.Stays) ∧ (j.task = .stabilize → ∃ c, q = .list c)) :
    g₀.Healing threshold (g.proceed j answer) := by
  subst hturn
  have hx := (h.jobs j hj).node
  have hprobe : (j.question.resume (g.settings j.node) (g.view j.node) answer).next.asksProbe =
      false := by
    cases hq : (j.question.resume (g.settings j.node) (g.view j.node) answer).next with
    | finish outcome => rfl
    | ask q =>
        cases q with
        | probe c => exact absurd rfl ((hnext _ hq).1 c)
        | _ => rfl
  refine h.carry_mild hideal hx List.erase_sublist hmild hclaim (fun y hy => ?_) (fun q hq => ?_)
    fun q _ => h.apart_erase hj
  · have hcount := probes_proceed (y := y) hj answer
    rw [hprobe] at hcount
    rcases hy with hne | hsilent
    · rw [if_neg fun hc => hne hc.1.symm, if_neg fun hc => hne hc.1.symm] at hcount
      exact hcount
    · by_cases htask : j.task = .stabilize
      · rw [hquiet hsilent htask] at hcount
        exact Nat.add_right_cancel hcount
      · rw [if_neg fun hc => htask hc.2.1, if_neg fun hc => htask hc.2.1] at hcount
        exact hcount
  · rcases hnext q hq with ⟨hnoprobe, hstays, hcycle⟩
    constructor
    case node => exact hx
    case stays => exact hstays
    case probe => exact fun c hc => absurd hc (hnoprobe c)
    case cycle => exact fun htask => (hcycle htask).imp fun c hc => Or.inr hc
    case manned => exact fun r hr => by cases hr

-- A lookup goes on as lookups do, answered or not.
theorem proceed_hop (hideal : g₀.Ideal ceiling) (h : g₀.Healing threshold g) (hj : j ∈ g.jobs)
    {h' : Hop} (hq : j.question = .hop h') : g₀.Healing threshold (g.proceed j answer) := by
  have hproper := h.jobs j hj
  have hlight := light_hop (hproper.stays h' hq) (g.view j.node) answer
  have htask : j.task ≠ .stabilize := by
    intro htask
    rcases hproper.cycle htask with ⟨c, hc | hc⟩ <;> rw [hq] at hc <;> cases hc
  refine h.proceed_mild hideal hj (by rw [hq]; rfl) (Mild.of_kept hlight.view) ?_
    (fun _ ht => absurd ht htask) fun q hask => ?_
  · intro e he
    rw [hlight.claim] at he
    cases he
  · rcases hlight.next q hask with ⟨h'', rfl, hp⟩
    refine ⟨fun c hc => (by cases hc), ?_, fun ht => absurd ht htask⟩
    rintro _ ⟨⟩
    rw [hp]
    exact hproper.stays h' hq

-- A turn that only ends its task is mild if its view is.
theorem proceed_finish (hideal : g₀.Ideal ceiling) (h : g₀.Healing threshold g) (hj : j ∈ g.jobs)
    {w : View} {o : Outcome}
    (hturn : j.question.resume (g.settings j.node) (g.view j.node) answer =
      { view := w, next := .finish o })
    (hmild : g₀.Mild (g.view j.node) w) (hquestion : j.question.isProbe = false) :
    g₀.Healing threshold (g.proceed j answer) :=
  h.proceed_mild hideal hj hturn hmild (fun e he => by cases he) (fun _ _ => hquestion)
    fun q hq => by cases hq

-- A list, too, is only taken over from one who is left.
theorem proceed_list (hideal : g₀.Ideal ceiling) (h : g₀.Healing threshold g) (hj : j ∈ g.jobs)
    {c : Contact} (hq : j.question = .list c) (hreply : ∀ r, answer = some r → j.reply = some r) :
    g₀.Healing threshold (g.proceed j answer) := by
  have hproper := h.jobs j hj
  cases answer with
  | none =>
      exact h.proceed_finish hideal hj (by rw [hq]; rfl) (Mild.of_kept (View.Kept.refl _))
        (by rw [hq]; rfl)
  | some r =>
      refine h.proceed_finish hideal hj (by rw [hq]; rfl) ?_ (by rw [hq]; rfl)
      refine ⟨View.reported_successor _ _ _ _, View.reported_predecessor _ _ _ _, fun hsilent => ?_⟩
      rw [View.reported, if_neg]
      · exact ⟨rfl, rfl⟩
      · -- Otherwise the one who answered would be the silent successor.
        rintro rfl
        rcases hproper.manned r (hreply r rfl) with ⟨y, hy, he⟩
        rw [hq] at he
        have hup := up_of_endpoint_eq hy (h.follows hideal hproper.node).1 he
        rw [hsilent] at hup
        cases hup

-- A predecessor that is silent is not believed in any more.
theorem proceed_pulse (hideal : g₀.Ideal ceiling) (h : g₀.Healing threshold g) (hj : j ∈ g.jobs)
    {p : Contact} (hq : j.question = .pulse p)
    (hnobody : answer = none → g.Deserted j.question.target) :
    g₀.Healing threshold (g.proceed j answer) := by
  cases answer with
  | some r =>
      exact h.proceed_finish hideal hj (by rw [hq]; rfl) (Mild.of_kept (View.Kept.refl _))
        (by rw [hq]; rfl)
  | none =>
      have hsame : (g.view j.node).bereaved p = g.view j.node := by
        refine if_neg fun hp => ?_
        rcases mem_survivors.mp (h.predecessor _ (h.jobs j hj).node p hp).1 with ⟨hpm, hup⟩
        have hgone := hnobody rfl
        rw [hq] at hgone
        rw [h.frame.silent hgone hpm rfl] at hup
        cases hup
      exact h.proceed_finish hideal hj (by rw [hq]; rfl)
        (Mild.of_kept (by rw [hsame]; exact View.Kept.refl _)) (by rw [hq]; rfl)

/-- An answered probe changes nothing: the one probed is the next one, and names
    the member or nobody. -/
theorem proceed_probe (hideal : g₀.Ideal ceiling) (h : g₀.Healing threshold g) (hj : j ∈ g.jobs)
    {c : Contact} (hq : j.question = .probe c) {r : Reply} (hr : j.reply = some r) :
    g₀.Healing threshold (g.proceed j (some r)) := by
  have hproper := h.jobs j hj
  rcases hproper.probe c hq with ⟨htask, rfl, hnamed⟩
  have hmem := (h.follows hideal hproper.node).1
  have hup : g₀.up (g.view j.node).successor = true := by
    rcases hproper.manned r hr with ⟨y, hy, he⟩
    rw [hq] at he
    exact up_of_endpoint_eq hy hmem he
  have hprobed : (g.view j.node).probed r.node = { g.view j.node with misses := 0 } := by
    refine View.probed_of_le fun hrt => ?_
    rw [hnamed r hr hrt, View.key, g.view_me _ (h.frame.mem.mpr (mem_survivors.mp hproper.node).1),
      Id.span_self]
    exact Id.span_le _ _
  have hturn : j.question.resume (g.settings j.node) (g.view j.node) (some r) =
      introduce { g.view j.node with misses := 0 } := by
    rw [hq, Question.resume, hprobed]
  refine h.proceed_mild hideal hj hturn ⟨rfl, rfl, fun hsilent => ?_⟩ (fun e he => ?_)
    (fun hsilent => ?_) fun q hask => ?_
  · rw [hup] at hsilent
    cases hsilent
  · simp only [introduce] at he
    split at he <;> cases he
    rfl
  · rw [hup] at hsilent
    cases hsilent
  · simp only [introduce, askList] at hask
    split at hask <;> cases hask
    exact ⟨fun c hc => (by cases hc), fun h hc => (by cases hc), fun _ => ⟨_, rfl⟩⟩

/-- A probe without an answer takes its member one miss further. -/
theorem lapse_probe (hideal : g₀.Ideal ceiling)
    (hleft : ∀ x ∈ g₀.survivors.members, ∃ a ∈ (g₀.view x).successors, g₀.up a = true)
    (hthreshold : ∀ x ∈ g₀.members, (g₀.settings x).failureThreshold = threshold)
    (h : g₀.Healing threshold g) (hj : j ∈ g.jobs) {c : Contact} (hq : j.question = .probe c)
    (hnobody : g.Deserted j.question.target) : g₀.Healing threshold (g.proceed j none) := by
  have hproper := h.jobs j hj
  have hx := (mem_survivors.mp hproper.node).1
  rcases hproper.probe c hq with ⟨htask, rfl, _⟩
  have hsilent : g₀.up (g.view j.node).successor = false := by
    rw [hq] at hnobody
    exact h.frame.silent hnobody (h.follows hideal hproper.node).1 rfl
  have hturn : j.question.resume (g.settings j.node) (g.view j.node) none =
      introduce ((g.view j.node).missed threshold) := by
    rw [hq, Question.resume, h.frame.settings, hthreshold _ hx]
  have hcount (y : Contact) : (g.proceed j none).probes y =
      g.probes y + if j.node = y then 1 else 0 := by
    have hproceed := probes_proceed (y := y) hj none
    rw [hturn, if_neg (fun hc => by rw [hq] at hc; cases hc.2.2)] at hproceed
    rw [show (introduce ((g.view j.node).missed threshold)).next.asksProbe = false by
      simp only [introduce, askList]; split <;> rfl] at hproceed
    simp only [htask, and_self, and_true] at hproceed
    exact hproceed
  have hmissed : g₀.survivors.Follows ((g.view j.node).missed threshold).successor j.node ∨
      ∃ gone' rest', g₀.Searching (max 1 threshold) j.node (g.probes j.node + 1)
        ((g.view j.node).missed threshold) gone' rest' := by
    rcases h.status _ hproper.node with ⟨gone, rest, hs⟩ | hfound
    · exact hs.missed hideal hx (hleft _ hproper.node)
    · rw [(mem_survivors.mp hfound.1.1).2] at hsilent
      cases hsilent
  rcases proceed_turn hturn with ⟨hme, heq⟩
  simp only [heq] at hcount ⊢
  refine h.carry hideal hproper.node List.erase_sublist (View.missed_predecessor _ _) ?_
    (fun y hy => by rw [hcount, if_neg fun he => hy he.symm, Nat.add_zero]) ?_
    (Or.inr (h.apart_erase hj htask)) (fun q hask => ?_) fun _ _ => h.apart_erase hj
  · intro e he
    simp only [introduce] at he
    split at he <;> cases he
    rfl
  · rw [hcount, if_pos rfl]
    refine hmissed.symm.imp_right fun hfound => ⟨hfound, Or.inr ?_⟩
    have hset := g₀.isSet_of_mem (mem_survivors.mp hfound.1).1
    have hclaim : (introduce ((g.view j.node).missed threshold)).claim =
        some ((g.view j.node).missed threshold).successor.endpoint := if_pos hset
    have hme' : ((g.view j.node).missed threshold).me = j.node := by
      rw [View.missed_me, g.view_me _ (h.frame.mem.mpr hx)]
    rw [view_carry_self]
    refine List.mem_append_left _ ?_
    rw [hclaim]
    exact List.mem_singleton.mpr (Prod.ext hme'.symm rfl)
  · simp only [introduce, askList] at hask
    split at hask <;> cases hask
    exact ⟨hproper.node, fun h hc => (by cases hc), fun c hc => (by cases hc),
      fun _ => ⟨_, Or.inr rfl⟩, fun r hr => by cases hr⟩

end Proceed

/-- A question that arrives at one who is left. -/
theorem receive (hideal : g₀.Ideal ceiling) (h : g₀.Healing threshold g) {j : Job}
    (hj : j ∈ g.jobs) (hy : y ∈ g₀.survivors.members) (htarget : j.question.target = y.endpoint)
    {r : Reply} (hr : g.answer j.question = some r) : g₀.Healing threshold (g.receive j r) := by
  have hperm := List.perm_cons_erase hj
  have hproper := h.jobs j hj
  have hprobes (x : Contact) : (g.receive j r).probes x = g.probes x := by
    rw [probes, probes, hperm.countP_eq]
    rfl
  constructor
  case frame => exact ⟨h.frame.roster, h.frame.settings, h.frame.up⟩
  case status =>
    intro x hx
    rw [hprobes]
    exact h.status x hx
  case predecessor => exact h.predecessor
  case claims => exact h.claims
  case jobs =>
    intro k hk
    rcases List.mem_cons.mp hk with rfl | hold
    · refine { hproper with
        probe := fun c hc => ?_
        manned := fun _ _ => ⟨y, hy, htarget.symm⟩ }
      rcases hproper.probe c hc with ⟨htask, rfl, _⟩
      refine ⟨htask, rfl, ?_⟩
      rintro _ ⟨⟩ hrt
      have hc : j.question = .probe (g.view j.node).successor := hc
      rw [g.answer_of_mem (h.frame.mem.mpr (mem_survivors.mp hy).1) htarget, hc] at hr
      rw [hc] at htarget
      rcases h.follows hideal hproper.node with ⟨hmem, hfound⟩
      have hsucc : (g.view j.node).successor = y :=
        g₀.eq_of_endpoint_eq hmem (mem_survivors.mp hy).1 htarget
      rw [hsucc] at hfound
      -- The one asked names nobody, or the member: nobody else has told it anything.
      cases hr
      cases hp : (g.view y).predecessor with
      | none =>
          simp only [Message.new, Message.toReply, hp, Option.getD_none] at hrt
          exact absurd hrt (by decide)
      | some p =>
          simp only [Message.new, Message.toReply, Option.getD_some]
          rcases h.predecessor y hy p hp with ⟨hpm, hpf⟩
          exact hpf.injective (hfound (mem_survivors.mp hy).2).1 hpm hproper.node
    · exact (h.jobs k (List.mem_of_mem_erase hold)).congr rfl
  case apart =>
    have hpairs := hperm.pairwise_iff (fun {a b} => Job.Apart.symm) |>.mp h.apart
    rcases List.pairwise_cons.mp hpairs with ⟨hself, hothers⟩
    exact List.pairwise_cons.mpr ⟨fun k hk => hself k hk, hothers⟩

/-- A member that makes itself known of its own accord. -/
theorem tell (hideal : g₀.Ideal ceiling) (h : g₀.Healing threshold g)
    (hx : x ∈ g₀.survivors.members) : g₀.Healing threshold (g.tell x) := by
  constructor
  case frame => exact ⟨h.frame.roster, h.frame.settings, h.frame.up⟩
  case status =>
    intro y hy
    exact (h.status y hy).imp_right fun hfound =>
      ⟨hfound.1, hfound.2.imp_right (List.mem_cons_of_mem _)⟩
  case predecessor => exact h.predecessor
  case jobs => exact fun j hj => (h.jobs j hj).congr rfl
  case apart => exact h.apart
  case claims =>
    intro c e hc z hz he
    rcases List.mem_cons.mp hc with heq | hold
    · cases heq
      rcases h.follows hideal hx with ⟨hmem, hfound⟩
      have hzs : z = (g.view x).successor :=
        g₀.eq_of_endpoint_eq (mem_survivors.mp hz).1 hmem he
      rw [← hzs] at hfound
      exact ⟨hx, (hfound (mem_survivors.mp hz).2).1⟩
    · exact h.claims c e hold z hz he

/-- A claim that arrives is that of the one before, and is believed. -/
theorem hear (h : g₀.Healing threshold g) (hx : x ∈ g₀.survivors.members) {c : Contact}
    (hclaim : (c, x.endpoint) ∈ g.claims) : g₀.Healing threshold (g.hear x c) := by
  rcases h.claims c _ hclaim x hx rfl with ⟨hc, hfollows⟩
  have hbelieved : ((g.view x).notified c).predecessor = some c := by
    cases hp : (g.view x).predecessor with
    | none =>
        rw [View.notified_predecessor, if_pos]
        rw [View.accepts, hp, g₀.routable c (mem_survivors.mp hc).1]
        rfl
    | some p =>
        rcases h.predecessor x hx p hp with ⟨hpm, hpf⟩
        rw [hpf.injective hfollows hpm hc] at hp
        rw [View.notified_of_known _ _ hp, hp]
  have hsucc (y : Contact) : ((g.hear x c).view y).successor = (g.view y).successor := by
    by_cases hyx : y = x
    · rw [hyx, view_hear_self, View.notified_successor]
    · rw [view_hear_other g c hyx]
  constructor
  case frame => exact ⟨h.frame.roster, h.frame.settings, h.frame.up⟩
  case status =>
    intro y hy
    rcases h.status y hy with ⟨gone, rest, hs⟩ | ⟨hfound, hannounced⟩
    · refine Or.inl ⟨gone, rest, hs.congr (hsucc y) ?_ ?_⟩ <;> by_cases hyx : y = x
      · rw [hyx, view_hear_self, View.notified_successors]
      · rw [view_hear_other g c hyx]
      · rw [hyx, view_hear_self, View.notified_misses]
      · rw [view_hear_other g c hyx]
    · rw [Announced, hsucc]
      refine Or.inr ⟨hfound, ?_⟩
      by_cases hyx : (g.view y).successor = x
      · rw [hyx] at hfound ⊢
        rw [view_hear_self, hbelieved, hfollows.injective hfound hc hy]
        exact Or.inl rfl
      · rw [view_hear_other g c hyx]
        refine hannounced.imp_right fun hclaim => (List.mem_erase_of_ne fun he => hyx ?_).mpr hclaim
        exact g₀.survivors.eq_of_endpoint_eq hfound.1 hx (congrArg Prod.snd he)
  case predecessor =>
    intro y hy p hp
    by_cases hyx : y = x
    · subst hyx
      rw [view_hear_self, hbelieved] at hp
      exact Option.some.inj hp ▸ ⟨hc, hfollows⟩
    · rw [view_hear_other g c hyx] at hp
      exact h.predecessor y hy p hp
  case jobs => exact fun j hj => (h.jobs j hj).congr (hsucc _)
  case apart => exact h.apart
  case claims => exact fun c' e hc' => h.claims c' e (List.mem_of_mem_erase hc')

/-- Whatever happens keeps the invariant. -/
theorem step (hideal : g₀.Ideal ceiling)
    (hleft : ∀ x ∈ g₀.survivors.members, ∃ a ∈ (g₀.view x).successors, g₀.up a = true)
    (hthreshold : ∀ x ∈ g₀.members, (g₀.settings x).failureThreshold = threshold)
    (h : g₀.Healing threshold g) (hstep : Step OneCycle g g') : g₀.Healing threshold g' := by
  cases hstep with
  | launch x t hx hup hmay => exact h.launch hideal (h.frame.mem_survivors hx hup) hmay
  | receive j y r hj hopen hy hup htarget hr =>
      exact h.receive hideal hj (h.frame.mem_survivors hy hup) htarget hr
  | resume j r hj hr =>
      cases hq : j.question with
      | hop h' => exact h.proceed_hop hideal hj hq
      | probe c => exact h.proceed_probe hideal hj hq hr
      | list c => exact h.proceed_list hideal hj hq fun r' hr' => hr.trans hr'
      | pulse p => exact h.proceed_pulse hideal hj hq fun hnone => by cases hnone
  | lapse j hj hopen hnobody =>
      cases hq : j.question with
      | hop h' => exact h.proceed_hop hideal hj hq
      | probe c => exact h.lapse_probe hideal hleft hthreshold hj hq hnobody
      | list c => exact h.proceed_list hideal hj hq fun r hr => by cases hr
      | pulse p => exact h.proceed_pulse hideal hj hq fun _ => hnobody
  | tell x hx hup hset => exact h.tell hideal (h.frame.mem_survivors hx hup)
  | hear x c hx hup hclaim => exact h.hear (h.frame.mem_survivors hx hup) hclaim

end Healing

/-- When everybody has checked its predecessor, the healing can begin. -/
theorem Checking.healing (hideal : g₀.Ideal ceiling)
    (hmisses : ∀ x ∈ g₀.members, (g₀.view x).misses < max 1 threshold) (h : Checking g₀ g)
    (hall : ∀ x ∈ g₀.survivors.members, (x, .checkPredecessor) ∈ g.ended) :
    g₀.Healing threshold g := by
  have hprobes (x : Contact) : g.probes x = 0 := by
    rw [probes, List.count_eq_zero.mpr, List.countP_eq_zero.mpr]
    · intro j hj hprobed
      rw [Job.probed, decide_eq_true_eq, (h.jobs j hj).2.1] at hprobed
      cases hprobed.2.1
    · intro he
      cases h.ended _ he
  constructor
  case frame => exact h.frame
  case status =>
    intro x hx
    have hxm := (mem_survivors.mp hx).1
    have hsucc := (h.views x hx).successor
    rcases hideal.list_cons hxm with ⟨rest, hlist⟩
    have hnone : ∀ a ∈ ([] : List Contact), g₀.up a = false := fun a ha => by cases ha
    cases hup : g₀.up (g₀.view x).successor with
    | true =>
        refine Or.inr ⟨hsucc ▸ survivors_follows hideal hxm hlist hnone hup, Or.inl ?_⟩
        have hsm := mem_survivors.mpr ⟨(hideal.successor x hxm).1, hup⟩
        rw [hsucc]
        rcases (h.views _ hsm).predecessor with hsame | ⟨_, hsilent⟩
        · rw [hsame, hideal.known hxm]
        · have hdown := hsilent x (hideal.known hxm)
          rw [(mem_survivors.mp hx).2] at hdown
          cases hdown
    | false =>
        refine Or.inl ⟨[], rest, ?_⟩
        constructor
        case list => rw [hsucc, hlist, List.nil_append]
        case successors => rw [hsucc, (h.views x hx).successors, hlist]
        case before => exact hnone
        case silent => rw [hsucc, hup]
        case misses_lt => rw [(h.views x hx).misses]; exact hmisses x hxm
        case probes => rw [hprobes, (h.views x hx).misses, List.length_nil, Nat.zero_mul]
  case predecessor =>
    intro x hx p hp
    have hup := h.checked x hx (hall x hx) p hp
    rcases mem_survivors.mp hx with ⟨hxm, hxup⟩
    rcases hideal.follows_predecessor hxm ((h.views x hx).known hp) with ⟨hpm, hpf⟩
    exact ⟨mem_survivors.mpr ⟨hpm, hup⟩, follows_survivors hpf hxup⟩
  case claims =>
    intro c e hc z hz he
    rcases h.claims c e hc z hz he with ⟨hp, hup⟩
    rcases mem_survivors.mp hz with ⟨hzm, hzup⟩
    rcases hideal.follows_predecessor hzm hp with ⟨hcm, hcf⟩
    exact ⟨mem_survivors.mpr ⟨hcm, hup⟩, follows_survivors hcf hzup⟩
  case jobs =>
    intro j hj
    rcases h.jobs j hj with ⟨hx, htask, p, hq, hp, hup⟩
    constructor
    case node => exact hx
    case stays => exact fun h' hc => by rw [hq] at hc; cases hc
    case probe => exact fun c hc => by rw [hq] at hc; cases hc
    case cycle => exact fun hc => by rw [htask] at hc; cases hc
    case manned =>
      intro r hr
      have hpm := (hideal.follows_predecessor (mem_survivors.mp hx).1 hp).1
      exact ⟨p, mem_survivors.mpr ⟨hpm, hup r hr⟩, by rw [hq]; rfl⟩
  case apart =>
    refine List.pairwise_of_forall_mem_list fun a ha b _ _ htask => ?_
    rw [(h.jobs a ha).2.1] at htask
    cases htask

/-- A ring heals. Take an ideal ring of which some members have fallen silent, so
    that everybody else has somebody left in its list. Let those who are left check
    their predecessors, and then do what they like, but check their successors only
    once at a time. When each of them has checked its successor as often as it takes
    to give up a whole list, it follows the next one who is left, and is known to
    it or will be once its claim arrives. -/
theorem healed_of_ideal {g₁ g₂ : Traffic} (hideal : g₀.Ideal ceiling) (hquiet : g₀.Quiet)
    (hthreshold : ∀ x ∈ g₀.members, (g₀.settings x).failureThreshold = threshold)
    (hmisses : ∀ x ∈ g₀.members, (g₀.view x).misses < max 1 threshold)
    (hleft : ∀ x ∈ g₀.survivors.members, ∃ a ∈ (g₀.view x).successors, g₀.up a = true)
    (hcheck : Relation.ReflTransGen (Step OnlyChecks) g₀ g₁)
    (hchecked : ∀ x ∈ g₀.survivors.members, (x, .checkPredecessor) ∈ g₁.ended)
    (hrun : Relation.ReflTransGen (Step OneCycle) g₁ g₂)
    (hcycles : ∀ x ∈ g₀.survivors.members,
      ceiling * max 1 threshold ≤ g₂.ended.count (x, .stabilize)) :
    ∀ x ∈ g₀.survivors.members, g₀.survivors.Follows (g₂.view x).successor x ∧
      ∃ p ∈ g₀.survivors.members, g₀.survivors.Follows x p ∧
        ((g₂.view x).predecessor = some p ∨ (p, x.endpoint) ∈ g₂.claims) := by
  have hstart := (checking_of_ideal hideal hquiet hcheck).healing hideal hmisses hchecked
  have hend : g₀.Healing threshold g₂ := by
    clear hcycles
    induction hrun with
    | refl => exact hstart
    | tail _ hstep ih => exact ih.step hideal hleft hthreshold hstep
  -- Nobody is still on its way after so many cycles.
  have hfound : ∀ x ∈ g₀.survivors.members,
      g₀.survivors.Follows (g₂.view x).successor x ∧ g₂.Announced x := by
    intro x hx
    rcases hend.status x hx with ⟨gone, rest, hs⟩ | hfound
    · have hlt := hs.probes_lt hideal (mem_survivors.mp hx).1
      have hended : g₂.ended.count (x, .stabilize) ≤ g₂.probes x := Nat.le_add_right _ _
      have hmany := hcycles x hx
      omega
    · exact hfound
  intro x hx
  rcases g₀.survivors.exists_follows hx with ⟨p, hp, hpf⟩
  refine ⟨(hfound x hx).1, p, hp, hpf, ?_⟩
  rcases hfound p hp with ⟨hsucc, hannounced⟩
  rw [Announced, hsucc.unique hpf] at hannounced
  exact hannounced

/-- Two who are left find each other, one cycle at a time. -/
theorem trio_heals :
    ∃ g, Relation.ReflTransGen (Step OneCycle) checkedTrio g ∧
      (g.view .early).successor = .late ∧ (g.view .early).predecessor = some .late ∧
      (g.view .late).successor = .early ∧ (g.view .late).predecessor = some .early ∧
      ∀ x ∈ bereftTrio.survivors.members, bereftTrio.survivors.Follows (g.view x).successor x ∧
        ∃ p ∈ bereftTrio.survivors.members, bereftTrio.survivors.Follows x p ∧
          ((g.view x).predecessor = some p ∨ (p, x.endpoint) ∈ g.claims) := by
  have hstays : Task.stabilize.Stays := fun _ _ h => by cases h
  have hprobe : Relation.ReflTransGen (Step OneCycle) checkedTrio _ :=
    .single (.launch _ .early .stabilize (by decide) rfl ⟨hstays, fun _ => by decide⟩)
  have hpast := hprobe.tail (.lapse _ _ (List.mem_cons_self ..) rfl (by decide))
  have htold := hpast.tail (.hear _ .late .early (by decide) rfl (List.mem_cons_self ..))
  have hfirst := reaches_answered htold .late (List.mem_cons_self ..) rfl (by decide) rfl rfl rfl
  have hearly := reaches_cycled hfirst .early .late ⟨hstays, fun _ => by decide⟩ (by decide)
    (by decide) (List.mem_cons_self ..) rfl (List.mem_cons_self ..) rfl
  have honce := reaches_cycled hearly .late .early ⟨hstays, fun _ => by decide⟩ (by decide)
    (by decide) (List.mem_cons_self ..) rfl (List.mem_cons_self ..) rfl
  have htwice := reaches_cycled honce .late .early ⟨hstays, fun _ => by decide⟩ (by decide)
    (by decide) (List.mem_cons_self ..) rfl (List.mem_cons_self ..) rfl
  have hthreshold : ∀ x ∈ bereftTrio.members, (bereftTrio.settings x).failureThreshold = 1 := by
    decide
  refine ⟨_, htwice, rfl, rfl, rfl, rfl, ?_⟩
  exact healed_of_ideal Overlay.ideal_idealTrio ⟨rfl, rfl, rfl, rfl⟩ hthreshold (by decide)
    (by decide) reaches_checkedTrio (by decide) htwice (by decide)

/-- With two cycles at a time they need not. The early one probes the silent one
    twice before either probe has run out of time. The first loss makes it follow
    the late one, the second is held against that, and then it follows itself. -/
theorem late_is_lost :
    bereftTrio.Ideal 2 ∧ bereftTrio.Quiet ∧
      (∀ x ∈ bereftTrio.members, (bereftTrio.settings x).failureThreshold = 1) ∧
      (∀ x ∈ bereftTrio.members, (bereftTrio.view x).misses < max 1 1) ∧
      (∀ x ∈ bereftTrio.survivors.members,
        ∃ a ∈ (bereftTrio.view x).successors, bereftTrio.up a = true) ∧
      ∃ g₁ g₂, Relation.ReflTransGen (Step OnlyChecks) bereftTrio g₁ ∧
        (∀ x ∈ bereftTrio.survivors.members, (x, .checkPredecessor) ∈ g₁.ended) ∧
        Relation.ReflTransGen (Step AnyTask) g₁ g₂ ∧
        (∀ x ∈ bereftTrio.survivors.members, 2 * max 1 1 ≤ g₂.ended.count (x, .stabilize)) ∧
        (g₂.view .early).successor = .early ∧
        ¬ bereftTrio.survivors.Follows (g₂.view .early).successor .early := by
  have hstays : Task.stabilize.Stays := fun _ _ h => by cases h
  have hone : Relation.ReflTransGen (Step AnyTask) checkedTrio _ :=
    .single (.launch _ .early .stabilize (by decide) rfl hstays)
  have htwo := hone.tail (.launch _ .early .stabilize (by decide) rfl hstays)
  have hpast := htwo.tail (.lapse _ _ (List.mem_cons_self ..) rfl (by decide))
  -- By now it follows the late one, and this probe was none of it.
  have hlost := hpast.tail
    (.lapse _ _ (List.mem_cons_of_mem _ (List.mem_cons_self ..)) rfl (by decide))
  have hself := reaches_answered hlost .early (List.mem_cons_self ..) rfl (by decide) rfl rfl rfl
  have hended := reaches_answered hself .late (List.mem_cons_self ..) rfl (by decide) rfl rfl rfl
  have honce := reaches_cycled hended .late .early hstays (by decide) (by decide)
    (List.mem_cons_self ..) rfl (List.mem_cons_self ..) rfl
  have htwice := reaches_cycled honce .late .early hstays (by decide) (by decide)
    (List.mem_cons_self ..) rfl (List.mem_cons_self ..) rfl
  exact ⟨Overlay.ideal_idealTrio, ⟨rfl, rfl, rfl, rfl⟩, by decide, by decide, by decide,
    checkedTrio, _, reaches_checkedTrio, by decide, htwice, by decide, rfl, by decide⟩

end Traffic

end RingOverlay
