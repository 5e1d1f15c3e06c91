import Mathlib.Logic.Function.Iterate
import RingOverlay.Proofs.Lookup.Step
import RingOverlay.Proofs.Traffic.Turns

/-!
# A Ring in Order Stays in Order

On a ring whose members all answer, and whose neighbours and lists are as they
should be, there is nothing left to do. Whatever the members undertake, however
much of it at once, the neighbours, the lists and the counts of misses are the
same afterwards. Only the fingers change, and those that do change for the
better.

Every single thing that is done turns out to be in vain: a claim comes from the
predecessor that is known already, a probe names the node that asks, and a list
is rebuilt as it was. What has to be carried along is that this is also true of
what is under way. An answer was given some time ago, by a node whose view has
changed since; but all that it says has not.

## Main definitions

* `View.Refreshed`: A slot that came up among the last so many.
* `View.Tended`: A view after some fingers have been refreshed.
* `Traffic.turns`: How often a member has taken up refreshing a finger.
* `Traffic.Apt`, `Traffic.Frank`: What holds of a question under way, and of an
  answer.
* `Traffic.Calm`: The invariant.

## Theorems

* `Ideal.of_kept`: What makes a ring ideal is kept.
* `Calm.carry`: A turn that only tends to the fingers.
* `Calm.idle_begin`, `Calm.idle_resume`: Every turn is like that.
* `Calm.step`: Whatever happens keeps the ring calm.
* `tended_of_ideal`: An ideal ring stays as it is.
-/

namespace RingOverlay

namespace View

/-- A slot came up among the next `n` after the cursor. -/
def Refreshed (v : View) (n : Nat) (i : Fin slotCount) : Prop :=
  ∃ k, 0 < k ∧ k ≤ n ∧ nextSlot^[k] v.cursor = i.val

/-- What a view may become when the refreshing of a finger is taken up `n` times:
    the cursor has moved on by as many slots, and a finger is as it was unless it
    was refreshed and owns the point that its slot looks for. -/
structure Tended (R : Roster) (n : Nat) (v w : View) : Prop where
  kept : v.Kept w
  cursor : w.cursor = nextSlot^[n] v.cursor
  fingers : ∀ i : Fin slotCount, w.finger i = v.finger i ∨
    v.Refreshed n i ∧ R.Owns (w.finger i) (fingerTarget v.key i)

variable {v w : View} {R : Roster} {n m : Nat} {i : Fin slotCount}

theorem Refreshed.mono (h : v.Refreshed n i) (hnm : n ≤ m) : v.Refreshed m i := by
  rcases h with ⟨k, hpos, hle, heq⟩
  exact ⟨k, hpos, Nat.le_trans hle hnm, heq⟩

namespace Tended

theorem refl (R : Roster) (v : View) : v.Tended R 0 v :=
  ⟨Kept.refl v, rfl, fun _ => Or.inl rfl⟩

theorem advance (h : v.Tended R n w) : v.Tended R (n + 1) w.advance where
  kept := h.kept.trans w.kept_advance
  cursor := by
    rw [Function.iterate_succ_apply', ← h.cursor]
    rfl
  fingers i := by
    rcases h.fingers i with hsame | ⟨hslot, howns⟩
    · exact Or.inl hsame
    · exact Or.inr ⟨hslot.mono (Nat.le_succ n), howns⟩

theorem setFinger (h : v.Tended R n w) {c : Contact} (hslot : v.Refreshed n i)
    (howns : R.Owns c (fingerTarget v.key i)) : v.Tended R n (w.setFinger i c) where
  kept := h.kept.trans (w.kept_setFinger i c)
  cursor := h.cursor
  fingers j := by
    by_cases hji : j = i
    · rw [hji, setFinger_same]
      exact Or.inr ⟨hslot, howns⟩
    · rw [setFinger_other w c hji]
      exact h.fingers j

-- The slot that is refreshed next has come up once the cursor is on it.
theorem refreshed_next (h : v.Tended R n w) : v.Refreshed (n + 1) w.nextFinger :=
  ⟨n + 1, Nat.succ_pos n, Nat.le_refl _, by
    rw [Function.iterate_succ_apply', ← h.cursor]
    rfl⟩

end Tended

end View

/-- What makes a ring ideal is kept. -/
theorem Overlay.Ideal.of_kept {o o' : Overlay} {ceiling : Nat} (h : o.Ideal ceiling)
    (hroster : o'.toRoster = o.toRoster) (hsettings : o'.settings = o.settings)
    (hkept : ∀ x ∈ o.members, (o.view x).Kept (o'.view x)) : o'.Ideal ceiling := by
  rcases o' with ⟨R, view, view_me, settings⟩
  subst hroster hsettings
  constructor
  case ceiling_eq => exact h.ceiling_eq
  case successor =>
    intro x hx
    rw [(hkept x hx).successor]
    exact h.successor x hx
  case predecessor =>
    intro x hx
    rw [(hkept x hx).predecessor]
    exact h.predecessor x hx
  case successors =>
    intro x hx
    rw [(hkept x hx).successors]
    exact h.successors x hx

namespace Traffic

/-- How often a member has taken up refreshing a finger. -/
def turns (g : Traffic) (x : Contact) : Nat := g.begun.count (x, .fixFinger)

/-- What holds of a question under way, whose node had the first view in the
    beginning: it goes to a member, and is about what has not changed. -/
def Apt (g : Traffic) (v : View) (n : Nat) : Question → Prop
  | .hop h => (∃ y ∈ g.members, y.endpoint = h.asked) ∧
      (h.purpose = .report ∨ ∃ slot, h.purpose = .finger slot ∧
        h.id = fingerTarget v.key slot ∧ v.Refreshed n slot)
  | .probe c | .list c => c = v.successor
  | .pulse p => v.predecessor = some p

/-- What holds of an answer: it says what was so in the beginning. -/
def Frank (g : Traffic) (v₀ : Contact → View) (r : Reply) : Question → Prop
  | .hop h => r.node ∈ g.members ∧ (r.resolved = true → g.Owns r.node h.id)
  | .probe c => (v₀ c).predecessor = some r.node
  | .list c => r.nodes = (v₀ c).successors
  | .pulse _ => True

/-- The invariant of a ring that is in order, where the views were these in the
    beginning. -/
structure Calm (v₀ : Contact → View) (ceiling : Nat) (g : Traffic) : Prop where
  up : ∀ x ∈ g.members, g.up x = true
  ideal : g.Ideal ceiling
  misses : ∀ x ∈ g.members, (v₀ x).misses = 0
  known : ∀ x ∈ g.members, ∀ i : Fin slotCount,
    ((v₀ x).finger i).isSet = false ∨ (v₀ x).finger i ∈ g.members
  views : ∀ x ∈ g.members, (v₀ x).Tended g.toRoster (g.turns x) (g.view x)
  jobs : ∀ j ∈ g.jobs, j.node ∈ g.members ∧ g.Apt (v₀ j.node) (g.turns j.node) j.question ∧
    ∀ r, j.reply = some r → g.Frank v₀ r j.question
  claims : ∀ c e, (c, e) ∈ g.claims →
    ∃ y ∈ g.members, y.endpoint = e ∧ (v₀ y).predecessor = some c

variable {v₀ : Contact → View} {ceiling : Nat} {g g' : Traffic} {x : Contact}

theorem Apt.mono {v : View} {n m : Nat} {q : Question} (h : g.Apt v n q) (hnm : n ≤ m) :
    g.Apt v m q := by
  cases q with
  | hop h' =>
      refine ⟨h.1, h.2.imp_right ?_⟩
      rintro ⟨slot, hp, hid, hslot⟩
      exact ⟨slot, hp, hid, hslot.mono hnm⟩
  | probe c => exact h
  | list c => exact h
  | pulse p => exact h

/-- What a turn of a member of an orderly ring may do. -/
structure Idle (v₀ : Contact → View) (g : Traffic) (x : Contact) (n : Nat) (turn : Turn) :
    Prop where
  view : (v₀ x).Tended g.toRoster n turn.view
  claim : ∀ e, turn.claim = some e → e = turn.view.successor.endpoint
  next : ∀ q, turn.next = .ask q → g.Apt (v₀ x) n q

namespace Idle

variable {n : Nat} {w : View}

theorem ask (hview : (v₀ x).Tended g.toRoster n w) {q : Question} (hq : g.Apt (v₀ x) n q) :
    g.Idle v₀ x n { view := w, next := .ask q } where
  view := hview
  claim := fun e he => by cases he
  next := fun q' hq' => by
    cases hq'
    exact hq

theorem finish (hview : (v₀ x).Tended g.toRoster n w) (o : Outcome) :
    g.Idle v₀ x n { view := w, next := .finish o } where
  view := hview
  claim := fun e he => by cases he
  next := fun q hq => by cases hq

-- A lookup that has found the owner leaves at most a finger behind.
theorem succeed (hview : (v₀ x).Tended g.toRoster n w) {id : Id} {p : Purpose}
    (hp : p = .report ∨ ∃ slot, p = .finger slot ∧ id = fingerTarget (v₀ x).key slot ∧
      (v₀ x).Refreshed n slot) {c : Contact} (howns : g.Owns c id) :
    g.Idle v₀ x n (p.succeed w c) := by
  rcases hp with rfl | ⟨slot, rfl, rfl, hslot⟩
  · exact finish hview _
  · exact finish (hview.setFinger hslot howns) _

end Idle

namespace Calm

theorem inOrder (h : g.Calm v₀ ceiling) (hx : x ∈ g.members) :
    g.Follows (v₀ x).successor x := by
  rw [← (h.views x hx).kept.successor]
  exact h.ideal.successor x hx

theorem predecessor (h : g.Calm v₀ ceiling) (hx : x ∈ g.members) :
    (v₀ (v₀ x).successor).predecessor = some x := by
  rw [← (h.views _ (h.inOrder hx).1).kept.predecessor, ← (h.views x hx).kept.successor]
  exact h.ideal.known hx

theorem fingersKnown (h : g.Calm v₀ ceiling) : g.FingersKnown := by
  intro x hx i
  rcases (h.views x hx).fingers i with hsame | ⟨_, howns⟩
  · rw [hsame]
    exact h.known x hx i
  · exact Or.inr howns.1

/-- A turn that only tends to the fingers keeps the ring calm. Meanwhile the
    record of what was begun may have grown, and jobs may be done with. -/
theorem carry (h : g.Calm v₀ ceiling) (hx : x ∈ g.members) {begun : List (Contact × Task)}
    {others : List Job} (hsame : ∀ y, y ≠ x → begun.count (y, .fixFinger) = g.turns y)
    (hmore : g.turns x ≤ begun.count (x, .fixFinger)) (hothers : ∀ j ∈ others, j ∈ g.jobs)
    (t : Task) {turn : Turn} (hme : turn.view.me = (g.view x).me)
    (hidle : g.Idle v₀ x (begun.count (x, .fixFinger)) turn) :
    (g.carry begun others x t turn hme).Calm v₀ ceiling := by
  have hcount (y : Contact) : g.turns y ≤ begun.count (y, .fixFinger) := by
    by_cases hyx : y = x
    · rw [hyx]
      exact hmore
    · exact Nat.le_of_eq (hsame y hyx).symm
  have hviews : ∀ y ∈ g.members, (v₀ y).Tended g.toRoster (begun.count (y, .fixFinger))
      ((g.carry begun others x t turn hme).view y) := by
    intro y hy
    by_cases hyx : y = x
    · rw [hyx, view_carry_self]
      exact hidle.view
    · rw [view_carry_other _ hyx, hsame y hyx]
      exact h.views y hy
  constructor
  case up => exact h.up
  case misses => exact h.misses
  case known => exact h.known
  case views => exact hviews
  case ideal =>
    exact h.ideal.of_kept rfl rfl fun y hy => (h.views y hy).kept.symm.trans (hviews y hy).kept
  case jobs =>
    intro j hj
    rcases mem_jobs_carry hj with hold | ⟨q, hnext, rfl⟩
    · rcases h.jobs j (hothers j hold) with ⟨hmem, hapt, hfrank⟩
      exact ⟨hmem, hapt.mono (hcount _), hfrank⟩
    · exact ⟨hx, hidle.next q hnext, fun r hr => by cases hr⟩
  case claims =>
    intro c e hc
    rcases mem_claims_carry hc with hold | ⟨hclaim, rfl⟩
    · exact h.claims c e hold
    · refine ⟨_, (h.inOrder hx).1, ?_, ?_⟩
      · rw [hidle.claim e hclaim, hidle.view.kept.successor]
      · rw [h.predecessor hx, hme, g.view_me x hx]

/-- A lookup starts by asking a member, unless the owner is known at once. -/
theorem idle_seek (h : g.Calm v₀ ceiling) (hx : x ∈ g.members) {n : Nat} {w : View}
    (hview : (v₀ x).Tended g.toRoster n w) {id : Id}
    (hlookup : w.lookup id = (g.view x).lookup id) {p : Purpose}
    (hp : p = .report ∨ ∃ slot, p = .finger slot ∧ id = fingerTarget (v₀ x).key slot ∧
      (v₀ x).Refreshed n slot) : g.Idle v₀ x n (seek w id p) := by
  have hnamed := g.lookup_owner_or_onward h.ideal.successor h.fingersKnown hx id
  rcases seek_cases w id p with ⟨c, hl, heq⟩ | ⟨c, hl, heq⟩ <;> rw [heq] <;>
    rw [← hlookup, hl] at hnamed
  · rcases hnamed with ⟨d, hd, howns⟩ | ⟨d, _, hd, _⟩
    · cases hd
      exact Idle.succeed hview hp howns
    · cases hd
  · rcases hnamed with ⟨d, hd, _⟩ | ⟨d, hmem, hd, _⟩
    · cases hd
    · cases hd
      exact Idle.ask hview ⟨⟨c, hmem, rfl⟩, hp⟩

-- A list is asked for from the successor that there has always been.
theorem apt_list {n : Nat} {w : View} (hview : (v₀ x).Tended g.toRoster n w) (q : Question)
    (hq : askList w = .ask q) : g.Apt (v₀ x) n q := by
  unfold askList at hq
  split at hq
  · cases hq
    exact hview.kept.successor
  · cases hq

/-- A task that is taken up finds nothing to do. -/
theorem idle_begin (h : g.Calm v₀ ceiling) (hx : x ∈ g.members) {t : Task}
    (ht : t.Stays) :
    g.Idle v₀ x (((x, t) :: g.begun).count (x, .fixFinger)) (t.begin (g.view x)) := by
  have hview := h.views x hx
  have hsame (hne : t ≠ .fixFinger) :
      ((x, t) :: g.begun).count (x, .fixFinger) = g.turns x :=
    List.count_cons_of_ne fun he => hne (congrArg Prod.snd he)
  cases t with
  | find id =>
      rw [hsame fun he => by cases he]
      exact h.idle_seek hx hview rfl (Or.inl rfl)
  | stabilize =>
      rw [hsame fun he => by cases he]
      refine ⟨hview, fun e he => (by cases he), fun q hq => ?_⟩
      simp only [Task.begin] at hq
      split at hq <;> cases hq
      exact hview.kept.successor
  | fixFinger =>
      rw [List.count_cons_self]
      refine h.idle_seek hx hview.advance rfl (Or.inr ⟨_, rfl, ?_, hview.refreshed_next⟩)
      rw [View.key, View.key, hview.kept.me]
  | fixSuccessors =>
      rw [hsame fun he => by cases he]
      exact ⟨hview, fun e he => (by cases he), apt_list hview⟩
  | checkPredecessor =>
      rw [hsame fun he => by cases he]
      refine ⟨hview, fun e he => (by cases he), fun q hq => ?_⟩
      simp only [Task.begin] at hq
      cases hp : (g.view x).predecessor with
      | none => rw [hp] at hq; cases hq
      | some p =>
          rw [hp] at hq
          cases hq
          exact hview.kept.predecessor.symm.trans hp
  | enter through alone => exact absurd rfl (ht through alone)

/-- A turn that starts with an answer finds nothing to do. -/
theorem idle_resume (h : g.Calm v₀ ceiling) (hx : x ∈ g.members) {q : Question} {r : Reply}
    (hq : g.Apt (v₀ x) (g.turns x) q) (hr : g.Frank v₀ r q) :
    g.Idle v₀ x (g.turns x) (q.resume (g.settings x) (g.view x) (some r)) := by
  have hview := h.views x hx
  cases q with
  | hop h' =>
      rcases h'.resume_cases (g.view x) r with
          ⟨_, hresolved, heq⟩ | ⟨f, heq⟩ | ⟨_, left, heq⟩ <;>
        rw [Question.resume, heq]
      · exact Idle.succeed hview hq.2 (hr.2 hresolved)
      · rcases hq.2 with hp | ⟨slot, hp, _⟩ <;> rw [hp] <;> exact Idle.finish hview _
      · exact Idle.ask hview ⟨⟨r.node, hr.1, rfl⟩, hq.2⟩
  | probe c =>
      -- The successor names the node itself, and there was no miss to forget.
      have hnode : r.node = x := by
        rw [Frank, show c = (v₀ x).successor from hq, h.predecessor hx] at hr
        exact (Option.some.inj hr).symm
      have hfar : Id.span (g.view x).key (g.view x).successor.key ≤
          Id.span (g.view x).key x.key := by
        rw [View.key, g.view_me x hx, Id.span_self]
        exact Id.span_le _ _
      have hmisses : (g.view x).misses = 0 := hview.kept.misses.trans (h.misses x hx)
      have hsame : (g.view x).probed r.node = g.view x := by
        rw [hnode, View.probed_of_le fun _ => hfar, ← hmisses]
      simp only [Question.resume]
      rw [hsame]
      refine ⟨hview, fun e he => ?_, apt_list hview⟩
      simp only [introduce] at he
      split at he <;> cases he
      rfl
  | list c =>
      have hsucc : c = (g.view x).successor :=
        (show c = (v₀ x).successor from hq).trans hview.kept.successor.symm
      have hmem : (g.view x).successor ∈ g.members := (h.ideal.successor x hx).1
      have hnodes : r.nodes = (g.view (g.view x).successor).successors := by
        rw [(h.views _ hmem).kept.successors, ← hsucc]
        exact hr
      have hsame : (g.view x).reported c r.nodes (g.settings x).ceiling = g.view x := by
        rw [View.reported, if_pos hsucc.symm, View.refresh, h.ideal.ceiling_eq x hx, hnodes,
          h.ideal.refresh_eq hx (g.view_me x hx) rfl]
      simp only [Question.resume]
      rw [hsame]
      exact Idle.finish hview _
  | pulse p => exact Idle.finish hview _

/-- A question under way goes to a member. -/
theorem target_mem (h : g.Calm v₀ ceiling) (hx : x ∈ g.members) {n : Nat} {q : Question}
    (hq : g.Apt (v₀ x) n q) : ∃ y ∈ g.members, y.endpoint = q.target := by
  cases q with
  | hop h' => exact hq.1
  | probe c => exact ⟨c, hq ▸ (h.inOrder hx).1, rfl⟩
  | list c => exact ⟨c, hq ▸ (h.inOrder hx).1, rfl⟩
  | pulse p =>
      have hp : (g.view x).predecessor = some p := (h.views x hx).kept.predecessor.trans hq
      exact ⟨p, (h.ideal.follows_predecessor hx hp).1, rfl⟩

/-- What is answered was so in the beginning. -/
theorem frank_answer (h : g.Calm v₀ ceiling) (hx : x ∈ g.members) {n : Nat} {q : Question}
    (hq : g.Apt (v₀ x) n q) {r : Reply} (hr : g.answer q = some r) : g.Frank v₀ r q := by
  rcases h.target_mem hx hq with ⟨y, hy, htarget⟩
  rw [g.answer_of_mem hy htarget.symm] at hr
  have hsucc := (h.inOrder hx).1
  cases q with
  | hop h' =>
      have hnamed := g.lookup_owner_or_onward h.ideal.successor h.fingersKnown hy h'.id
      cases hr
      rcases hnamed with ⟨c, hl, howns⟩ | ⟨c, hmem, hl, _⟩ <;>
        simp only [Message.new, Message.toReply, hl, Frank]
      · exact ⟨howns.1, fun _ => howns⟩
      · exact ⟨hmem, fun hfalse => by cases hfalse⟩
  | probe c =>
      have hc : c ∈ g.members := hq ▸ hsucc
      have hyc : y = c := g.eq_of_endpoint_eq hy hc htarget
      cases hr
      rcases h.ideal.predecessor y hy with ⟨p, _, hp, _⟩
      simp only [Message.new, Message.toReply, Frank, hp, Option.getD_some]
      rw [← hyc, ← (h.views y hy).kept.predecessor, hp]
  | list c =>
      have hc : c ∈ g.members := hq ▸ hsucc
      have hyc : y = c := g.eq_of_endpoint_eq hy hc htarget
      cases hr
      rw [← hyc]
      exact (h.views y hy).kept.successors
  | pulse p => trivial

/-- Whatever happens keeps the ring calm. -/
theorem step (h : g.Calm v₀ ceiling) (hstep : Step AnyTask g g') : g'.Calm v₀ ceiling := by
  cases hstep with
  | launch x t hx hup hmay =>
      refine h.carry hx (fun y hy => ?_) ?_ (fun j hj => hj) t _ (h.idle_begin hx hmay)
      · exact List.count_cons_of_ne fun he => hy (congrArg Prod.fst he).symm
      · exact List.count_le_count_cons
  | receive j y r hj hopen hy hup htarget hr =>
      rcases h.jobs j hj with ⟨hx, hapt, _⟩
      refine { h with jobs := fun k hk => ?_ }
      rcases List.mem_cons.mp hk with rfl | hold
      · refine ⟨hx, hapt, fun r' hr' => ?_⟩
        cases hr'
        exact h.frank_answer hx hapt hr
      · exact h.jobs k (List.mem_of_mem_erase hold)
  | resume j r hj hr =>
      rcases h.jobs j hj with ⟨hx, hapt, hfrank⟩
      exact h.carry hx (fun _ _ => rfl) (Nat.le_refl _) (fun _ => List.mem_of_mem_erase) j.task _
        (h.idle_resume hx hapt (hfrank r hr))
  | lapse j hj hopen hnobody =>
      rcases h.jobs j hj with ⟨hx, hapt, _⟩
      rcases h.target_mem hx hapt with ⟨y, hy, htarget⟩
      exact absurd htarget (hnobody y hy (h.up y hy))
  | tell x hx hup hset =>
      refine { h with claims := fun c e hc => ?_ }
      rcases List.mem_cons.mp hc with heq | hold
      · cases heq
        refine ⟨_, (h.inOrder hx).1, ?_, h.predecessor hx⟩
        rw [(h.views x hx).kept.successor]
      · exact h.claims c e hold
  | hear x c hx hup hclaim =>
      rcases h.claims c x.endpoint hclaim with ⟨y, hy, he, hp⟩
      rw [g.eq_of_endpoint_eq hy hx he] at hp
      have hsame : (g.hear x c).view = g.view := by
        have hknown := (h.views x hx).kept.predecessor.trans hp
        funext z
        by_cases hzx : z = x
        · rw [hzx, view_hear_self, View.notified_of_known _ _ hknown]
        · exact view_hear_other g c hzx
      constructor
      case up => exact h.up
      case misses => exact h.misses
      case known => exact h.known
      case jobs => exact h.jobs
      case ideal => exact h.ideal.of_kept rfl rfl fun z _ => hsame ▸ View.Kept.refl _
      case views => exact fun z hz => hsame ▸ h.views z hz
      case claims => exact fun c' e hc => h.claims c' e (List.mem_of_mem_erase hc)

end Calm

/-- An ideal ring whose members all answer stays as it is, whatever they
    undertake: the views change in nothing but the cursor and the fingers that are
    refreshed, and those own the points that their slots look for. And no question
    goes to nobody. -/
theorem tended_of_ideal (hideal : g.Ideal ceiling)
    (hmisses : ∀ x ∈ g.members, (g.view x).misses = 0) (hfingers : g.FingersKnown)
    (hup : ∀ x ∈ g.members, g.up x = true) (hquiet : g.Quiet)
    (hrun : Relation.ReflTransGen (Step AnyTask) g g') :
    (∀ x ∈ g.members, (g.view x).Tended g.toRoster (g'.turns x) (g'.view x)) ∧
      ∀ j ∈ g'.jobs, j.reply = none → ∃ r, Step AnyTask g' (g'.receive j r) := by
  have hstart : g.Calm g.view ceiling := by
    constructor
    case up => exact hup
    case ideal => exact hideal
    case misses => exact hmisses
    case known => exact hfingers
    case views =>
      intro x _
      rw [turns, hquiet.begun]
      exact View.Tended.refl _ _
    case jobs =>
      intro j hj
      rw [hquiet.jobs] at hj
      cases hj
    case claims =>
      intro c e hc
      rw [hquiet.claims] at hc
      cases hc
  have hend : g'.Calm g.view ceiling ∧ g'.toRoster = g.toRoster := by
    clear hquiet
    induction hrun with
    | refl => exact ⟨hstart, rfl⟩
    | tail _ hstep ih => exact ⟨ih.1.step hstep, hstep.frame.roster.trans ih.2⟩
  refine ⟨fun x hx => ?_, fun j hj hopen => ?_⟩
  · rw [← hend.2] at hx ⊢
    exact hend.1.views x hx
  · rcases hend.1.jobs j hj with ⟨hx, hapt, _⟩
    rcases hend.1.target_mem hx hapt with ⟨y, hy, htarget⟩
    rcases hr : g'.answer j.question with _ | r
    · rw [g'.answer_of_mem hy htarget.symm] at hr
      cases hq : j.question <;> rw [hq] at hr <;> cases hr
    · exact ⟨r, Step.receive g' j y r hj hopen hy (hend.1.up y hy) htarget.symm hr⟩

/-- The first of three nodes refreshes a finger while it waits for an answer of its
    successor. The finger is all that changes. -/
theorem early_tends :
    ∃ g', Relation.ReflTransGen (Step AnyTask) (quietTrio fun _ => true) g' ∧ g'.jobs.length = 1 ∧
      (g'.view .early).finger ⟨0, by decide⟩ = .middle ∧
      ((quietTrio fun _ => true).view .early).Tended (quietTrio fun _ => true).toRoster 1
        (g'.view .early) := by
  have hprobe : Relation.ReflTransGen (Step AnyTask) (quietTrio fun _ => true) _ :=
    Relation.ReflTransGen.single
      (Step.launch _ .early .stabilize (by decide) rfl fun _ _ h => by cases h)
  have hfinger := hprobe.tail
    (Step.launch _ .early .fixFinger (by decide) rfl fun _ _ h => by cases h)
  have hanswer := hfinger.tail
    (Step.receive _ _ .middle _ (List.mem_cons_self ..) rfl (by decide) rfl rfl rfl)
  have htended := (tended_of_ideal Overlay.ideal_idealTrio (by decide) (by decide) (by decide)
    ⟨rfl, rfl, rfl, rfl⟩ hanswer).1 .early (by decide)
  exact ⟨_, hanswer, rfl, rfl, htended⟩

end Traffic

end RingOverlay
