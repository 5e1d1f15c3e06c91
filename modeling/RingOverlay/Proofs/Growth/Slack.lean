import Mathlib.Algebra.Order.BigOperators.Group.Finset
import RingOverlay.Proofs.Growth.Safety

/-!
# Growing Rings Come to Rest

Why a growing ring cannot change its mind for ever. A node gives up a successor
only for one that lies nearer, and a predecessor only for one that lies nearer
on the other side; and to have no predecessor at all is worse than to have any.
So each node has a number, the ways from its predecessor to itself and on to its
successor, that only ever gets smaller, and the sum of these numbers bounds how
often anything can change.

The order is kept node by node and not only for the sum. `Growth.Tightens` says
of two states of one ring that each node has its neighbours of before or has
come closer; that is easy to compose, and `slack_le` and `slack_lt` read the sum
off it once.

Only nodes that have joined are counted. A newcomer that joins adds a number of
its own, and the argument starts again.

## Main definitions

* `Growth.reach`: How far a node is from its neighbours.
* `Growth.slack`: The same, for all nodes together.
* `Growth.Alike`: A node has the neighbours of before.
* `Growth.Changes`: Some node does not.
* `Growth.SameRing`: Nobody has joined.
* `Growth.Tightens`: Every node has its neighbours of before or nearer ones.

## Theorems

* `Tightens.slack_le`, `Tightens.slack_lt`: A ring that tightens has less slack,
  unless nothing has changed.
* `notified_cases_lt`: A claim is believed over a predecessor that lies further.
* `Sound.tightens_follow`: The turn of a node that has joined tightens the ring.
* `Sound.tightens_hear`: So does a claim that is heard.
* `Sound.tightens_step`: So does whatever happens while nobody joins.
* `Sound.changes_le_slack`: In a run nothing changes more often than there is slack.
-/

namespace RingOverlay

/-- A claim is believed over nobody or over one that lies further away, or the
    view stays as it was. -/
theorem View.notified_cases_lt (v : View) (c : Contact) :
    ((v.notified c).predecessor = some c ∧
        ∀ p, v.predecessor = some p → Id.span c.key v.key < Id.span p.key v.key) ∨
      v.notified c = v := by
  by_cases h : v.accepts c = true
  · refine Or.inl ⟨by rw [View.notified, if_pos h], fun p hp => ?_⟩
    rw [View.accepts, hp, Bool.and_eq_true, Arc.between_contains_iff] at h
    have hcut := Id.span_add_span h.2
    have hpos := Id.span_pos p.key c.key
    omega
  · exact Or.inr (by rw [View.notified, if_neg h])

namespace Growth

/-- How far a node is from its neighbours: the way from its predecessor to it,
    and the way from there to its successor. Having no predecessor counts for
    more than any way. -/
def reach (g : Growth) (x : Contact) : Nat :=
  Id.span x.key (g.succ x).key +
    match (g.view x).predecessor with
    | some p => Id.span p.key x.key
    | none => circleSize + 1

/-- The ways between all nodes that have joined and their neighbours. -/
def slack (g : Growth) : Nat := ∑ x ∈ g.joined.toFinset, g.reach x

/-- A node has the same neighbours in both states. -/
def Alike (g g' : Growth) (x : Contact) : Prop :=
  g'.succ x = g.succ x ∧ (g'.view x).predecessor = (g.view x).predecessor

instance (g g' : Growth) (x : Contact) : Decidable (g.Alike g' x) :=
  inferInstanceAs (Decidable (_ ∧ _))

/-- Some node has got another neighbour. -/
def Changes (g g' : Growth) : Prop := ∃ x ∈ g.joined, ¬ g.Alike g' x

instance (g g' : Growth) : Decidable (g.Changes g') :=
  inferInstanceAs (Decidable (∃ x ∈ g.joined, _))

/-- The same nodes have joined in both states. -/
def SameRing (g g' : Growth) : Prop := ∀ x, x ∈ g'.joined ↔ x ∈ g.joined

/-- Nobody has joined, and every node has its neighbours of before or has come
    closer to them. -/
structure Tightens (g g' : Growth) : Prop where
  ring : g.SameRing g'
  closer : ∀ x ∈ g.joined, g.Alike g' x ∨ g'.reach x < g.reach x

variable {g g' g'' : Growth} {x c : Contact}

theorem Alike.reach_eq (h : g.Alike g' x) : g'.reach x = g.reach x := by
  rw [reach, reach, h.1, h.2]

namespace Tightens

theorem refl (g : Growth) : g.Tightens g := ⟨fun _ => Iff.rfl, fun _ _ => Or.inl ⟨rfl, rfl⟩⟩

theorem reach_le (h : g.Tightens g') (hx : x ∈ g.joined) : g'.reach x ≤ g.reach x := by
  rcases h.closer x hx with hsame | hlt
  · exact Nat.le_of_eq hsame.reach_eq
  · exact Nat.le_of_lt hlt

theorem trans (h : g.Tightens g') (h' : g'.Tightens g'') : g.Tightens g'' where
  ring x := (h'.ring x).trans (h.ring x)
  closer x hx := by
    have hle := h'.reach_le ((h.ring x).mpr hx)
    rcases h.closer x hx with hsame | hlt
    · rcases h'.closer x ((h.ring x).mpr hx) with hsame' | hlt'
      · exact Or.inl ⟨hsame'.1.trans hsame.1, hsame'.2.trans hsame.2⟩
      · rw [hsame.reach_eq] at hlt'
        exact Or.inr hlt'
    · exact Or.inr (Nat.lt_of_le_of_lt hle hlt)

-- The sum is over the same nodes in both states.
theorem slack_eq (h : g.Tightens g') : g'.slack = ∑ x ∈ g.joined.toFinset, g'.reach x := by
  rw [slack, show g'.joined.toFinset = g.joined.toFinset from Finset.ext fun x => by
    rw [List.mem_toFinset, List.mem_toFinset, h.ring x]]

theorem slack_le (h : g.Tightens g') : g'.slack ≤ g.slack := by
  rw [h.slack_eq]
  exact Finset.sum_le_sum fun x hx => h.reach_le (List.mem_toFinset.mp hx)

theorem slack_lt (h : g.Tightens g') (hchange : g.Changes g') : g'.slack < g.slack := by
  rcases hchange with ⟨x, hx, hne⟩
  rw [h.slack_eq]
  refine Finset.sum_lt_sum (fun y hy => h.reach_le (List.mem_toFinset.mp hy))
    ⟨x, List.mem_toFinset.mpr hx, ?_⟩
  exact (h.closer x hx).resolve_left hne

-- If only one node changes its mind, only that one has to be looked at.
theorem of_one (hring : g.SameRing g') (x : Contact)
    (hother : ∀ y ∈ g.joined, y ≠ x → g'.view y = g.view y)
    (hone : x ∈ g.joined → g.Alike g' x ∨ g'.reach x < g.reach x) : g.Tightens g' where
  ring := hring
  closer y hy := by
    by_cases hyx : y = x
    · rw [hyx] at hy ⊢
      exact hone hy
    · have hsame := hother y hy hyx
      exact Or.inl ⟨congrArg View.successor hsame, congrArg View.predecessor hsame⟩

end Tightens

namespace Sound

/-- The turn of a node that has joined tightens the ring: it keeps its
    predecessor, and its successor unless there is a nearer one. -/
theorem tightens_follow (hx : x ∈ g.joined) {t : Turn} (h : t.view.me = (g.view x).me)
    (ht : g.Fair x t) : g.Tightens (g.follow x t h) := by
  have hsucc : (g.follow x t h).succ x = t.view.successor := by rw [succ, view_follow_self]
  have hpred : ((g.follow x t h).view x).predecessor = (g.view x).predecessor := by
    rw [view_follow_self, ht.predecessor]
  refine Tightens.of_one (g.mem_joined_follow hx t h) x
    (fun y _ hy => g.view_follow_other t h hy) fun _ => ?_
  rcases ht.successor with heq | ⟨hlt, _⟩
  · exact Or.inl ⟨hsucc.trans heq, hpred⟩
  · refine Or.inr ?_
    rw [reach, reach, hsucc, hpred]
    exact Nat.add_lt_add_right hlt _

/-- A claim that is heard tightens the ring: it is believed only over one that
    lies further away, or over nobody. -/
theorem tightens_hear (hs : g.Sound) (x c : Contact) :
    g.Tightens (g.revise x ((g.view x).heard (.claim c)) (View.heard_me _ (.claim c))) := by
  have hself := g.view_revise_self x ((g.view x).heard (.claim c)) (View.heard_me _ (.claim c))
  have hsame : ((g.view x).notified c).successor = g.succ x := View.notified_successor _ c
  refine Tightens.of_one (fun _ => Iff.rfl) x
    (fun y _ hy => g.view_revise_other _ _ hy) fun hx => ?_
  rcases (g.view x).notified_cases_lt c with ⟨hnew, hnear⟩ | hold
  · refine Or.inr ?_
    rw [reach, reach, succ, hself, View.heard, hsame, hnew]
    refine Nat.add_lt_add_left ?_ _
    rw [View.key, g.view_me x (hs.joined_mem x hx)] at hnear
    cases hp : (g.view x).predecessor with
    | none => exact Nat.lt_succ_of_le (Id.span_le c.key x.key)
    | some p => exact hnear p hp
  · refine Or.inl ⟨?_, ?_⟩
    · rw [succ, hself, View.heard, hsame]
    · rw [hself, View.heard, hold]

/-- Whatever happens while nobody joins tightens the ring. -/
theorem tightens_step (hs : g.Sound) (h : Step g g') (hring : g.SameRing g') :
    g.Tightens g' := by
  -- A turn of one who has not joined concerns nobody who has.
  have hwaiting {x : Contact} (hx : x ∉ g.joined) (t : Turn) (ht : t.view.me = (g.view x).me)
      (hsame : g.SameRing (g.follow x t ht)) : g.Tightens (g.follow x t ht) :=
    Tightens.of_one hsame x (fun y _ hy => g.view_follow_other t ht hy) fun hj => absurd hj hx
  cases h with
  | arrive x h =>
      refine Tightens.of_one hring x (fun y _ hy => g.view_arrive_other h hy) fun hj => ?_
      exact absurd (hs.joined_mem x hj) h.not_mem
  | begin x t hx hidle hmay =>
      by_cases hj : x ∈ g.joined
      · exact tightens_follow hj _ (hs.fair_begin hj t hmay)
      · exact hwaiting hj _ _ hring
  | answer x q r hasked hanswer => exact ⟨hring, fun y _ => Or.inl ⟨rfl, rfl⟩⟩
  | resume x q r hanswered =>
      have hup : g.Upheld x (g.succ x) (.answered q r) := hs.errands x _ hanswered
      by_cases hj : x ∈ g.joined
      · exact tightens_follow hj _ (hs.fair_resume hj hup.1 hup.2)
      · exact hwaiting hj _ _ hring
  | hear x c hx hclaim => exact hs.tightens_hear x c

/-- In a run in which nobody joins, something changes no more often than there is
    slack in the beginning: each time some of it is used up. -/
theorem changes_le_slack (hs : g.Sound) (run : Nat → Growth) (hstart : run 0 = g) (n : Nat)
    (hsteps : ∀ i < n, Step (run i) (run (i + 1)) ∧ (run i).SameRing (run (i + 1))) :
    (run n).Sound ∧
      ((Finset.range n).filter fun i => (run i).Changes (run (i + 1))).card + (run n).slack ≤
        g.slack := by
  induction n with
  | zero =>
      rw [hstart, Finset.range_zero, Finset.filter_empty, Finset.card_empty, Nat.zero_add]
      exact ⟨hs, Nat.le_refl _⟩
  | succ n ih =>
      rcases ih fun i hi => hsteps i (Nat.lt_succ_of_lt hi) with ⟨hsound, hle⟩
      rcases hsteps n (Nat.lt_succ_self n) with ⟨hstep, hring⟩
      have htight := hsound.tightens_step hstep hring
      refine ⟨(hsound.step hstep).2, ?_⟩
      rw [Finset.range_add_one, Finset.filter_insert]
      split
      · rename_i hchange
        have hlt := htight.slack_lt hchange
        rw [Finset.card_insert_of_notMem fun hn =>
          Finset.notMem_range_self (Finset.mem_of_mem_filter n hn)]
        omega
      · have := htight.slack_le
        omega

end Sound

end Growth

end RingOverlay
