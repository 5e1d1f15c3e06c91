import Mathlib.Data.List.Perm.Basic
import RingOverlay.Proofs.Lookup.Halving

/-!
# Finger Tables Converge

How the fingers come to be exact in the first place. A refresh looks up the
point of one slot and writes the owner into it; the next refresh takes the next
slot. If every node refreshes once in a round, one round serves one slot, and
after as many rounds as there are slots all of them are done.

The difficulty is that a refresh is a lookup, and a lookup needs fingers. It
never needs the one that it is about to write. The point of slot `r` is `2 ^ r`
ahead, so the last member before it is less than that ahead, and fingers that
are exact below slot `r` are what `seek_of_near` asks for. So the rounds are an
induction, with the tables of all nodes exact below the slot of the round.

Within a round some nodes have written slot `r` and some have not. That makes
no difference to the others, since a finger that is exact never leads a lookup
astray and one that is unset never leads it anywhere. The order of the calls in
a round is therefore free, and free to change from round to round.

## Main definitions

* `Overlay.refresh`: A member refreshes the finger whose turn it is.
* `Overlay.refreshAll`: Several do so one after the other.
* `Overlay.refreshLookup`: The lookup that a refresh makes.
* `Overlay.RefreshFinds`: This lookup finds the owner, and the refresh stores it.
* `Overlay.AllFound`: Every refresh in a row does so.
* `Overlay.InRound`: In the round of a slot, with some calls still to come.

## Theorems

* `refresh_near`: A refresh writes the owner if the lower slots are exact.
* `inOrder_of_written`, `exactBelow_of_written`: What a refresh leaves as it was.
* `inRound_refresh`: A call takes its node off the list of the round.
* `round_end`: A round that has ended is the next one about to begin.
* `rounds_converge`: From a round on, the remaining ones make all slots exact.
* `fingers_exact_after_rounds`: Unset tables are exact after 64 rounds.
-/

namespace RingOverlay

namespace Overlay

/-- A member refreshes the finger whose turn it is. -/
def refresh (o : Overlay) (x : Contact) : Overlay := o.after x .fixFinger

/-- Several members do so, one after the other. -/
def refreshAll (o : Overlay) (calls : List Contact) : Overlay := calls.foldl refresh o

@[simp] theorem members_refreshAll (o : Overlay) (calls : List Contact) :
    (o.refreshAll calls).members = o.members := by
  induction calls generalizing o with
  | nil => rfl
  | cons x rest ih => exact ih (o.refresh x)

theorem refreshAll_append (o : Overlay) (first second : List Contact) :
    o.refreshAll (first ++ second) = (o.refreshAll first).refreshAll second :=
  List.foldl_append

/-- The lookup that a member makes when it refreshes the finger whose turn it
    is, with its result reported and not stored. -/
def refreshLookup (o : Overlay) (x : Contact) : Run :=
  (seek (o.view x).advance (fingerTarget (o.view x).key (o.view x).nextFinger) .report).conduct
    (o.settings x) o.peers []

/-- The lookup that a member makes when it refreshes a finger finds the owner of
    the slot's point, and the owner is what the refresh leaves in the slot. -/
def RefreshFinds (o : Overlay) (x : Contact) : Prop :=
  ∃ c, o.Owns c (fingerTarget x.key (o.view x).nextFinger) ∧
    (o.refreshLookup x).outcome = .found c ∧
    (o.refresh x).view x = (o.view x).advance.setFinger (o.view x).nextFinger c

/-- In a row of calls, the lookup of every one finds the owner. -/
def AllFound (o : Overlay) : List Contact → Prop
  | [] => True
  | x :: rest => o.RefreshFinds x ∧ (o.refresh x).AllFound rest

theorem allFound_append (o : Overlay) (first second : List Contact) :
    o.AllFound (first ++ second) ↔ o.AllFound first ∧ (o.refreshAll first).AllFound second := by
  induction first generalizing o with
  | nil => simp only [List.nil_append, AllFound, true_and, refreshAll, List.foldl_nil]
  | cons x rest ih =>
      rw [List.cons_append, AllFound, AllFound, ih (o.refresh x), and_assoc]
      rfl

/-- A refresh writes the owner of its slot's point, if all tables are exact below
    that slot. -/
theorem refresh_near (o : Overlay) (hs : o.InOrder) (r : Fin slotCount)
    (hf : o.FingersExactBelow r) {x : Contact} (hx : x ∈ o.members)
    (hr : nextSlot (o.view x).cursor = r) :
    ∃ c, o.Owns c (fingerTarget x.key r) ∧ (o.refreshLookup x).outcome = .found c ∧
      (o.refresh x).view x = (o.view x).advance.setFinger r c := by
  have hkey := o.key_view hx
  have hslot : (o.view x).nextFinger = r := Fin.ext hr
  rcases o.exists_last_before (fingerTarget x.key r) hx with ⟨p, hp, hlast⟩
  have hnear : Id.span x.key (fingerTarget x.key r) <
      Id.span p.key (fingerTarget x.key r) + 2 ^ r.val := by
    have htarget := Id.gap_fingerTarget x.key r.isLt
    have hpos := Id.span_pos p.key (fingerTarget x.key r)
    rw [Id.span_eq_gap (Id.ne_of_gap_pos (by rw [htarget]; exact Nat.two_pow_pos _)), htarget]
    omega
  rcases o.seek_of_near hs r (Nat.le_of_lt r.isLt) hf hx hp hlast hnear with ⟨c, howns, hseek⟩
  refine ⟨c, howns, ?_, ?_⟩
  · rcases hseek (o.settings x) (o.view x).advance rfl .report with ⟨qs, hrun⟩
    rw [refreshLookup, hslot, hkey, hrun]
    simp only [Purpose.succeed, conduct_finish, Run.after]
  · rcases hseek (o.settings x) (o.view x).advance rfl (.finger r) with ⟨qs, hrun⟩
    rw [refresh, view_after_self, perform, Task.begin, hslot, hkey, hrun]
    simp only [Purpose.succeed, conduct_finish, Run.after]

/-- The round of a slot, with these members still to be called: all tables are
    exact below the slot, those who have been called have written it, and the
    others come to it next. -/
structure InRound (o : Overlay) (r : Nat) (todo : List Contact) : Prop where
  inOrder : o.InOrder
  below : o.FingersExactBelow r
  waiting : ∀ x ∈ o.members, x ∈ todo → nextSlot (o.view x).cursor = r
  called : ∀ x ∈ o.members, x ∉ todo → (o.view x).cursor = r ∧
    ∀ h : r < slotCount, o.Owns ((o.view x).finger ⟨r, h⟩) (fingerTarget x.key r)

section Written

variable {o : Overlay} {x c : Contact} {r : Fin slotCount}

-- What a refresh that wrote `c` into slot `r` leaves of the overlay: successors are
-- not touched, and a table that was exact below the slot still is.
theorem inOrder_of_written (hs : o.InOrder)
    (hview : (o.refresh x).view x = (o.view x).advance.setFinger r c) :
    (o.refresh x).InOrder := by
  intro y hy
  by_cases hyx : y = x
  · subst hyx
    rw [hview, View.setFinger_successor, View.advance_successor]
    exact hs y hy
  · rw [refresh, o.view_after_other _ hyx]
    exact hs y hy

theorem exactBelow_of_written (hf : o.FingersExactBelow r) (howns : o.Owns c (fingerTarget x.key r))
    (hview : (o.refresh x).view x = (o.view x).advance.setFinger r c) :
    (o.refresh x).FingersExactBelow r := by
  intro y hy i
  by_cases hyx : y = x
  · subst hyx
    rw [hview]
    by_cases hir : i = r
    · subst hir
      rw [View.setFinger_same]
      exact ⟨fun _ => howns, Or.inr howns⟩
    · rw [View.setFinger_other _ _ hir, View.advance_finger]
      exact hf y hy i
  · rw [refresh, o.view_after_other _ hyx]
    exact hf y hy i

end Written

/-- A call takes its node off the list of the round, and its lookup succeeds. -/
theorem inRound_refresh (o : Overlay) (r : Fin slotCount) {x : Contact} {todo : List Contact}
    (hx : x ∈ o.members) (hnot : x ∉ todo) (h : o.InRound r (x :: todo)) :
    o.RefreshFinds x ∧ (o.refresh x).InRound r todo := by
  have hturn := h.waiting x hx List.mem_cons_self
  have hslot : (o.view x).nextFinger = r := Fin.ext hturn
  rcases o.refresh_near h.inOrder r h.below hx hturn with ⟨c, howns, hfound, hview⟩
  have hother (y : Contact) (hne : y ≠ x) : (o.refresh x).view y = o.view y :=
    o.view_after_other .fixFinger hne
  refine ⟨⟨c, by rw [hslot]; exact howns, hfound, by rw [hslot]; exact hview⟩, ?_⟩
  refine ⟨inOrder_of_written h.inOrder hview, exactBelow_of_written h.below howns hview, ?_, ?_⟩
  · intro y hy hin
    have hyx : y ≠ x := fun heq => hnot (heq ▸ hin)
    rw [hother y hyx]
    exact h.waiting y hy (List.mem_cons_of_mem x hin)
  · intro y hy hout
    by_cases hyx : y = x
    · subst hyx
      rw [hview, View.setFinger_cursor]
      refine ⟨hturn, fun _ => ?_⟩
      rw [View.setFinger_same]
      exact howns
    · rw [hother y hyx]
      refine h.called y hy fun hin => ?_
      rcases List.mem_cons.mp hin with heq | hin
      · exact hyx heq
      · exact hout hin

-- Who is still to be called does not depend on the order of the calls.
theorem InRound.perm {o : Overlay} {r : Nat} {todo calls : List Contact} (h : o.InRound r todo)
    (hp : calls.Perm todo) : o.InRound r calls :=
  ⟨h.inOrder, h.below, fun x hx hin => h.waiting x hx (hp.mem_iff.mp hin),
    fun x hx hout => h.called x hx fun hin => hout (hp.mem_iff.mpr hin)⟩

/-- The calls of a round, in whatever order, serve its slot and succeed. -/
theorem inRound_refreshAll (r : Fin slotCount) :
    ∀ (todo : List Contact) (o : Overlay), todo.Nodup → (∀ x ∈ todo, x ∈ o.members) →
      o.InRound r todo → o.AllFound todo ∧ (o.refreshAll todo).InRound r [] := by
  intro todo
  induction todo with
  | nil => exact fun o _ _ h => ⟨trivial, h⟩
  | cons x rest ih =>
      intro o hnodup hmem h
      have hsplit := List.nodup_cons.mp hnodup
      rcases o.inRound_refresh r (hmem x List.mem_cons_self) hsplit.1 h with ⟨hfound, hnext⟩
      rcases ih (o.refresh x) hsplit.2 (fun y hy => hmem y (List.mem_cons_of_mem x hy)) hnext with
        ⟨hall, hend⟩
      exact ⟨⟨hfound, hall⟩, hend⟩

-- A round that has ended is the next one about to begin: everybody has served
-- its slot, so the tables are exact below the next slot.
theorem round_end (o : Overlay) (r : Nat) (hr : r + 1 < slotCount) (h : o.InRound r []) :
    o.InRound (r + 1) o.members := by
  refine ⟨h.inOrder, fun x hx i => ⟨fun hi => ?_, (h.below x hx i).2⟩, fun x hx _ => ?_,
    fun x hx hnot => absurd hx hnot⟩
  · rcases Nat.lt_succ_iff_lt_or_eq.mp hi with hlt | heq
    · exact (h.below x hx i).1 hlt
    · have hslot := (h.called x hx List.not_mem_nil).2 (by omega)
      simp only [← heq] at hslot
      exact hslot
  · rw [(h.called x hx List.not_mem_nil).1, nextSlot, if_pos hr]

/-- The remaining rounds make all slots exact, from the beginning of any round on.
    The induction is on the number of rounds that are left after it. -/
theorem rounds_converge :
    ∀ (left : Nat) (o : Overlay) (r : Nat) (rounds : List (List Contact)),
      rounds.length = left + 1 → r + left + 1 = slotCount →
      (∀ calls ∈ rounds, calls.Perm o.members) → o.InRound r o.members →
      o.AllFound rounds.flatten ∧ (o.refreshAll rounds.flatten).InRound (slotCount - 1) [] := by
  intro left
  induction left with
  | zero =>
      intro o r rounds hlen hr hperm h
      rcases List.length_eq_one_iff.mp hlen with ⟨calls, rfl⟩
      have hcalls := hperm calls List.mem_cons_self
      rw [List.flatten_singleton, show slotCount - 1 = r by omega]
      exact inRound_refreshAll ⟨r, by omega⟩ calls o (hcalls.nodup_iff.mpr o.members_nodup)
        (fun x hx => hcalls.mem_iff.mp hx) (h.perm hcalls)
  | succ left ih =>
      intro o r rounds hlen hr hperm h
      cases rounds with
      | nil => exact absurd hlen (Nat.succ_ne_zero _).symm
      | cons calls rest =>
          have hcalls := hperm calls List.mem_cons_self
          rcases inRound_refreshAll ⟨r, by omega⟩ calls o (hcalls.nodup_iff.mpr o.members_nodup)
            (fun x hx => hcalls.mem_iff.mp hx) (h.perm hcalls) with ⟨hfound, hend⟩
          have hnext := (o.refreshAll calls).round_end r (by omega) hend
          rcases ih (o.refreshAll calls) (r + 1) rest (Nat.succ.inj hlen) (by omega)
            (fun other hother => by
              rw [members_refreshAll]
              exact hperm other (List.mem_cons_of_mem calls hother)) hnext with ⟨hall, hlast⟩
          rw [List.flatten_cons, allFound_append, refreshAll_append]
          exact ⟨⟨hfound, hall⟩, hlast⟩

/-- On a ring with right successors and no fingers at all, let every node refresh
    one finger in each of 64 rounds, in any order and in another order each
    time. Then every lookup made on the way finds the owner, and in the end every
    table is exact and every cursor is back where it was. -/
theorem fingers_exact_after_rounds (o : Overlay) (hs : o.InOrder)
    (hunset : ∀ x ∈ o.members, ∀ i : Fin slotCount, ((o.view x).finger i).isSet = false)
    (hcursor : ∀ x ∈ o.members, (o.view x).cursor = slotCount - 1)
    (rounds : List (List Contact)) (hlen : rounds.length = 64)
    (hperm : ∀ calls ∈ rounds, calls.Perm o.members) :
    (∀ before x rest, rounds.flatten = before ++ x :: rest →
        (o.refreshAll before).RefreshFinds x) ∧
      (∀ x ∈ o.members, ((o.refreshAll rounds.flatten).view x).cursor = slotCount - 1) ∧
      (o.refreshAll rounds.flatten).FingersExact := by
  have hstart : o.InRound 0 o.members := by
    refine ⟨hs, fun x hx i => ⟨fun hi => absurd hi (Nat.not_lt_zero _), Or.inl (hunset x hx i)⟩,
      fun x hx _ => ?_, fun x hx hnot => absurd hx hnot⟩
    rw [hcursor x hx]
    rfl
  rcases rounds_converge 63 o 0 rounds hlen rfl hperm hstart with ⟨hall, hend⟩
  refine ⟨fun before x rest hsplit => ?_, fun x hx => ?_, fun x hx i => ?_⟩
  · rw [hsplit, allFound_append] at hall
    exact hall.2.1
  · exact (hend.called x (by rw [members_refreshAll]; exact hx) List.not_mem_nil).1
  · rcases Nat.lt_or_ge i.val (slotCount - 1) with hlt | hge
    · exact (hend.below x hx i).1 hlt
    · have hlast : i.val = slotCount - 1 := by omega
      have hslot := (hend.called x hx List.not_mem_nil).2 (by decide)
      simp only [← hlast] at hslot
      exact hslot

/-- Three nodes that start without fingers and always call in the same order. -/
theorem trio_exact_after_rounds :
    ((trio fun _ _ => .unset).refreshAll
      (List.replicate 64 [.late, .early, .middle]).flatten).FingersExact := by
  refine ((trio fun _ _ => .unset).fingers_exact_after_rounds (by decide) (by decide +kernel)
    (by decide) (List.replicate 64 [.late, .early, .middle]) List.length_replicate ?_).2.2
  intro calls hcalls
  rw [List.eq_of_mem_replicate hcalls]
  decide

end Overlay

end RingOverlay
