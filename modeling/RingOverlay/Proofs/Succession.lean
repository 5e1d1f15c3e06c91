import RingOverlay.Proofs.Round

/-!
# Lists of Successors Converge

How the lists of successors come to be right in the first place. A list is rebuilt
from the one that the successor reports, so what is right at the front of that
one is right here too, one place further back. Whatever else stands in it, in
front of nobody who could be kept or behind the node itself, is passed over or
cut off.

A single list may get worse, since a successor that knows less than the node knew
already is believed all the same. What never gets worse is what all lists are
right about, and it is this common part that grows: once everybody has rebuilt its
list, in whatever order and however often, all of them are right about one more.

In the end there is a difference between a list that is cut off for want of room
and one that goes all the way round. The first is as long as it may be and needs
no more than to be right. The second is only right once the successor's list goes
as far as the node itself, where it is cut off.

## Main definitions

* `Overlay.renew`, `Overlay.renewAll`: One member rebuilds its list, or several do.
* `Overlay.Tidy`: Successors follow their nodes, and there is the same room for
  everybody's list.
* `Overlay.KnowsNext`: A list begins with the next so many members.
* `Overlay.ListsCorrect`: Everybody's does, as far as lists can go.
* `Overlay.muddledTrio`: Three members whose lists are right about nothing but the
  successor.

## Theorems

* `view_renew`: A list is rebuilt from that of the successor.
* `knowsNext_renew`: It is right about one more than that was.
* `exact_renew`: It is right altogether if that was right as far as lists can go.
* `renewAll_improves`: What a schedule makes of what single turns make.
* `listsCorrect_renewAll`, `listsCorrect_round`: No schedule does harm, and a round
  does some good.
* `lists_converge`: After enough rounds all lists are right.
-/

namespace RingOverlay

namespace Overlay

/-- A member rebuilds its list of successors. -/
def renew (o : Overlay) (x : Contact) : Overlay := o.after x .fixSuccessors

/-- Several members do so, one after the other. -/
def renewAll (o : Overlay) (schedule : List Contact) : Overlay := schedule.foldl renew o

theorem renewAll_append (o : Overlay) (first second : List Contact) :
    o.renewAll (first ++ second) = (o.renewAll first).renewAll second :=
  List.foldl_append

@[simp] theorem toRoster_renewAll (o : Overlay) (schedule : List Contact) :
    (o.renewAll schedule).toRoster = o.toRoster := by
  induction schedule generalizing o with
  | nil => rfl
  | cons x rest ih => exact ih (o.renew x)

/-- Successors follow their nodes, and there is the same room for everybody's
    list. -/
structure Tidy (o : Overlay) (ceiling : Nat) : Prop where
  inOrder : o.InOrder
  ceiling_eq : ∀ x ∈ o.members, (o.settings x).ceiling = ceiling

/-- The list of a member begins with the next `m` members. -/
def KnowsNext (o : Overlay) (x : Contact) (m : Nat) : Prop :=
  (o.round x).take m <+: (o.view x).successors

/-- Everybody's list begins with the next `k` members, as far as there is room for
    them and as there are any but the node itself. -/
def ListsCorrect (o : Overlay) (ceiling k : Nat) : Prop :=
  ∀ x ∈ o.members, o.KnowsNext x (min k (min ceiling (o.members.length - 1)))

variable {o : Overlay} {ceiling m k : Nat} {x y : Contact}

theorem KnowsNext.mono (h : o.KnowsNext x m) (hk : k ≤ m) : o.KnowsNext x k :=
  (List.take_prefix_take_left hk).trans h

/-- A list is rebuilt from that of the successor, which answers at once. -/
theorem view_renew (h : o.Tidy ceiling) (hx : x ∈ o.members) :
    (o.renew x).view x =
      (o.view x).refresh (o.view (o.view x).successor).successors ceiling := by
  have hsucc := (h.inOrder x hx).1
  have hanswer := o.answer_of_mem (q := .list (o.view x).successor) hsucc rfl
  rw [renew, view_after_self, perform, Task.begin, askList, if_pos (o.isSet_of_mem hsucc),
    conduct_ask _ _ _ _ _ rfl]
  simp only [peers, hanswer, Question.body, View.answer?, Option.map_some, Question.resume,
    conduct_finish, Run.after, View.reported, if_pos, h.ceiling_eq x hx]
  rfl

theorem knowsNext_renew_other (o : Overlay) (hy : y ≠ x) :
    (o.renew x).KnowsNext y m ↔ o.KnowsNext y m := by
  rw [KnowsNext, KnowsNext, renew, o.view_after_other _ hy]
  exact Iff.rfl

theorem Tidy.renew (h : o.Tidy ceiling) (hx : x ∈ o.members) : (o.renew x).Tidy ceiling where
  inOrder := by
    intro y hy
    by_cases hyx : y = x
    · rw [hyx, view_renew h hx]
      exact h.inOrder x hx
    · rw [Overlay.renew, o.view_after_other _ hyx]
      exact h.inOrder y hy
  ceiling_eq := h.ceiling_eq

/-- What is right at the front of the successor's list is right here, one place
    further back. -/
theorem knowsNext_renew (h : o.Tidy ceiling) (hx : x ∈ o.members)
    (hs : o.KnowsNext (o.view x).successor m) :
    (o.renew x).KnowsNext x (min (m + 1) (min ceiling (o.members.length - 1))) := by
  rcases Roster.round_of_follows (h.inOrder x hx) with ⟨rest, hround⟩
  have hlen := o.length_round x
  rw [hround, List.length_cons] at hlen
  -- Of what is right there, all can be kept that comes before the node itself.
  have hfront : rest.take (min m (rest.length - 1)) <+:
      (o.view (o.view x).successor).successors := by
    have hcut : (rest ++ [(o.view x).successor]).take (min m (rest.length - 1)) =
        rest.take (min m (rest.length - 1)) := List.take_append_of_le_length (by omega)
    refine List.IsPrefix.trans ?_ hs
    rw [Roster.round_rotate hround, ← hcut]
    exact List.take_prefix_take_left (Nat.min_le_left _ _)
  rcases hfront with ⟨back, hlist⟩
  have hkept : ∀ a ∈ rest.take (min m (rest.length - 1)),
      a.isRoutable = true ∧ a ≠ (o.view x).me ∧ a ≠ (o.view x).successor := by
    intro a ha
    rw [o.view_me x hx]
    exact Roster.kept_of_mem_take hx hround (Nat.min_le_right _ _) ha
  rw [KnowsNext, view_renew h hx, View.refresh, ← hlist, View.fallbacks_front _ hkept,
    List.take_take]
  cases hm : min (m + 1) (min ceiling (o.members.length - 1)) with
  | zero => exact List.nil_prefix
  | succ j =>
      have hsame : (o.renew x).round x = o.round x := rfl
      rw [hsame, hround, List.take_succ_cons, List.cons_prefix_cons]
      refine ⟨rfl, List.IsPrefix.trans ?_ (List.prefix_append _ _)⟩
      exact List.take_prefix_take_left (by omega)

/-- A list is right altogether if the successor's is right as far as lists can go. -/
theorem exact_renew (h : o.Tidy ceiling) (hmany : 2 ≤ o.members.length) (hx : x ∈ o.members)
    (hs : o.KnowsNext (o.view x).successor (min ceiling (o.members.length - 1))) :
    ((o.renew x).view x).successors =
      (o.round x).take (min ceiling (o.members.length - 1)) := by
  have hpos : 1 ≤ ceiling := by
    rw [← h.ceiling_eq x hx]
    exact (o.settings x).one_le_ceiling
  have hlen := o.length_round x
  by_cases hroom : ceiling ≤ o.members.length - 1
  · -- The list is right as far as there is room, and it is no longer than that.
    have hknows := knowsNext_renew h hx hs
    rw [Nat.min_eq_right (Nat.le_succ _)] at hknows
    refine (hknows.eq_of_length_le ?_).symm
    have hfew := (o.view x).length_fallbacks_le (ceiling - 1)
      (o.view (o.view x).successor).successors
    rw [view_renew h hx, View.refresh, List.length_cons, List.length_take]
    change _ ≤ min _ (o.round x).length
    omega
  · -- The successor's list goes as far as the node itself, and is cut off there.
    rcases Roster.round_of_follows (h.inOrder x hx) with ⟨rest, hround⟩
    rcases Roster.round_last hx with ⟨before, hlast⟩
    rw [hround, List.length_cons] at hlen
    cases before with
    | nil =>
        rw [hround, List.nil_append, List.cons.injEq] at hlast
        rw [hlast.2, List.length_nil] at hlen
        omega
    | cons s front =>
        rw [hround, List.cons_append, List.cons.injEq] at hlast
        have hfront : front.length = rest.length - 1 := by
          rw [hlast.2, List.length_append, List.length_singleton, Nat.add_sub_cancel]
        rcases hs with ⟨back, hlist⟩
        rw [Roster.round_rotate hround, Nat.min_eq_right (by omega),
          show o.members.length - 1 = rest.length by omega, List.take_left, hlast.2,
          List.append_assoc, List.singleton_append] at hlist
        have hcut : (o.view x).fallbacks (ceiling - 1) (front ++ x :: back) = front := by
          refine View.fallbacks_append _ (fun a ha => ?_) (by omega) (Or.inr fun b hb => ?_)
          · rw [o.view_me x hx]
            refine Roster.kept_of_mem_take hx hround (Nat.le_refl _) ?_
            rw [← hfront, hlast.2, List.take_left]
            exact ha
          · rw [o.view_me x hx]
            exact Or.inl (Option.some.inj hb).symm
        rw [view_renew h hx, View.refresh, ← hlist, hcut, hround, Nat.min_eq_right (by omega),
          show o.members.length - 1 = front.length + 1 by omega, List.take_succ_cons, hlast.2,
          List.take_left]

/-- Suppose that a turn brings its node from the first property to the second, if
    everybody has the first. Then a schedule brings everybody in it to the second,
    and nobody loses the first. -/
theorem renewAll_improves (ceiling k : Nat) {A B : Overlay → Contact → Prop}
    (hweak : ∀ o x, B o x → A o x)
    (hother : ∀ o x y, y ≠ x → (A o y → A (o.renew x) y) ∧ (B o y → B (o.renew x) y))
    (hself : ∀ o : Overlay, o.Tidy ceiling → o.members.length = k → ∀ x ∈ o.members,
      (∀ y ∈ o.members, A o y) → B (o.renew x) x) :
    ∀ (schedule : List Contact) (o : Overlay), o.Tidy ceiling → o.members.length = k →
      (∀ x ∈ schedule, x ∈ o.members) → (∀ y ∈ o.members, A o y) →
      (o.renewAll schedule).Tidy ceiling ∧ (∀ y ∈ o.members, A (o.renewAll schedule) y) ∧
        ∀ y ∈ o.members, B o y ∨ y ∈ schedule → B (o.renewAll schedule) y := by
  intro schedule
  induction schedule with
  | nil => exact fun o h _ _ hA => ⟨h, hA, fun y _ hy => hy.resolve_right List.not_mem_nil⟩
  | cons x rest ih =>
      intro o h hk hmem hA
      rcases List.forall_mem_cons.mp hmem with ⟨hx, hrest⟩
      have hB := hself o h hk x hx hA
      have hnext : ∀ y ∈ o.members, A (o.renew x) y := by
        intro y hy
        by_cases hyx : y = x
        · rw [hyx]
          exact hweak _ _ hB
        · exact (hother o x y hyx).1 (hA y hy)
      rcases ih (o.renew x) (h.renew hx) hk hrest hnext with ⟨htidy, hkept, hserved⟩
      refine ⟨htidy, hkept, fun y hy hor => hserved y hy ?_⟩
      by_cases hyx : y = x
      · rw [hyx]
        exact Or.inl hB
      · rcases hor with hold | hin
        · exact Or.inl ((hother o x y hyx).2 hold)
        · exact Or.inr ((List.mem_cons.mp hin).resolve_left hyx)

/-- A schedule leaves the lists as right as they are, and those who are in it are
    right about one more. -/
theorem listsCorrect_renewAll (h : o.Tidy ceiling) {schedule : List Contact}
    (hmem : ∀ x ∈ schedule, x ∈ o.members) (hlists : o.ListsCorrect ceiling k) :
    (o.renewAll schedule).Tidy ceiling ∧ (o.renewAll schedule).ListsCorrect ceiling k ∧
      ∀ x ∈ o.members, x ∈ schedule →
        (o.renewAll schedule).KnowsNext x
          (min (k + 1) (min ceiling (o.members.length - 1))) := by
  have hstep := renewAll_improves ceiling o.members.length
    (A := fun o' x => o'.KnowsNext x (min k (min ceiling (o.members.length - 1))))
    (B := fun o' x => o'.KnowsNext x (min (k + 1) (min ceiling (o.members.length - 1))))
    (fun o' x hB => hB.mono (by omega))
    (fun o' x y hyx => ⟨(knowsNext_renew_other o' hyx).mpr, (knowsNext_renew_other o' hyx).mpr⟩)
    (fun o' htidy hlen x hx hA => by
      have hmore := knowsNext_renew htidy hx (hA _ (htidy.inOrder x hx).1)
      rw [hlen] at hmore
      exact hmore.mono (by omega))
  rcases hstep schedule o h rfl hmem hlists with ⟨htidy, hkept, hserved⟩
  refine ⟨htidy, fun x hx => ?_, fun x hx hin => hserved x hx (Or.inr hin)⟩
  rw [toRoster_renewAll] at hx ⊢
  exact hkept x hx

/-- In a round every member rebuilds its list at least once. -/
def IsRound (o : Overlay) (schedule : List Contact) : Prop :=
  (∀ x ∈ schedule, x ∈ o.members) ∧ ∀ x ∈ o.members, x ∈ schedule

instance (o : Overlay) (schedule : List Contact) : Decidable (o.IsRound schedule) :=
  inferInstanceAs (Decidable ((∀ x ∈ schedule, _) ∧ ∀ x ∈ o.members, _))

theorem listsCorrect_round (h : o.Tidy ceiling) {schedule : List Contact}
    (hround : o.IsRound schedule) (hlists : o.ListsCorrect ceiling k) :
    (o.renewAll schedule).ListsCorrect ceiling (k + 1) := by
  intro x hx
  rw [toRoster_renewAll] at hx ⊢
  exact (listsCorrect_renewAll h hround.1 hlists).2.2 x hx (hround.2 x hx)

/-- Every round makes all lists right about one more. -/
theorem listsCorrect_rounds {rounds : List (List Contact)} (h : o.Tidy ceiling)
    (hrounds : ∀ schedule ∈ rounds, o.IsRound schedule) :
    (o.renewAll rounds.flatten).Tidy ceiling ∧
      (o.renewAll rounds.flatten).ListsCorrect ceiling rounds.length := by
  induction rounds using List.reverseRecOn with
  | nil => exact ⟨h, fun x _ => List.nil_prefix⟩
  | append_singleton rounds schedule ih =>
      rcases ih fun other hother => hrounds other (List.mem_append_left _ hother) with
        ⟨htidy, hlists⟩
      have hround := hrounds schedule (List.mem_append_right _ (List.mem_singleton.mpr rfl))
      have hsame : (o.renewAll rounds.flatten).IsRound schedule := by
        rw [IsRound, toRoster_renewAll]
        exact hround
      rw [List.flatten_append, List.flatten_singleton, renewAll_append, List.length_append,
        List.length_singleton]
      exact ⟨(listsCorrect_renewAll htidy hsame.1 hlists).1, listsCorrect_round htidy hsame hlists⟩

/-- When all lists are right as far as lists can go, those who have another turn are
    right altogether. -/
theorem exact_renewAll (h : o.Tidy ceiling) (hmany : 2 ≤ o.members.length)
    {schedule : List Contact} (hmem : ∀ x ∈ schedule, x ∈ o.members)
    (hlists : ∀ x ∈ o.members, o.KnowsNext x (min ceiling (o.members.length - 1)))
    (hx : x ∈ o.members) (hin : x ∈ schedule) :
    ((o.renewAll schedule).view x).successors =
      (o.round x).take (min ceiling (o.members.length - 1)) := by
  have hexact := renewAll_improves ceiling o.members.length
    (A := fun o' x => o'.KnowsNext x (min ceiling (o.members.length - 1)))
    (B := fun o' x => (o'.view x).successors =
      (o'.round x).take (min ceiling (o.members.length - 1)))
    (fun o' x hB => (hB ▸ List.prefix_refl _ : _ <+: _))
    (fun o' x y hyx => ⟨(knowsNext_renew_other o' hyx).mpr, fun hB => by
      rw [renew, o'.view_after_other _ hyx]
      exact hB⟩)
    (fun o' htidy hlen x hx hA => by
      have hexact := exact_renew htidy (hlen ▸ hmany) hx
      rw [hlen] at hexact
      exact hexact (hA _ (htidy.inOrder x hx).1))
  have hend := (hexact schedule o h rfl hmem hlists).2.2 x hx (Or.inr hin)
  rw [toRoster_renewAll] at hend
  exact hend

/-- On a ring of several members with right successors and the same room in every
    list, let the lists be whatever they are, and let members rebuild them one after
    the other in any order. As far as all lists are right at any time they stay so,
    and once everybody has had another turn all of them are right about one more.
    After more rounds than a list has entries to get right, which are never more than
    there is room for and members are, every list is just the next members. -/
theorem lists_converge (horder : o.InOrder)
    (hceiling : ∀ x ∈ o.members, (o.settings x).ceiling = ceiling)
    (hmany : 2 ≤ o.members.length) :
    (∀ k schedule, (∀ x ∈ schedule, x ∈ o.members) → o.ListsCorrect ceiling k →
        (o.renewAll schedule).ListsCorrect ceiling k ∧
          ((∀ x ∈ o.members, x ∈ schedule) →
            (o.renewAll schedule).ListsCorrect ceiling (k + 1))) ∧
      ∀ rounds : List (List Contact), (∀ schedule ∈ rounds, o.IsRound schedule) →
        min ceiling (o.members.length - 1) < rounds.length → ∀ x ∈ o.members,
          ((o.renewAll rounds.flatten).view x).successors =
            (o.round x).take (min ceiling (o.members.length - 1)) := by
  have htidy : o.Tidy ceiling := ⟨horder, hceiling⟩
  refine ⟨fun k schedule hmem hlists => ?_, fun rounds hrounds hlen x hx => ?_⟩
  · exact ⟨(listsCorrect_renewAll htidy hmem hlists).2.1,
      fun hall => listsCorrect_round htidy ⟨hmem, hall⟩ hlists⟩
  · rcases List.eq_nil_or_concat rounds with hnil | ⟨before, last, hconcat⟩
    · rw [hnil, List.length_nil] at hlen
      omega
    rw [List.concat_eq_append] at hconcat
    subst hconcat
    rw [List.length_append, List.length_singleton] at hlen
    rcases listsCorrect_rounds htidy fun schedule hin =>
      hrounds schedule (List.mem_append_left _ hin) with ⟨hbefore, hlists⟩
    have hlast := hrounds last (List.mem_append_right _ (List.mem_singleton.mpr rfl))
    have hsame := o.toRoster_renewAll before.flatten
    rw [IsRound, ← hsame] at hlast
    rw [← hsame] at hmany hlen hx ⊢
    rw [List.flatten_append, List.flatten_singleton, renewAll_append]
    refine exact_renewAll hbefore hmany hlast.1 (fun y hy => ?_) hx (hlast.2 x hx)
    exact (hlists y hy).mono (by omega)

/-- The three in order. What stands behind the successor in their lists is nobody,
    the node itself and the one before it. -/
def muddledTrio : Overlay :=
  let next (c : Contact) : Contact := .ofTrio (c.key + 1)
  { Overlay.trio fun _ _ => .unset with
    view := fun c => { View.joined c (next c) with
      successors := [next c, .unset, c, next (next c)] }
    view_me := fun _ _ => rfl }

/-- After three rounds the first of them knows the other two, and that is all it
    knows. -/
theorem early_list_converges :
    muddledTrio.InOrder ∧ (∀ x ∈ muddledTrio.members, (muddledTrio.settings x).ceiling = 8) ∧
      ((muddledTrio.renewAll (List.replicate 3 [.late, .early, .middle]).flatten).view
        .early).successors = [.middle, .late] := by
  have hceiling : ∀ x ∈ muddledTrio.members, (muddledTrio.settings x).ceiling = 8 := by decide
  refine ⟨by decide, hceiling, ?_⟩
  have hexact := (lists_converge (o := muddledTrio) (by decide) hceiling (by decide)).2
    (List.replicate 3 [.late, .early, .middle]) (by decide) (by decide) .early (by decide)
  exact hexact.trans (by decide)

end Overlay

end RingOverlay
