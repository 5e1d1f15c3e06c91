import Mathlib.Data.List.Sort
import RingOverlay.Proofs.Overlay

/-!
# Once Round the Ring

The members in the order in which a node meets them. Sorting by the way from the
node puts the node itself last, since the way from a point to itself is a whole
turn, and so the first entries are just those that belong into its list of
successors.

What makes the lists of neighbours agree is that going round from the next node
is the same journey, begun one node later: `round_rotate`. A list is rebuilt from
the one that the successor reports, which lacks the successor and goes one node
further. Of that further node there is either no room left, or it is the node
itself, and either way `View.fallbacks` stops there.

## Main definitions

* `Roster.Sooner`: One contact is met no later than another.
* `Roster.round`: The members, as a node meets them.
* `Overlay.Ideal`: Everybody's neighbours and list are as they should be.
* `Overlay.idealTrio`: Three members of whom that is true.

## Theorems

* `round_pairwise`: On the way round everybody lies further than the one before.
* `eq_round`: Only the way round is like that.
* `round_rotate`: The way round from the next node.
* `round_last`: It ends at the node itself.
* `kept_of_mem_take`: Everybody before that can be kept as a fallback.
* `fallbacks_front`: What is kept of the front of a list, and of what follows.
* `fallbacks_append`: Where the fallbacks of a list end.
* `Ideal.refresh_eq`: An ideal list is rebuilt as it was.
-/

namespace RingOverlay

namespace Roster

/-- On the way from a point one contact is met no later than another. -/
def Sooner (k : Id) (a b : Contact) : Prop := Id.span k a.key ≤ Id.span k b.key

instance (k : Id) : DecidableRel (Sooner k) := fun _ _ => inferInstanceAs (Decidable (_ ≤ _))

instance (k : Id) : Std.Total (Sooner k) := ⟨fun _ _ => Nat.le_total _ _⟩

instance (k : Id) : IsTrans Contact (Sooner k) := ⟨fun _ _ _ => Nat.le_trans⟩

/-- The members in the order in which a node meets them, the node itself last. -/
def round (R : Roster) (x : Contact) : List Contact := R.members.insertionSort (Sooner x.key)

variable {R : Roster} {c d x s : Contact} {rest : List Contact}

theorem mem_round : c ∈ R.round x ↔ c ∈ R.members := List.mem_insertionSort _

theorem round_perm (R : Roster) (x : Contact) : (R.round x).Perm R.members :=
  List.perm_insertionSort _ _

theorem length_round (R : Roster) (x : Contact) : (R.round x).length = R.members.length :=
  List.length_insertionSort _ _

/-- On the way round everybody lies further than the one before. -/
theorem round_pairwise (R : Roster) (x : Contact) :
    (R.round x).Pairwise fun a b => Id.span x.key a.key < Id.span x.key b.key := by
  have hnodup : (R.round x).Nodup := (R.round_perm x).nodup_iff.mpr R.members_nodup
  have hsorted : (R.round x).Pairwise (Sooner x.key) := List.pairwise_insertionSort _ _
  refine (hsorted.and hnodup).imp_of_mem fun {a b} ha hb h => Nat.lt_of_le_of_ne h.1 ?_
  exact fun hspan => h.2 (R.eq_of_key_eq (mem_round.mp ha) (mem_round.mp hb) (Id.span_inj hspan))

/-- Only the way round is like that. -/
theorem eq_round {l : List Contact} (hperm : l.Perm R.members)
    (hsorted : l.Pairwise fun a b => Id.span x.key a.key < Id.span x.key b.key) :
    l = R.round x :=
  List.Perm.eq_of_pairwise (fun _ _ _ _ hab hba => absurd hab (Nat.lt_asymm hba)) hsorted
    (R.round_pairwise x) (hperm.trans (R.round_perm x).symm)

theorem follows_of_round (h : R.round x = s :: rest) : R.Follows s x := by
  have hsorted := R.round_pairwise x
  rw [h, List.pairwise_cons] at hsorted
  refine ⟨mem_round.mp (h ▸ List.mem_cons_self ..), fun d hd => ?_⟩
  have hmem : d ∈ s :: rest := h ▸ mem_round.mpr hd
  rcases List.mem_cons.mp hmem with rfl | hrest
  · exact Nat.le_refl _
  · exact Nat.le_of_lt (hsorted.1 d hrest)

theorem round_of_follows (h : R.Follows s x) : ∃ rest, R.round x = s :: rest := by
  cases hround : R.round x with
  | nil =>
      have hmem : s ∈ R.round x := mem_round.mpr h.1
      rw [hround] at hmem
      cases hmem
  | cons c rest => exact ⟨rest, by rw [(follows_of_round hround).unique h]⟩

/-- The way round from the next node is the same, begun one node later. -/
theorem round_rotate (h : R.round x = s :: rest) : R.round s = rest ++ [s] := by
  have hsorted := R.round_pairwise x
  rw [h, List.pairwise_cons] at hsorted
  refine (eq_round ?_ ?_).symm
  · exact (List.perm_append_singleton s rest).trans (h ▸ R.round_perm x)
  · refine List.pairwise_append.mpr ⟨?_, List.pairwise_singleton _ _, fun a ha b hb => ?_⟩
    · refine hsorted.2.imp_of_mem fun {a b} ha hb hab => ?_
      have hcut := Id.span_add_span (hsorted.1 a ha)
      have hcut' := Id.span_add_span (hsorted.1 b hb)
      omega
    · rw [List.mem_singleton.mp hb, Id.span_self]
      have hcut := Id.span_add_span (hsorted.1 a ha)
      have hpos := Id.span_pos x.key s.key
      have hle := Id.span_le x.key a.key
      omega

theorem round_last (hx : x ∈ R.members) : ∃ front, R.round x = front ++ [x] := by
  have hmem : x ∈ R.round x := mem_round.mpr hx
  have hsorted := R.round_pairwise x
  rcases List.eq_nil_or_concat (R.round x) with hnil | ⟨front, last, hconcat⟩
  · rw [hnil] at hmem
    cases hmem
  · rw [List.concat_eq_append] at hconcat
    rw [hconcat] at hmem hsorted ⊢
    rcases List.mem_append.mp hmem with hfront | hlast
    · have hlt := (List.pairwise_append.mp hsorted).2.2 x hfront last (List.mem_singleton.mpr rfl)
      exact absurd rfl (Id.ne_of_span_lt hlt)
    · exact ⟨front, by rw [List.mem_singleton.mp hlast]⟩

-- Short of a whole turn a node does not meet itself.
theorem not_mem_take_round (hx : x ∈ R.members) {m : Nat} (hm : m < R.members.length) :
    x ∉ (R.round x).take m := by
  rcases round_last hx with ⟨front, hround⟩
  have hlen := R.length_round x
  have hnodup : (R.round x).Nodup := (R.round_perm x).nodup_iff.mpr R.members_nodup
  rw [hround, List.length_append, List.length_singleton] at hlen
  rw [hround, List.nodup_append] at hnodup
  rw [hround, List.take_append_of_le_length (by omega)]
  exact fun hmem => hnodup.2.2 x (List.mem_of_mem_take hmem) x (List.mem_singleton.mpr rfl) rfl

-- Between the next node and the node itself there is nobody who could not be kept
-- as a fallback.
theorem kept_of_mem_take (hx : x ∈ R.members) (hround : R.round x = s :: rest) {k : Nat}
    (hk : k ≤ rest.length - 1) (ha : c ∈ rest.take k) : c.isRoutable = true ∧ c ≠ x ∧ c ≠ s := by
  have hrest := List.mem_of_mem_take ha
  have hmem : c ∈ R.round x := hround ▸ List.mem_cons_of_mem _ hrest
  have hnodup : (s :: rest).Nodup := by
    rw [← hround]
    exact (R.round_perm x).nodup_iff.mpr R.members_nodup
  have hlen := R.length_round x
  rw [hround, List.length_cons] at hlen
  refine ⟨R.routable c (mem_round.mp hmem), ?_, ?_⟩
  · have hpos := List.length_pos_of_mem hrest
    have hshort := not_mem_take_round hx (m := k + 1) (by omega)
    rw [hround, List.take_succ_cons] at hshort
    rintro rfl
    exact hshort (List.mem_cons_of_mem _ ha)
  · rintro rfl
    exact (List.nodup_cons.mp hnodup).1 hrest

-- Whoever is not met before a member is met no sooner than it.
theorem mem_or_span_le {front back : List Contact} (h : R.round x = front ++ s :: back)
    (hd : d ∈ R.members) : d ∈ front ∨ Id.span x.key s.key ≤ Id.span x.key d.key := by
  have hsorted := R.round_pairwise x
  rw [h, List.pairwise_append, List.pairwise_cons] at hsorted
  have hmem : d ∈ front ++ s :: back := h ▸ mem_round.mpr hd
  rcases List.mem_append.mp hmem with hfront | hback
  · exact Or.inl hfront
  · rcases List.mem_cons.mp hback with rfl | hback
    · exact Or.inr (Nat.le_refl _)
    · exact Or.inr (Nat.le_of_lt (hsorted.2.1.1 d hback))

end Roster

namespace View

variable {front back : List Contact} {room : Nat}

/-- What can be kept from the front of a list is kept as far as there is room, and
    what follows is looked at with the room that is left. -/
theorem fallbacks_front (v : View)
    (hfront : ∀ a ∈ front, a.isRoutable = true ∧ a ≠ v.me ∧ a ≠ v.successor) :
    v.fallbacks room (front ++ back) =
      front.take room ++ v.fallbacks (room - front.length) back := by
  induction front generalizing room with
  | nil => rw [List.take_nil, List.nil_append, List.nil_append, List.length_nil, Nat.sub_zero]
  | cons a front ih =>
      rcases List.forall_mem_cons.mp hfront with ⟨⟨hrt, hme, hsucc⟩, hrest⟩
      cases room with
      | zero =>
          rw [v.fallbacks_zero, Nat.zero_sub, v.fallbacks_zero, List.take_zero, List.nil_append]
      | succ room =>
          have hgo : ¬ (decide (room + 1 = 0) || decide (a = v.me) ||
              decide (a = v.successor)) = true := by
            simp only [Bool.or_eq_true, decide_eq_true_eq]
            rintro ((h | h) | h)
            · exact absurd h (Nat.succ_ne_zero room)
            · exact hme h
            · exact hsucc h
          rw [List.cons_append, fallbacks, if_neg hgo, if_pos hrt, Nat.add_sub_cancel, ih hrest,
            List.take_succ_cons, List.length_cons, Nat.add_sub_add_right, List.cons_append]

/-- The fallbacks of a list end where there is no room left, or at the node
    itself or its successor. -/
theorem fallbacks_append (v : View)
    (hfront : ∀ a ∈ front, a.isRoutable = true ∧ a ≠ v.me ∧ a ≠ v.successor)
    (hroom : front.length ≤ room)
    (hback : front.length = room ∨ ∀ b ∈ back.head?, b = v.me ∨ b = v.successor) :
    v.fallbacks room (front ++ back) = front := by
  have hend : v.fallbacks (room - front.length) back = [] := by
    rcases hback with heq | hstop
    · rw [heq, Nat.sub_self, v.fallbacks_zero]
    · cases back with
      | nil => rfl
      | cons b back => exact v.fallbacks_stop _ (hstop b rfl)
  rw [v.fallbacks_front hfront, hend, List.take_of_length_le hroom, List.append_nil]

end View

namespace Overlay

/-- Everybody's neighbours and list of successors are as they should be, with
    room for the same number of successors everywhere. -/
structure Ideal (o : Overlay) (ceiling : Nat) : Prop where
  ceiling_eq : ∀ x ∈ o.members, (o.settings x).ceiling = ceiling
  successor : o.InOrder
  predecessor : ∀ x ∈ o.members, ∃ p ∈ o.members, (o.view x).predecessor = some p ∧ o.Follows x p
  /-- The list goes as far as there is room, but not all the way round. Only a
      node that is alone stands in its own list. -/
  successors : ∀ x ∈ o.members,
    (o.view x).successors = (o.round x).take (max 1 (min ceiling (o.members.length - 1)))

namespace Ideal

variable {o : Overlay} {ceiling : Nat} {x : Contact}

-- A list is the beginning of the way round.
theorem round_of_list (h : o.Ideal ceiling) (hx : x ∈ o.members) {front back : List Contact}
    {s : Contact} (hlist : (o.view x).successors = front ++ s :: back) :
    ∃ beyond, o.round x = front ++ s :: beyond := by
  rw [h.successors x hx] at hlist
  have hround := List.take_append_drop (max 1 (min ceiling (o.members.length - 1))) (o.round x)
  rw [hlist, List.append_assoc, List.cons_append] at hround
  exact ⟨_, hround.symm⟩

theorem list_cons (h : o.Ideal ceiling) (hx : x ∈ o.members) :
    ∃ rest, (o.view x).successors = (o.view x).successor :: rest := by
  rcases Roster.round_of_follows (h.successor x hx) with ⟨rest, hround⟩
  rcases Nat.exists_eq_succ_of_ne_zero (n := max 1 (min ceiling (o.members.length - 1)))
    (by omega) with ⟨m, hm⟩
  rw [h.successors x hx, hround, hm]
  exact ⟨_, List.take_succ_cons⟩

theorem mem_of_mem_list (h : o.Ideal ceiling) (hx : x ∈ o.members) {c : Contact}
    (hc : c ∈ (o.view x).successors) : c ∈ o.members := by
  rw [h.successors x hx] at hc
  exact Roster.mem_round.mp (List.mem_of_mem_take hc)

theorem length_list_le (h : o.Ideal ceiling) (hx : x ∈ o.members) :
    (o.view x).successors.length ≤ ceiling := by
  have hpos : 1 ≤ ceiling := by
    rw [← h.ceiling_eq x hx]
    exact (o.settings x).one_le_ceiling
  rw [h.successors x hx, List.length_take]
  omega

-- The predecessor is the one that the member follows.
theorem follows_predecessor (h : o.Ideal ceiling) (hx : x ∈ o.members) {p : Contact}
    (hp : (o.view x).predecessor = some p) : p ∈ o.members ∧ o.Follows x p := by
  rcases h.predecessor x hx with ⟨p', hmem, heq, hfollows⟩
  rw [hp] at heq
  cases heq
  exact ⟨hmem, hfollows⟩

/-- The node that a member follows knows it. -/
theorem known (h : o.Ideal ceiling) (hx : x ∈ o.members) :
    (o.view (o.view x).successor).predecessor = some x := by
  rcases h.predecessor _ (h.successor x hx).1 with ⟨p, hp, heq, hfollows⟩
  rw [heq, hfollows.injective (h.successor x hx) hp hx]

/-- The list of the next node goes one node further: to one that there is no room
    for, to the node itself or, on a ring of one, to its successor again. -/
theorem fallbacks_eq (hx : x ∈ o.members) {v : View} (hv : v.me = x) {rest : List Contact}
    (hround : o.round x = v.successor :: rest) {k : Nat} (hk : k ≤ rest.length - 1) {room : Nat}
    (hroom : k = room ∨ k < room ∧ k = rest.length - 1) :
    v.fallbacks room ((rest ++ [v.successor]).take (k + 1)) = rest.take k := by
  have hlen := o.length_round x
  rw [hround, List.length_cons] at hlen
  rw [List.take_add_one, List.take_append_of_le_length (by omega)]
  refine v.fallbacks_append (fun a ha => ?_) ?_ ?_
  · rw [hv]
    exact Roster.kept_of_mem_take hx hround hk ha
  · rw [List.length_take]
    omega
  · rcases hroom with heq | ⟨_, hlast⟩
    · rw [List.length_take]
      omega
    · refine Or.inr fun b hb => ?_
      rcases List.eq_nil_or_concat rest with hnil | ⟨front, last, hconcat⟩
      · rw [hlast, hnil] at hb
        exact Or.inr (Option.some.inj hb).symm
      · rw [List.concat_eq_append] at hconcat
        have hend : last = x := by
          rcases Roster.round_last hx with ⟨before, hbefore⟩
          rw [hround, hconcat, ← List.cons_append] at hbefore
          exact List.append_singleton_inj.mp hbefore |>.2
        rw [hlast, hconcat, List.length_append, List.length_singleton, Nat.add_sub_cancel,
          List.append_assoc, List.getElem?_append_right (Nat.le_refl _), Nat.sub_self] at hb
        exact Or.inl ((Option.some.inj hb).symm.trans (hend.trans hv.symm))

/-- A list that is rebuilt from that of the successor is as it was. -/
theorem refresh_eq (h : o.Ideal ceiling) (hx : x ∈ o.members) {v : View} (hv : v.me = x)
    (hsucc : v.successor = (o.view x).successor) :
    v.successor :: v.fallbacks (ceiling - 1) (o.view v.successor).successors =
      (o.view x).successors := by
  have hfollows := h.successor x hx
  rw [← hsucc] at hfollows
  rcases Roster.round_of_follows hfollows with ⟨rest, hround⟩
  have hlen := o.length_round x
  rw [hround, List.length_cons] at hlen
  have hpos : 1 ≤ ceiling := by
    rw [← h.ceiling_eq x hx]
    exact (o.settings x).one_le_ceiling
  obtain ⟨k, hk⟩ : ∃ k, max 1 (min ceiling (o.members.length - 1)) = k + 1 :=
    ⟨max 1 (min ceiling (o.members.length - 1)) - 1, by omega⟩
  rw [h.successors x hx, h.successors _ hfollows.1, Roster.round_rotate hround, hround, hk,
    List.take_succ_cons, fallbacks_eq hx hv hround (by omega) (by omega)]

end Ideal

/-- The three in order, each with the other two in its list. No finger is set, and
    one miss is enough to give a successor up. -/
def idealTrio : Overlay :=
  let next (c : Contact) : Contact := .ofTrio (c.key + 1)
  { Overlay.trio fun _ _ => .unset with
    view := fun c => { View.joined c (next c) with
      predecessor := some (next (next c)), successors := [next c, next (next c)] }
    view_me := fun _ _ => rfl
    settings := fun _ => { maxSuccessors := 2, failureThreshold := 1 } }

theorem ideal_idealTrio : idealTrio.Ideal 2 :=
  ⟨by decide, by decide, by decide, by decide⟩

end Overlay

end RingOverlay
