import Mathlib.Algebra.Order.BigOperators.Group.Finset
import Mathlib.Dynamics.PeriodicPts.Defs
import Mathlib.Logic.Relation
import RingOverlay.Contact
import RingOverlay.Proofs.Circle

/-!
# Following Pointers Round the Circle

What can be said about successors when they are nothing but pointers, one for
each contact. A pointer may skip members that it should have stopped at, so
following pointers is no walk through the ring; but it may still be a walk that
never passes its goal. `Leads` says so, and everything that is known about a
ring under construction is said with it.

A pointer is repaired by putting a contact in between: `x` pointed to `s`, and
points now to some `p` that lies between the two and from which the pointers
already led to `s`. The one thing that has to be understood is that no way is
lost by this. The way from `p` to `s` never comes by `x`, since `x` does not
lie between them, so it still exists afterwards; and a way that used the old
pointer can make the detour by `p`, since `p` lies before whatever `s` lay
before. `Leads.update` is this argument.

The turns of a way add up, and that is what makes a cycle wind once: a way from
a contact to itself has the length of a whole turn, wherever on it one starts.

## Main definitions

* `Leads`: Following pointers reaches a contact and does not pass it.
* `WindsOnce`: A cycle through a contact goes round the circle once.

## Theorems

* `Leads.trans`: Two ways make up one, when the middle lies on the way.
* `Leads.update`: Putting a contact in between loses no way.
* `Leads.congr`: A way depends only on the pointers of the contacts it visits.
* `Leads.iterate`: A way as an iteration, which stays on its arc.
* `Leads.turns`: The turns of a way add up to its length.
* `windsOnce_of_leads`: Whoever a cycle visits, it winds once from there.
* `WindsOnce.span_le_iterate`: Nobody on it comes before the next one.
-/

namespace RingOverlay

variable {f g : Contact → Contact}

/-- Following the pointers from one contact reaches another, and does not pass
    it before. At least one pointer is followed. -/
inductive Leads (f : Contact → Contact) : Contact → Contact → Prop where
  /-- The pointer goes there. -/
  | last {a b : Contact} (h : f a = b) : Leads f a b
  /-- The pointer falls short, and the next one goes on. -/
  | onward {a b : Contact} (h : Id.span a.key (f a).key < Id.span a.key b.key)
      (rest : Leads f (f a) b) : Leads f a b

-- What lies beyond the first of two contacts on a way and before the end lies
-- on what is left of the way, too.
theorem Id.span_lt_of_beyond {u w v s : Id} (hw : Id.span u w < Id.span u v)
    (hv : Id.span u v < Id.span u s) : Id.span w v < Id.span w s := by
  have hwv := Id.span_add_span hw
  have hws := Id.span_add_span (Nat.lt_trans hw hv)
  omega

namespace Leads

/-- Two ways make up one, when the contact in the middle lies on the way. -/
theorem trans {u v w : Contact} (huv : Leads f u v) (hvw : Leads f v w)
    (hmid : Id.span u.key v.key < Id.span u.key w.key) : Leads f u w := by
  induction huv with
  | last h =>
      subst h
      exact onward hmid hvw
  | onward h _ ih =>
      exact onward (Nat.lt_trans h hmid) (ih hvw (Id.span_lt_of_beyond h hmid))

/-- A way depends only on the pointers of a set of contacts that no pointer
    leaves. -/
theorem congr {J : List Contact} (hclosed : ∀ x ∈ J, f x ∈ J) (hagree : ∀ x ∈ J, g x = f x)
    {a b : Contact} (ha : a ∈ J) (h : Leads f a b) : Leads g a b := by
  induction h with
  | last h => exact last ((hagree _ ha).trans h)
  | onward h _ ih =>
      refine onward ?_ ?_ <;> rw [hagree _ ha]
      · exact h
      · exact ih (hclosed _ ha)

section Update

variable {x p : Contact}

-- A way to the old successor of `x` that starts beyond `x` makes no use of the
-- pointer of `x`.
theorem update_beyond {u : Contact} (h : Leads f u (f x))
    (hu : Id.span x.key u.key < Id.span x.key (f x).key) :
    Leads (Function.update f x p) u (f x) := by
  generalize hs : f x = s at h hu
  induction h with
  | @last a b h =>
      have hne : a ≠ x := fun he => Id.ne_of_span_lt hu (congrArg Contact.key he)
      exact last (by rw [Function.update_of_ne hne, h])
  | @onward a b h _ ih =>
      have hne : a ≠ x := fun he => Id.ne_of_span_lt hu (congrArg Contact.key he)
      refine onward ?_ ?_ <;> rw [Function.update_of_ne hne]
      · exact h
      · exact ih hs (Id.span_lt_of_between hu h)

/-- Putting `p` between `x` and its successor loses no way, if the pointers led
    from `p` to that successor before. -/
theorem update (hp : Leads f p (f x)) (hlt : Id.span x.key p.key < Id.span x.key (f x).key)
    {a b : Contact} (h : Leads f a b) : Leads (Function.update f x p) a b := by
  -- The way from `x` to its old successor is the one place that changes.
  have hdetour : Leads (Function.update f x p) x (f x) := by
    refine onward ?_ ?_ <;> rw [Function.update_self]
    · exact hlt
    · exact update_beyond hp hlt
  induction h with
  | @last a b h =>
      by_cases hax : a = x
      · rw [← h, hax]
        exact hdetour
      · exact last (by rw [Function.update_of_ne hax, h])
  | @onward a b h _ ih =>
      by_cases hax : a = x
      · rw [hax] at h ih ⊢
        exact hdetour.trans ih h
      · refine onward ?_ ?_ <;> rw [Function.update_of_ne hax]
        · exact h
        · exact ih

end Update

/-- A way is an iteration that never leaves its arc. -/
theorem iterate {a b : Contact} (h : Leads f a b) :
    ∃ k > 0, f^[k] a = b ∧
      ∀ i, 0 < i → i ≤ k → Id.span a.key (f^[i] a).key ≤ Id.span a.key b.key := by
  induction h with
  | @last a b h =>
      refine ⟨1, Nat.one_pos, h, fun i hi hik => ?_⟩
      rw [Nat.le_antisymm hik hi, Function.iterate_one, h]
  | @onward a b h _ ih =>
      rcases ih with ⟨k, hk, hend, harc⟩
      refine ⟨k + 1, Nat.succ_pos k, ?_, fun i hi hik => ?_⟩
      · rw [Function.iterate_succ_apply, hend]
      · rcases Nat.exists_eq_succ_of_ne_zero (Nat.ne_of_gt hi) with ⟨j, rfl⟩
        rw [Nat.succ_eq_add_one, Function.iterate_succ_apply]
        rcases Nat.eq_zero_or_pos j with rfl | hj
        · exact Nat.le_of_lt h
        · have hcut := Id.span_add_span h
          have hstep := harc j hj (by omega)
          have hdetour := Id.span_le_add a.key (f a).key (f^[j] (f a)).key
          omega

/-- The turns of a way add up to its length. -/
theorem turns {a b : Contact} (h : Leads f a b) :
    ∃ k > 0, f^[k] a = b ∧
      ∑ i ∈ Finset.range k, Id.span (f^[i] a).key (f^[i + 1] a).key = Id.span a.key b.key := by
  induction h with
  | @last a b h =>
      refine ⟨1, Nat.one_pos, h, ?_⟩
      rw [Finset.sum_range_one, Function.iterate_zero_apply, Function.iterate_one, h]
  | @onward a b h _ ih =>
      rcases ih with ⟨k, hk, hend, hsum⟩
      refine ⟨k + 1, Nat.succ_pos k, ?_, ?_⟩
      · rw [Function.iterate_succ_apply, hend]
      · simp only [Finset.sum_range_succ', Function.iterate_succ_apply, Function.iterate_zero_apply]
          at hsum ⊢
        rw [hsum, Nat.add_comm, Id.span_add_span h]

end Leads

/-- The cycle through a contact goes round the circle once: it comes back to the
    contact after turns that add up to one, and until then every contact it
    visits lies further round than the one before. -/
def WindsOnce (f : Contact → Contact) (c : Contact) : Prop :=
  ∃ n > 0, f^[n] c = c ∧
    ∑ i ∈ Finset.range n, Id.span (f^[i] c).key (f^[i + 1] c).key = circleSize ∧
    ∀ i j, i < j → j < n → Id.gap c.key (f^[i] c).key < Id.gap c.key (f^[j] c).key

-- As long as the turns made are short of a whole one, they say how far one has
-- come.
theorem gap_iterate (c : Contact) {j : Nat}
    (h : ∑ i ∈ Finset.range j, Id.span (f^[i] c).key (f^[i + 1] c).key < circleSize) :
    Id.gap c.key (f^[j] c).key =
      ∑ i ∈ Finset.range j, Id.span (f^[i] c).key (f^[i + 1] c).key := by
  induction j with
  | zero => rw [Finset.sum_range_zero, Function.iterate_zero_apply, Id.gap_self]
  | succ j ih =>
      rw [Finset.sum_range_succ] at h ⊢
      have hne : (f^[j] c).key ≠ (f^[j + 1] c).key := by
        intro he
        rw [he, Id.span_self] at h
        omega
      have hfar := ih (by omega)
      rw [Id.span_eq_gap hne, ← hfar] at h ⊢
      exact (Id.gap_add_gap_of_lt h).symm

-- A sum over one period does not depend on where it starts.
theorem sum_period {n : Nat} (t : Nat → Nat) (hper : ∀ i, t (i + n) = t i) (m : Nat) :
    ∑ i ∈ Finset.range n, t (i + m) = ∑ i ∈ Finset.range n, t i := by
  induction m with
  | zero => rfl
  | succ m ih =>
      have hfront := Finset.sum_range_succ' (fun i => t (i + m)) n
      have hback := Finset.sum_range_succ (fun i => t (i + m)) n
      have hshift : ∑ i ∈ Finset.range n, t (i + 1 + m) = ∑ i ∈ Finset.range n, t (i + (m + 1)) :=
        Finset.sum_congr rfl fun i _ => by rw [Nat.add_assoc, Nat.add_comm 1 m]
      have hends : t (n + m) = t (0 + m) := by rw [Nat.add_comm n m, hper, Nat.zero_add]
      omega

-- Turns that add up to one, from a contact back to itself, wind once.
theorem windsOnce_of_sum {c : Contact} {n : Nat} (hn : n > 0) (hend : f^[n] c = c)
    (hsum : ∑ i ∈ Finset.range n, Id.span (f^[i] c).key (f^[i + 1] c).key = circleSize) :
    WindsOnce f c := by
  refine ⟨n, hn, hend, hsum, fun i j hij hjn => ?_⟩
  have hpart (k l : Nat) (hkl : k < l) :
      ∑ i ∈ Finset.range k, Id.span (f^[i] c).key (f^[i + 1] c).key <
        ∑ i ∈ Finset.range l, Id.span (f^[i] c).key (f^[i + 1] c).key := by
    refine Finset.sum_lt_sum_of_subset (Finset.range_subset_range.mpr (Nat.le_of_lt hkl))
      (Finset.mem_range.mpr hkl) (fun h => Nat.lt_irrefl k (Finset.mem_range.mp h))
      (Id.span_pos _ _) fun _ _ _ => Nat.zero_le _
  have hi := hpart i n (Nat.lt_trans hij hjn)
  have hj := hpart j n hjn
  rw [hsum] at hi hj
  rw [gap_iterate c hi, gap_iterate c hj]
  exact hpart i j hij

/-- If the pointers lead from a contact back to itself, then the cycle winds
    once from every contact that it visits. -/
theorem windsOnce_of_leads {r : Contact} (h : Leads f r r) (m : Nat) :
    WindsOnce f (f^[m] r) := by
  rcases h.turns with ⟨n, hn, hend, hsum⟩
  rw [Id.span_self] at hsum
  have hper (i : Nat) : f^[i + n] r = f^[i] r := by rw [Function.iterate_add_apply, hend]
  refine windsOnce_of_sum hn ?_ ?_
  · rw [← Function.iterate_add_apply, Nat.add_comm, hper]
  · rw [← hsum, ← sum_period (fun i => Id.span (f^[i] r).key (f^[i + 1] r).key) ?_ m]
    · refine Finset.sum_congr rfl fun i _ => ?_
      rw [← Function.iterate_add_apply, ← Function.iterate_add_apply, Nat.add_right_comm]
    · intro i
      simp only [hper, Nat.add_right_comm i n 1]

/-- On a cycle that winds once nobody comes before the next one. -/
theorem WindsOnce.span_le_iterate {f : Contact → Contact} {c : Contact} (h : WindsOnce f c)
    (k : Nat) : Id.span c.key (f c).key ≤ Id.span c.key (f^[k] c).key := by
  rcases h with ⟨n, hn, hend, _, hround⟩
  have hspan (j : Nat) (hj : 0 < j) (hjn : j < n) :
      Id.span c.key (f^[j] c).key = Id.gap c.key (f^[j] c).key := by
    have hpos := hround 0 j hj hjn
    rw [Function.iterate_zero_apply, Id.gap_self] at hpos
    exact Id.span_eq_gap (Id.ne_of_gap_pos hpos)
  rw [← Function.IsPeriodicPt.iterate_mod_apply hend k]
  have hlt := Nat.mod_lt k hn
  rcases Nat.eq_zero_or_pos (k % n) with hzero | hpos
  · rw [hzero, Function.iterate_zero_apply, Id.span_self]
    exact Id.span_le _ _
  · rcases Nat.eq_or_lt_of_le hpos with hone | hmore
    · rw [← hone, Nat.succ_eq_add_one, Nat.zero_add, Function.iterate_one]
    · have hfirst := hspan 1 Nat.one_pos (Nat.lt_trans hmore hlt)
      rw [Function.iterate_one] at hfirst
      rw [hfirst, hspan _ hpos hlt]
      exact Nat.le_of_lt (hround 1 _ hmore hlt)

end RingOverlay
