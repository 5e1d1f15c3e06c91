import Mathlib.Algebra.Group.Basic
import Mathlib.Data.Finset.Max
import Mathlib.Data.Nat.ModEq
import Mathlib.Data.UInt
import RingOverlay.Proofs.Circle

/-!
# Arcs Partition the Circle

What the comparison of raw words in `Arc.contains` amounts to, and what follows
from it for the keys of a ring.

A point lies on an arc if it is met strictly between the ends, on a way that is
a whole turn when the ends coincide, or if it is the upper end and that end
counts. Nothing in this depends on where the circle's zero is: turning the
circle, which adds one word to all three points, changes no answer.

Keys in clockwise order cut the circle into arcs, each of which starts after
one key and runs up to and including the next, round the end of the list if
need be. Every point lies on exactly one of these, and the key at the end of it
is the owner of the point. The argument does not count arcs. Neighbours in the
list are neighbours on the circle (`span_le_of_clockwise`), so a point lies on
an arc exactly if the upper end is the first key at or after it
(`segment_contains_iff`); and every point has one such key.

With one key there is one arc, from that key all the way round to itself, and
it holds every point, which is what the exception for equal ends is there for.

## Main definitions

* `Id.Clockwise`: Keys in the order in which one turn meets them.
* `Id.OwnerAmong`: A key is the first one at or after a point.
* `Arc.segment`: The arc from one key of a list to the next.

## Theorems

* `contains_iff`: Any arc, by lengths.
* `contains_add_right`: Turning the circle changes nothing.
* `exists_clockwise`: Any keys can be listed clockwise, from any of them.
* `ownerAmong_scan`: With keys in ascending order a scan finds the owner.
* `segment_contains_iff`: Which points lie on an arc between neighbours.
* `segments_partition`: Every point lies on one arc, that of its owner.
-/

namespace RingOverlay

namespace Id

theorem gap_add_right (a b c : Id) : gap (a + c) (b + c) = gap a b := by
  rw [gap, gap, distance, distance, add_sub_add_right_eq_sub]

theorem span_add_right (a b c : Id) : span (a + c) (b + c) = span a b := by
  simp only [span, gap_add_right, UInt64.add_left_inj]

/-- Points in the order in which a turn that starts at the first of them meets
    them, each one once. -/
def Clockwise : List Id → Prop
  | [] => True
  | first :: rest => (first :: rest).Pairwise fun a b => gap first a < gap first b

instance (keys : List Id) : Decidable (Clockwise keys) :=
  match keys with
  | [] => inferInstanceAs (Decidable True)
  | _ :: _ => inferInstanceAs (Decidable (List.Pairwise _ _))

theorem nodup_of_clockwise {keys : List Id} (h : Clockwise keys) : keys.Nodup := by
  rcases keys with _ | ⟨first, rest⟩
  · exact List.nodup_nil
  · exact List.Pairwise.imp (fun {a b} hab => by rintro rfl; exact Nat.lt_irrefl _ hab) h

/-- A key is the owner of a point among others: the first one at or after it. -/
def OwnerAmong (keys : List Id) (k id : Id) : Prop :=
  k ∈ keys ∧ ∀ j ∈ keys, gap id k ≤ gap id j

/-- One key owns a point, if there is any. -/
theorem exists_ownerAmong {keys : List Id} (h : keys ≠ []) (id : Id) :
    ∃ k, OwnerAmong keys k id := by
  have hne : keys.toFinset.Nonempty := (List.toFinset_nonempty_iff keys).mpr h
  rcases Finset.exists_min_image keys.toFinset (gap id) hne with ⟨k, hk, hmin⟩
  exact ⟨k, List.mem_toFinset.mp hk, fun j hj => hmin j (List.mem_toFinset.mpr hj)⟩

theorem OwnerAmong.unique {keys : List Id} {k j id : Id} (hk : OwnerAmong keys k id)
    (hj : OwnerAmong keys j id) : k = j :=
  gap_inj (Nat.le_antisymm (hk.2 j hj.1) (hj.2 k hk.1))

/-- Any keys can be listed in clockwise order, starting at any one of them. -/
theorem exists_clockwise (keys : Finset Id) {first : Id} (h : first ∈ keys) :
    ∃ rest, Clockwise (first :: rest) ∧ ∀ k, k ∈ first :: rest ↔ k ∈ keys := by
  let le : Id → Id → Bool := fun a b => gap first a ≤ gap first b
  let sorted := keys.toList.mergeSort le
  have hperm : sorted.Perm keys.toList := List.mergeSort_perm _ le
  have hmem : ∀ k, k ∈ sorted ↔ k ∈ keys := fun k => by
    rw [hperm.mem_iff, Finset.mem_toList]
  have hle : sorted.Pairwise fun a b => le a b = true := by
    refine List.pairwise_mergeSort (fun a b c hab hbc => ?_) (fun a b => ?_) _
    · exact decide_eq_true (Nat.le_trans (of_decide_eq_true hab) (of_decide_eq_true hbc))
    · rw [Bool.or_eq_true, decide_eq_true_eq, decide_eq_true_eq]
      exact Nat.le_total _ _
  have hnodup : sorted.Nodup := hperm.nodup_iff.mpr keys.nodup_toList
  have hlt : sorted.Pairwise fun a b => gap first a < gap first b := by
    refine (hle.and hnodup).imp fun {a b} hab => ?_
    exact Nat.lt_of_le_of_ne (of_decide_eq_true hab.1) fun he => hab.2 (gap_inj he)
  rcases hsorted : sorted with _ | ⟨head, rest⟩
  · exact absurd ((hmem first).mpr h) (hsorted ▸ List.not_mem_nil)
  rw [hsorted] at hlt hmem
  -- Nothing is nearer to a point than the point itself, so the list starts there.
  have hhead : head = first := by
    rcases List.mem_cons.mp ((hmem first).mpr h) with hf | hf
    · exact hf.symm
    · have := (List.pairwise_cons.mp hlt).1 first hf
      rw [gap_self] at this
      exact absurd this (Nat.not_lt_zero _)
  subst hhead
  exact ⟨rest, hlt, hmem⟩

/-- The first of keys in ascending order is the least of them. -/
theorem toNat_le_of_ascending {first : Id} {rest : List Id}
    (h : (first :: rest).Pairwise (· < ·)) {k : Id} (hk : k ∈ first :: rest) :
    first.toNat ≤ k.toNat := by
  rcases List.mem_cons.mp hk with rfl | hk
  · exact Nat.le_refl _
  · exact Nat.le_of_lt (UInt64.lt_iff_toNat_lt.mp ((List.pairwise_cons.mp h).1 k hk))

/-- Keys in ascending order are in clockwise order. -/
theorem clockwise_of_ascending {keys : List Id} (h : keys.Pairwise (· < ·)) :
    Clockwise keys := by
  rcases keys with _ | ⟨first, rest⟩
  · trivial
  refine List.Pairwise.imp_of_mem (fun {a b} ha hb hab => ?_) h
  have hab := UInt64.lt_iff_toNat_lt.mp hab
  have ha := toNat_le_of_ascending h ha
  rw [gap_eq, gap_eq, if_pos ha, if_pos (toNat_le_of_ascending h hb)]
  omega

/-- With keys in ascending order the owner of a point is the first key that is
    not below it, and the first key of all if every key is below. -/
theorem ownerAmong_scan {first : Id} {rest : List Id} (h : (first :: rest).Pairwise (· < ·))
    (id : Id) :
    OwnerAmong (first :: rest) (((first :: rest).find? (id ≤ ·)).getD first) id := by
  have hid := toNat_lt_circleSize id
  rcases hfind : (first :: rest).find? (id ≤ ·) with _ | k
  · have hbelow : ∀ j ∈ first :: rest, j.toNat < id.toNat := fun j hj => by
      have := List.find?_eq_none.mp hfind j hj
      rw [decide_eq_true_eq, UInt64.le_iff_toNat_le] at this
      exact Nat.lt_of_not_le this
    refine ⟨List.mem_cons_self, fun j hj => ?_⟩
    -- The way leads past the largest word to every key, and to the least first.
    have hj0 := hbelow j hj
    have hf0 := hbelow first List.mem_cons_self
    have hfj := toNat_le_of_ascending h hj
    rw [Option.getD_none, gap_eq, gap_eq, if_neg (Nat.not_le_of_lt hf0),
      if_neg (Nat.not_le_of_lt hj0)]
    omega
  · obtain ⟨hk, before, after, hcut, hbefore⟩ := List.find?_eq_some_iff_append.mp hfind
    have hk := UInt64.le_iff_toNat_le.mp (of_decide_eq_true hk)
    have hklt := toNat_lt_circleSize k
    rw [hcut, List.pairwise_append] at h
    rw [hcut, Option.getD_some]
    refine ⟨List.mem_append_right _ List.mem_cons_self, fun j hj => ?_⟩
    rw [gap_eq, if_pos hk, gap_eq]
    rcases List.mem_append.mp hj with hj | hj
    · have hjid := hbefore j hj
      simp only [Bool.not_eq_true', decide_eq_false_iff_not, UInt64.le_iff_toNat_le] at hjid
      rw [if_neg hjid]
      omega
    · have hkj := toNat_le_of_ascending h.2.1 hj
      rw [if_pos (Nat.le_trans hk hkj)]
      omega

-- What is not met between `a` and `b` on a turn that starts at `f` is not met
-- between them at all.
theorem span_le_of_gap {f a b c : Id} (h : gap f a < gap f b)
    (hc : gap f c ≤ gap f a ∨ gap f b ≤ gap f c) : span a b ≤ span a c := by
  have hf := toNat_lt_circleSize f
  have ha := toNat_lt_circleSize a
  have hb := toNat_lt_circleSize b
  have hc := toNat_lt_circleSize c
  simp only [gap_eq] at *
  rw [span_eq, span_eq]
  split_ifs at * <;> omega

theorem span_start_le {f a c : Id} (h : gap f c ≤ gap f a) : span a f ≤ span a c := by
  have hf := toNat_lt_circleSize f
  have ha := toNat_lt_circleSize a
  have hc := toNat_lt_circleSize c
  rw [gap_eq, gap_eq] at h
  rw [span_eq, span_eq]
  split_ifs at h ⊢ <;> omega

theorem gap_lt_of_span_lt {a b x : Id} (h : span a b < span a x) : gap x a < gap x b := by
  have ha := toNat_lt_circleSize a
  have hb := toNat_lt_circleSize b
  have hx := toNat_lt_circleSize x
  rw [span_eq, span_eq] at h
  rw [gap_eq, gap_eq]
  split_ifs at h ⊢ <;> omega

/-- Of the keys of a list in clockwise order none lies between two neighbours,
    the last and the first of the list included. -/
theorem span_le_of_clockwise {keys : List Id} (h : Clockwise keys) (i : Fin keys.length)
    {k : Id} (hk : k ∈ keys) :
    span (keys.get i) (keys.get ⟨(i + 1) % keys.length, Nat.mod_lt _ i.pos⟩) ≤
      span (keys.get i) k := by
  rcases keys with _ | ⟨first, rest⟩
  · exact i.elim0
  obtain ⟨j, rfl⟩ := List.get_of_mem hk
  let place := (first :: rest).get
  have hlt {a b : Fin (first :: rest).length} (hab : a < b) :
      gap first (place a) < gap first (place b) := List.pairwise_iff_get.mp h a b hab
  have hle {a b : Fin (first :: rest).length} (hab : a ≤ b) :
      gap first (place a) ≤ gap first (place b) := by
    rcases Nat.eq_or_lt_of_le hab with heq | hab
    · rw [Fin.ext heq]
    · exact Nat.le_of_lt (hlt hab)
  by_cases hlast : i + 1 < (first :: rest).length
  · simp only [Nat.mod_eq_of_lt hlast]
    refine span_le_of_gap (hlt (Nat.lt_succ_self i)) ?_
    rcases Nat.lt_or_ge i j with hij | hji
    · exact Or.inr (hle hij)
    · exact Or.inl (hle hji)
  · -- The neighbour of the last key is where the turn started.
    have hwrap : (i + 1) % (first :: rest).length = 0 := by
      rw [show i.val + 1 = (first :: rest).length by omega, Nat.mod_self]
    simp only [hwrap]
    exact span_start_le (hle (by omega))

end Id

namespace Arc

/-- Whether a point lies on an arc: it is met strictly between the ends, or it
    is the upper end and that end counts. -/
theorem contains_iff (lower upper x : Id) (inclusive : Bool) :
    (⟨lower, upper, inclusive⟩ : Arc).contains x = true ↔
      (0 < Id.gap lower x ∧ Id.gap lower x < Id.span lower upper) ∨
        (inclusive = true ∧ x = upper) := by
  have hinner : Id.span lower x < Id.span lower upper ↔
      0 < Id.gap lower x ∧ Id.gap lower x < Id.span lower upper := by
    by_cases hx : lower = x
    · subst hx
      have := Id.span_le lower upper
      rw [Id.span_self, Id.gap_self]
      omega
    · have := Id.span_pos lower x
      rw [Id.span_eq_gap hx] at this ⊢
      omega
  rw [contains, Bool.or_eq_true, Bool.and_eq_true, beq_iff_eq, interior_iff, hinner, or_comm]

/-- Turning the circle changes nothing. -/
theorem contains_add_right (lower upper x c : Id) (inclusive : Bool) :
    (⟨lower + c, upper + c, inclusive⟩ : Arc).contains (x + c) =
      (⟨lower, upper, inclusive⟩ : Arc).contains x := by
  rw [Bool.eq_iff_iff, contains_iff, contains_iff, Id.gap_add_right, Id.span_add_right,
    UInt64.add_left_inj]

/-- The arc from a key of a list up to and including the next, where the first
    key is next after the last. -/
def segment (keys : List Id) (i : Fin keys.length) : Arc :=
  upTo (keys.get i) (keys.get ⟨(i + 1) % keys.length, Nat.mod_lt _ i.pos⟩)

/-- Every key ends an arc. -/
theorem exists_segment_upper {keys : List Id} {k : Id} (hk : k ∈ keys) :
    ∃ i, (segment keys i).upper = k := by
  obtain ⟨j, rfl⟩ := List.get_of_mem hk
  by_cases hfirst : j.val = 0
  · refine ⟨⟨keys.length - 1, by omega⟩, ?_⟩
    have hwrap : (keys.length - 1 + 1) % keys.length = j.val := by
      rw [Nat.sub_add_cancel j.pos, Nat.mod_self, hfirst]
    simp only [segment, upTo, hwrap]
  · refine ⟨⟨j - 1, by omega⟩, ?_⟩
    have hstep : (j.val - 1 + 1) % keys.length = j.val := by
      rw [Nat.sub_add_cancel (Nat.pos_of_ne_zero hfirst), Nat.mod_eq_of_lt j.isLt]
    simp only [segment, upTo, hstep]

/-- No key ends two arcs. -/
theorem segment_upper_inj {keys : List Id} (h : Id.Clockwise keys) {i j : Fin keys.length}
    (hij : (segment keys i).upper = (segment keys j).upper) : i = j := by
  have hnext : (i.val + 1) % keys.length = (j.val + 1) % keys.length :=
    congrArg Fin.val (List.nodup_iff_injective_get.mp (Id.nodup_of_clockwise h) hij)
  have hmod : i.val % keys.length = j.val % keys.length := Nat.ModEq.add_right_cancel' 1 hnext
  rw [Nat.mod_eq_of_lt i.isLt, Nat.mod_eq_of_lt j.isLt] at hmod
  exact Fin.ext hmod

/-- A point lies on the arc between neighbours exactly if the key at the end of
    the arc owns it. -/
theorem segment_contains_iff {keys : List Id} (h : Id.Clockwise keys) (i : Fin keys.length)
    (id : Id) :
    (segment keys i).contains id = true ↔ Id.OwnerAmong keys (segment keys i).upper id := by
  have hnext := fun k hk => Id.span_le_of_clockwise h i (k := k) hk
  rw [segment, upTo_contains_iff]
  constructor
  · intro hid
    refine ⟨List.get_mem _ _, fun k hk => ?_⟩
    rw [upTo, Id.gap_eq_span_sub hid, Id.gap_eq_span_sub (Nat.le_trans hid (hnext k hk))]
    have := hnext k hk
    omega
  · rintro ⟨-, howner⟩
    by_contra hpast
    -- Past the end of the arc one meets its beginning before its end.
    have hback := howner (keys.get i) (List.get_mem _ _)
    exact absurd hback (Nat.not_le_of_lt (Id.gap_lt_of_span_lt (Nat.lt_of_not_le hpast)))

/-- An arc holds what is met on the way between its ends, wherever the circle's
    zero is. Any keys, listed clockwise from any one of them, cut the circle
    into the arcs between neighbours, and every point lies on exactly one of
    these. The key at the end of it is the owner of the point, which a scan
    finds if the keys ascend. -/
theorem segments_partition :
    (∀ (lower upper x : Id) (inclusive : Bool),
      (⟨lower, upper, inclusive⟩ : Arc).contains x = true ↔
        (0 < Id.gap lower x ∧ Id.gap lower x < Id.span lower upper) ∨
          (inclusive = true ∧ x = upper)) ∧
    (∀ (lower upper x c : Id) (inclusive : Bool),
      (⟨lower + c, upper + c, inclusive⟩ : Arc).contains (x + c) =
        (⟨lower, upper, inclusive⟩ : Arc).contains x) ∧
    (∀ (set : Finset Id), ∀ first ∈ set,
      ∃ rest, Id.Clockwise (first :: rest) ∧ ∀ k, k ∈ first :: rest ↔ k ∈ set) ∧
    (∀ keys : List Id, keys ≠ [] → Id.Clockwise keys → ∀ id,
      ∃ i, (segment keys i).contains id = true ∧
        (∀ j, (segment keys j).contains id = true → j = i) ∧
        ∀ k, Id.OwnerAmong keys k id ↔ k = (segment keys i).upper) ∧
    ∀ (first : Id) (rest : List Id), (first :: rest).Pairwise (· < ·) →
      Id.Clockwise (first :: rest) ∧
        ∀ id, Id.OwnerAmong (first :: rest) (((first :: rest).find? (id ≤ ·)).getD first) id := by
  refine ⟨contains_iff, contains_add_right, fun set first h => Id.exists_clockwise set h, ?_,
    fun first rest h => ⟨Id.clockwise_of_ascending h, Id.ownerAmong_scan h⟩⟩
  intro keys hne hclock id
  obtain ⟨owner, howner⟩ := Id.exists_ownerAmong hne id
  obtain ⟨i, hi⟩ := exists_segment_upper howner.1
  have hid := fun j => segment_contains_iff hclock j id
  refine ⟨i, (hid i).mpr (hi ▸ howner), fun j hj => ?_, fun k => ⟨fun hk => ?_, ?_⟩⟩
  · exact segment_upper_inj hclock ((((hid j).mp hj).unique howner).trans hi.symm)
  · rw [hi]
    exact hk.unique howner
  · rintro rfl
    exact hi ▸ howner

/-- The last, the first and the second of three keys, and one key alone. -/
theorem late_early_middle_partition :
    (∃ i, (segment [18446744073709551610, 1000, 9223372036854775808] i).contains 3 = true ∧
      (∀ j, (segment [18446744073709551610, 1000, 9223372036854775808] j).contains 3 = true →
        j = i) ∧
      ∀ k, Id.OwnerAmong [18446744073709551610, 1000, 9223372036854775808] k 3 ↔
        k = (segment [18446744073709551610, 1000, 9223372036854775808] i).upper) ∧
    ∃ i, (segment [1000] i).contains 1000 = true ∧
      (∀ j, (segment [1000] j).contains 1000 = true → j = i) ∧
      ∀ k, Id.OwnerAmong [1000] k 1000 ↔ k = (segment [1000] i).upper :=
  ⟨segments_partition.2.2.2.1 _ (List.cons_ne_nil _ _) (by decide) 3,
    segments_partition.2.2.2.1 _ (List.cons_ne_nil _ _) (by decide) 1000⟩

end Arc

end RingOverlay
