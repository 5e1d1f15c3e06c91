import Mathlib.Algebra.Ring.Nat
import Mathlib.Tactic.SplitIfs
import RingOverlay.Arc

/-!
# Lengths on the Circle

The arithmetic behind every routing decision. `Arc.contains` compares raw
words and knows three cases; every argument about a walk round the circle
wants to add and subtract lengths instead. This module trades the one for the
other, once.

Two lengths are needed, and they differ in one place only. `Id.gap` is how far
one has to go to *be* at a point, which is nothing if one is there already.
`Id.span` is how far one has to go to *arrive* there, which takes at least one
place, so that the way from a point to itself is a whole turn. A node's
successor is the node of least span from it, and the owner of a point is the
node of least gap from the point.

With `Id.span` the exception for arcs whose ends coincide is gone: a point lies
on an arc exactly if the walk from the lower end arrives at the point before it
arrives at the upper end, and `between_contains_iff` and `upTo_contains_iff`
say just that, with a strict and a weak inequality.

## Main definitions

* `circleSize`: How many points there are.
* `Id.gap`: The length of the way from one point to another.
* `Id.span`: The same, with a whole turn from a point to itself.

## Theorems

* `gap_eq`, `span_eq`: The two lengths by the words of the points.
* `ne_of_span_lt`: Nothing comes after the point one started from.
* `span_inj`, `gap_inj`: Points at one length from a third are one point.
* `span_add_span`, `gap_add_span_of_lt`: The way to a point, cut at a point that
  is met earlier, as seen from either end.
* `span_le_add`: A detour is never shorter.
* `span_lt_of_between`: Lying between two points is transitive.
* `eq_of_span_le_span`: No third point comes before both of two others.
* `gap_eq_span_sub`: What is left of the way after an earlier point.
* `gap_add_gap`, `gap_add_gap_of_lt`: The same cut, when no whole turn is involved.
* `gap_le_gap_of_le`: What comes before a point does not come after it.
* `gap_fingerTarget`: How far a finger slot looks.
* `between_contains_iff`: An open arc, by spans.
* `upTo_contains_iff`: A half-open arc, by spans.
-/

namespace RingOverlay

/-- How many points the circle has. -/
def circleSize : Nat := UInt64.size

namespace Id

/-- The length of the way from one point forward to another. -/
def gap (a b : Id) : Nat := (distance a b).toNat

/-- The length of the way from one point forward until one arrives at another.
    Arriving where one started takes a whole turn. -/
def span (a b : Id) : Nat := if a = b then circleSize else gap a b

theorem toNat_lt_circleSize (a : Id) : a.toNat < circleSize := a.toNat_lt

theorem gap_eq (a b : Id) :
    gap a b = if a.toNat ≤ b.toNat then b.toNat - a.toNat
      else circleSize + b.toNat - a.toNat := by
  have ha := toNat_lt_circleSize a
  have hb := toNat_lt_circleSize b
  -- Subtraction of words goes forward by the complement; without a borrow that
  -- is one turn too far.
  have h : gap a b = (circleSize - a.toNat + b.toNat) % circleSize := by
    simp only [gap, distance, UInt64.toNat_sub, circleSize]
  rw [h]
  by_cases hle : a.toNat ≤ b.toNat
  · rw [if_pos hle, show circleSize - a.toNat + b.toNat = b.toNat - a.toNat + circleSize by omega,
      Nat.add_mod_right, Nat.mod_eq_of_lt (by omega)]
  · rw [if_neg hle, Nat.mod_eq_of_lt (by omega)]
    omega

theorem span_eq (a b : Id) :
    span a b = if a.toNat < b.toNat then b.toNat - a.toNat
      else circleSize + b.toNat - a.toNat := by
  unfold span
  rw [gap_eq]
  by_cases hab : a = b
  · rw [if_pos hab, hab, if_neg (Nat.lt_irrefl _)]
    omega
  · have hne : a.toNat ≠ b.toNat := fun h => hab (UInt64.toNat_inj.mp h)
    rw [if_neg hab]
    split_ifs <;> omega

theorem gap_lt (a b : Id) : gap a b < circleSize := toNat_lt_circleSize (distance a b)

theorem gap_self (a : Id) : gap a a = 0 := by
  rw [gap_eq, if_pos (Nat.le_refl _), Nat.sub_self]

theorem ne_of_gap_pos {a b : Id} (h : 0 < gap a b) : a ≠ b := by
  rintro rfl
  rw [gap_self] at h
  exact Nat.lt_irrefl 0 h

theorem span_self (a : Id) : span a a = circleSize := if_pos rfl

theorem span_pos (a b : Id) : 0 < span a b := by
  have ha := toNat_lt_circleSize a
  rw [span_eq]
  split_ifs <;> omega

theorem span_le (a b : Id) : span a b ≤ circleSize := by
  have hb := toNat_lt_circleSize b
  rw [span_eq]
  split_ifs <;> omega

theorem ne_of_span_lt {a b c : Id} (h : span a b < span a c) : b ≠ a := by
  rintro rfl
  rw [span_self] at h
  exact absurd (span_le b c) (Nat.not_le_of_lt h)

theorem span_eq_gap {a b : Id} (h : a ≠ b) : span a b = gap a b := if_neg h

theorem span_inj {a b c : Id} (h : span a b = span a c) : b = c := by
  have ha := toNat_lt_circleSize a
  have hb := toNat_lt_circleSize b
  have hc := toNat_lt_circleSize c
  rw [span_eq, span_eq] at h
  refine UInt64.toNat_inj.mp ?_
  split_ifs at h <;> omega

theorem gap_inj {a b c : Id} (h : gap a b = gap a c) : b = c := by
  have ha := toNat_lt_circleSize a
  have hb := toNat_lt_circleSize b
  have hc := toNat_lt_circleSize c
  rw [gap_eq, gap_eq] at h
  refine UInt64.toNat_inj.mp ?_
  split_ifs at h <;> omega

/-- A walk to `c` that meets `b` on the way can be cut there. -/
theorem span_add_span {a b c : Id} (h : span a b < span a c) :
    span a b + span b c = span a c := by
  have ha := toNat_lt_circleSize a
  have hb := toNat_lt_circleSize b
  have hc := toNat_lt_circleSize c
  rw [span_eq, span_eq] at h
  rw [span_eq, span_eq, span_eq]
  split_ifs at h ⊢ <;> omega

theorem span_le_add (a b c : Id) : span a c ≤ span a b + span b c := by
  have ha := toNat_lt_circleSize a
  have hb := toNat_lt_circleSize b
  have hc := toNat_lt_circleSize c
  rw [span_eq, span_eq, span_eq]
  split_ifs <;> omega

/-- What lies between `b` and `c`, when `b` lies between `a` and `c`, lies
    between `a` and `c`, too. -/
theorem span_lt_of_between {a b c d : Id} (hb : span a b < span a c)
    (hd : span b d < span b c) : span a d < span a c := by
  have hcut := span_add_span hb
  have := span_le_add a b d
  omega

/-- No third point comes before both of two others, as seen from each of them. -/
theorem eq_of_span_le_span {a b c : Id} (ha : span a c ≤ span a b) (hb : span b c ≤ span b a) :
    a = b := by
  have hla := toNat_lt_circleSize a
  have hlb := toNat_lt_circleSize b
  have hlc := toNat_lt_circleSize c
  rw [span_eq, span_eq] at ha hb
  refine UInt64.toNat_inj.mp ?_
  split_ifs at ha hb <;> omega

theorem gap_add_span_of_lt {a b c : Id} (h : span b c < span a c) :
    gap a b + span b c = span a c := by
  have ha := toNat_lt_circleSize a
  have hb := toNat_lt_circleSize b
  have hc := toNat_lt_circleSize c
  rw [span_eq, span_eq] at h
  rw [gap_eq, span_eq, span_eq]
  split_ifs at h ⊢ <;> omega

-- What is left of the way to `c` once `b` has been met, which may be nothing.
theorem gap_eq_span_sub {a b c : Id} (h : span a b ≤ span a c) :
    gap b c = span a c - span a b := by
  have ha := toNat_lt_circleSize a
  have hb := toNat_lt_circleSize b
  have hc := toNat_lt_circleSize c
  rw [span_eq, span_eq] at h
  rw [span_eq, span_eq, gap_eq]
  split_ifs at h ⊢ <;> omega

theorem gap_add_gap {a b c : Id} (h : gap a b ≤ gap a c) :
    gap a b + gap b c = gap a c := by
  have ha := toNat_lt_circleSize a
  have hb := toNat_lt_circleSize b
  have hc := toNat_lt_circleSize c
  rw [gap_eq, gap_eq] at h
  rw [gap_eq, gap_eq, gap_eq]
  split_ifs at h ⊢ <;> omega

theorem gap_add_gap_of_lt {a b c : Id} (h : gap a b + gap b c < circleSize) :
    gap a b + gap b c = gap a c := by
  have ha := toNat_lt_circleSize a
  have hb := toNat_lt_circleSize b
  have hc := toNat_lt_circleSize c
  rw [gap_eq, gap_eq] at h
  rw [gap_eq, gap_eq, gap_eq]
  split_ifs at h ⊢ <;> omega

-- Whoever comes after `t` and before `a`, seen from `t`, does not come before
-- `t`, seen from `a`.
theorem gap_le_gap_of_le {a t c : Id} (hne : c ≠ a) (h : gap t c ≤ gap t a) :
    gap a t ≤ gap a c := by
  have ha := toNat_lt_circleSize a
  have ht := toNat_lt_circleSize t
  have hc := toNat_lt_circleSize c
  have hca : c.toNat ≠ a.toNat := fun he => hne (UInt64.toNat_inj.mp he)
  rw [gap_eq, gap_eq] at h
  rw [gap_eq, gap_eq]
  split_ifs at h ⊢ <;> omega

theorem gap_fingerTarget (key : Id) {slot : Nat} (h : slot < slotCount) :
    gap key (fingerTarget key slot) = 2 ^ slot := by
  have hlt : 2 ^ slot < 2 ^ 64 := Nat.pow_lt_pow_right (by decide) h
  have hback : distance key (fingerTarget key slot) = UInt64.ofNat (2 ^ slot) := by
    rw [distance, fingerTarget, UInt64.add_comm, UInt64.add_sub_cancel]
    rfl
  rw [gap, hback, UInt64.toNat_ofNat_of_lt' hlt]

end Id

namespace Arc

theorem interior_iff (a b x : Id) (inclusive : Bool) :
    (⟨a, b, inclusive⟩ : Arc).interior x = true ↔ Id.span a x < Id.span a b := by
  have ha := Id.toNat_lt_circleSize a
  have hb := Id.toNat_lt_circleSize b
  have hx := Id.toNat_lt_circleSize x
  have hne : (x != a) = true ↔ x.toNat ≠ a.toNat := by
    rw [bne_iff_ne, ne_eq, ne_eq, UInt64.toNat_inj]
  -- The three cases of the comparison of words are those of the two spans.
  rw [Id.span_eq, Id.span_eq]
  unfold interior
  simp only [UInt64.lt_iff_toNat_lt]
  split_ifs <;> simp only [Bool.and_eq_true, Bool.or_eq_true, decide_eq_true_eq, hne] <;> omega

/-- A point lies strictly between two others if a walk from the first arrives
    at it before it arrives at the second. -/
theorem between_contains_iff {a b x : Id} :
    (between a b).contains x = true ↔ Id.span a x < Id.span a b := by
  simp only [contains, between, Bool.false_and, Bool.false_or, interior_iff]

theorem upTo_contains_iff {a b x : Id} :
    (upTo a b).contains x = true ↔ Id.span a x ≤ Id.span a b := by
  simp only [contains, upTo, Bool.true_and, Bool.or_eq_true, beq_iff_eq, interior_iff]
  constructor
  · rintro (rfl | h)
    · exact Nat.le_refl _
    · exact Nat.le_of_lt h
  · intro h
    -- Equal spans are the one case in which the upper end itself is asked for.
    rcases Nat.eq_or_lt_of_le h with heq | hlt
    · exact Or.inl (Id.span_inj heq)
    · exact Or.inr hlt

end Arc

end RingOverlay
