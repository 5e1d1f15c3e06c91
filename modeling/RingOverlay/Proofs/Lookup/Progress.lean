import Mathlib.Data.List.Perm.Subperm
import RingOverlay.Proofs.Lookup.Walk

/-!
# Lookups Make Progress

What right successors are worth on their own. The fingers may be anything: out
of date, out of order, all the same. A lookup still cannot go wrong, because
the two things that decide about it do not depend on the fingers. A member
claims to know the owner only for points up to its successor, and there it is
right. And whoever it names instead lies strictly between itself and the point.

So every question is put to a member nearer to the point than the one before,
and none is asked twice. The only thing that bad fingers can cost is time: with
no more than `hopLimit` members on the way the lookup always arrives, and a
lookup that gives up has seen that many and one more. The count is exact. The
step from the node's own view is not a question, so it passes one member for
free, and the last answer names a member that is not asked any more.

## Main definitions

* `Roster.between`: The members strictly between two points.

## Theorems

* `length_between_lt`: Moving on to a member leaves fewer members on the way.
* `walk_progress`: A walk finds the owner or has used up the members.
* `find_owner_or_hopLimit`: So does a lookup, with the exact count.
-/

namespace RingOverlay

/-- The members strictly between two points. -/
def Roster.between (R : Roster) (a b : Id) : List Contact :=
  R.members.filter fun c => (Arc.between a b).contains c.key

theorem Roster.mem_between (R : Roster) (a b : Id) (c : Contact) :
    c ∈ R.between a b ↔ c ∈ R.members ∧ Id.span a c.key < Id.span a b := by
  rw [Roster.between, List.mem_filter, Arc.between_contains_iff]

/-- Moving on to a member on the way leaves fewer members on the way: those
    behind it, and not the member itself. -/
theorem Roster.length_between_lt (R : Roster) {a b : Id} {c : Contact}
    (hc : c ∈ R.between a b) : (R.between c.key b).length < (R.between a b).length := by
  have hca := ((R.mem_between a b c).mp hc).2
  have hself : c ∉ R.between c.key b :=
    fun h => Id.ne_of_span_lt ((R.mem_between c.key b c).mp h).2 rfl
  have hnodup : (c :: R.between c.key b).Nodup :=
    List.nodup_cons.mpr ⟨hself, R.members_nodup.filter _⟩
  have hsub : (c :: R.between c.key b) ⊆ R.between a b := by
    intro d hd
    rcases List.mem_cons.mp hd with rfl | hd
    · exact hc
    · have hdc := (R.mem_between c.key b d).mp hd
      refine (R.mem_between a b d).mpr ⟨hdc.1, ?_⟩
      have hcb := Id.span_add_span hca
      have := Id.span_le_add a c.key d.key
      omega
  exact (List.subperm_of_subset hnodup hsub).length_le

namespace Overlay

-- A walk finds the owner, or else it has passed as many members on the way as
-- it had questions. The induction is on the questions left: what a member names
-- is on the way, so the walk from there has one member less before it.
theorem walk_progress (o : Overlay) (hs : o.InOrder) (hf : o.FingersKnown) (id : Id) :
    ∀ (left : Nat) (y : Contact), y ∈ o.members →
      (∃ c, (o.walk id left y).2 = some c ∧ o.Owns c id) ∨
        (o.walk id left y).2 = none ∧ left + 1 ≤ (o.between y.key id).length := by
  intro left
  induction left with
  | zero =>
      intro y hy
      rcases o.lookup_owner_or_onward hs hf hy id with ⟨c, hl, howns⟩ | ⟨c, hc, hl, hyc⟩
      · exact Or.inl ⟨c, by rw [o.walk_of_owner _ hl], howns⟩
      · refine Or.inr ⟨by rw [o.walk_zero hl], ?_⟩
        have := o.length_between_lt ((o.mem_between y.key id c).mpr ⟨hc, hyc⟩)
        omega
  | succ left ih =>
      intro y hy
      rcases o.lookup_owner_or_onward hs hf hy id with ⟨c, hl, howns⟩ | ⟨c, hc, hl, hyc⟩
      · exact Or.inl ⟨c, by rw [o.walk_of_owner _ hl], howns⟩
      · rw [o.walk_succ _ hl]
        rcases ih c hc with hfound | ⟨hnone, hcount⟩
        · exact Or.inl hfound
        · refine Or.inr ⟨hnone, ?_⟩
          have := o.length_between_lt ((o.mem_between y.key id c).mpr ⟨hc, hyc⟩)
          omega

/-- With right successors and any fingers whatever, a lookup finds the owner or
    reaches its limit, and it reaches the limit only if at least 65 members lie
    strictly between the node and the point. -/
theorem find_owner_or_hopLimit (o : Overlay) (hs : o.InOrder) (hf : o.FingersKnown)
    (x : Contact) (hx : x ∈ o.members) (id : Id) :
    (∃ c, o.Owns c id ∧ (o.find x id).outcome = .found c) ∨
      (o.find x id).outcome = .failed (.hopLimit id hopLimit) ∧
        65 ≤ (o.between x.key id).length := by
  rcases o.lookup_owner_or_onward hs hf hx id with ⟨c, hl, howns⟩ | ⟨y, hy, hl, hxy⟩
  · exact Or.inl ⟨c, howns, by rw [o.find_of_owner hl]⟩
  · rw [o.find_of_walk (o.closed_of_inOrder hs hf) hx hl]
    rcases o.walk_progress hs hf id (hopLimit - 1) y hy with ⟨c, hfound, howns⟩ | ⟨hnone, hcount⟩
    · exact Or.inl ⟨c, howns, by rw [hfound, reportOf]⟩
    · refine Or.inr ⟨by rw [hnone, reportOf], ?_⟩
      have hless := o.length_between_lt ((o.mem_between x.key id y).mpr ⟨hy, hxy⟩)
      have : hopLimit = 64 := rfl
      omega

/-- With one finger in all slots, and it a useless one, the first of three still
    finds the last. -/
theorem early_finds_late :
    ((trio fun _ _ => .early).find .early 9223372036854775809).outcome = .found .late := by
  rcases (trio fun _ _ => .early).find_owner_or_hopLimit (by decide) (by decide +kernel) .early
    (by decide) 9223372036854775809 with ⟨c, howns, hfound⟩ | ⟨_, hcount⟩
  · rw [hfound, howns.unique (d := .late) (by decide)]
  · exact absurd hcount (by decide)

end Overlay

end RingOverlay
