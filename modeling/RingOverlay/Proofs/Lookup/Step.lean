import RingOverlay.Proofs.Overlay

/-!
# One Step of a Lookup

What a single view says about a point, in terms of spans. `View.lookup` tries
three things in turn, and `lookup_cases` is the one place where these are told
apart; everything later cites the cases and never opens the function again.

The scan for a finger goes from the highest slot down and takes the first that
fits. Nothing here assumes that the fingers are in order, so all that can be
said of the result is that it fits and that no higher slot does. That is enough
for both uses that are made of it: whatever fits lies strictly between the node
and the point, and a slot that is known to fit bounds the slot that was taken
from below.

## Main definitions

* `View.Precedes`: A finger lies strictly between the node and a point.
* `Overlay.Closed`: No member ever points a lookup at a stranger.

## Theorems

* `closestPreceding_cases`: What the scan over the fingers finds.
* `lookup_cases`: The three ways in which a lookup goes on or ends.
* `lookup_next_ne`: A node never names itself as the next to ask.
* `lookup_of_le`: A point up to the successor belongs to the successor.
* `lookup_of_precedes`: A finger that fits is used, or a higher one is.
* `lookup_source`: Whoever is named is known to the view.
* `closed_of_inOrder`: In an ordered overlay whose fingers are known, every
  answer is a member.
* `lookup_owner`: Up to its successor a member answers with the owner.
* `lookup_onward`: Beyond it a member names a node that is closer to the point.
* `lookup_owner_or_onward`: The two together.
-/

namespace RingOverlay

namespace View

/-- A finger is set and lies strictly between the node and a point. -/
def Precedes (v : View) (id : Id) (f : Contact) : Prop :=
  f.isSet = true ∧ Id.span v.key f.key < Id.span v.key id

theorem precedes_iff (v : View) (id : Id) (f : Contact) :
    (f.isSet && (Arc.between v.key id).contains f.key) = true ↔ v.Precedes id f := by
  rw [Bool.and_eq_true, Arc.between_contains_iff, Precedes]

-- A finger that precedes a point is never the node itself: the node comes round
-- again only after everything else.
theorem Precedes.ne_me {v : View} {id : Id} {f : Contact} (h : v.Precedes id f) : f ≠ v.me :=
  fun he => Id.ne_of_span_lt h.2 (congrArg Contact.key he)

/-- What the scan over the fingers finds: the one that precedes the point in
    the highest slot, or the node itself if none does. -/
theorem closestPreceding_cases (v : View) (id : Id) :
    (v.closestPreceding id = v.me ∧ ∀ i : Fin slotCount, ¬ v.Precedes id (v.finger i)) ∨
      ∃ i : Fin slotCount, v.closestPreceding id = v.finger i ∧ v.Precedes id (v.finger i) ∧
        ∀ j : Fin slotCount, i < j → ¬ v.Precedes id (v.finger j) := by
  simp only [← precedes_iff]
  have hlen : v.fingers.toList.reverse.length = slotCount := by
    rw [List.length_reverse, Vector.length_toList]
  -- The scan reads the table backwards: what it meets in place `k` is the finger
  -- in slot `slotCount - 1 - k`.
  have hget (j : Fin slotCount) : v.fingers.toList.reverse[slotCount - 1 - j.val] = v.finger j := by
    rw [show v.finger j = v.fingers[j.val] from rfl]
    simp only [List.getElem_reverse, Vector.getElem_toList, Vector.length_toList]
    congr 1
    omega
  rcases hfind : v.fingers.toList.reverse.find? fun f =>
      f.isSet && (Arc.between v.key id).contains f.key with _ | f
  · refine Or.inl ⟨?_, fun i => List.find?_eq_none.mp hfind _ ?_⟩
    · simp only [closestPreceding, hfind, Option.getD_none]
    · rw [← hget i]
      exact List.getElem_mem _
  · rcases List.find?_eq_some_iff_getElem.mp hfind with ⟨hf, k, hk, heq, hbefore⟩
    have hfinger : v.finger ⟨slotCount - 1 - k, by omega⟩ = f := by
      rw [← hget, ← heq]
      congr 1
      simp only [slotCount] at hk hlen ⊢
      omega
    refine Or.inr ⟨⟨slotCount - 1 - k, by omega⟩, ?_, ?_, fun j hj => ?_⟩
    · rw [closestPreceding, hfind, Option.getD_some, hfinger]
    · rw [hfinger]
      exact hf
    · have hearlier : slotCount - 1 - j.val < k := by
        have : slotCount - 1 - k < j.val := hj
        omega
      have hnot := hbefore _ hearlier
      rw [hget j, Bool.not_eq_true'] at hnot
      rw [hnot]
      exact Bool.false_ne_true

/-- What a view says about a point. Up to the successor the answer is known;
    beyond it the lookup goes on with a finger or, without a usable one, with
    the successor; and a node that knows nobody keeps the point. -/
theorem lookup_cases (v : View) (id : Id) :
    (Id.span v.key id ≤ Id.span v.key v.successor.key ∧ v.lookup id = (v.successor, true)) ∨
      Id.span v.key v.successor.key < Id.span v.key id ∧
        ((v.closestPreceding id ≠ v.me ∧ v.lookup id = (v.closestPreceding id, false)) ∨
          v.closestPreceding id = v.me ∧
            ((v.successor ≠ v.me ∧ v.lookup id = (v.successor, false)) ∨
              (v.successor.isSet = false ∧ v.lookup id = (v.me, true)))) := by
  by_cases hup : (Arc.upTo v.key v.successor.key).contains id = true
  · exact Or.inl ⟨Arc.upTo_contains_iff.mp hup, by rw [lookup, if_pos hup]⟩
  · have hlt : Id.span v.key v.successor.key < Id.span v.key id := by
      rw [Arc.upTo_contains_iff] at hup
      omega
    -- A node that is its own successor owns everything, so this one is not.
    have hne : v.successor ≠ v.me :=
      fun he => Id.ne_of_span_lt hlt (congrArg Contact.key he)
    refine Or.inr ⟨hlt, ?_⟩
    rw [lookup, if_neg hup]
    by_cases hclose : v.closestPreceding id = v.me
    · refine Or.inr ⟨hclose, ?_⟩
      rw [if_neg (not_not.mpr hclose)]
      cases hset : v.successor.isSet with
      | false => exact Or.inr ⟨rfl, by simp only [Bool.false_and, Bool.false_eq_true, if_false]⟩
      | true =>
          refine Or.inl ⟨hne, ?_⟩
          rw [Bool.true_and, if_pos (by rw [bne_iff_ne]; exact hne)]
    · exact Or.inl ⟨hclose, by rw [if_pos hclose]⟩

theorem lookup_next_ne {v : View} {id : Id} {c : Contact} (h : v.lookup id = (c, false)) :
    c ≠ v.me := by
  rcases v.lookup_cases id with ⟨_, heq⟩ | ⟨_, ⟨hne, heq⟩ | ⟨_, ⟨hne, heq⟩ | ⟨_, heq⟩⟩⟩ <;>
    simp only [heq, Prod.mk.injEq, Bool.true_eq_false, and_false, and_true] at h <;>
    rw [← h] <;> exact hne

theorem lookup_of_le {v : View} {id : Id}
    (h : Id.span v.key id ≤ Id.span v.key v.successor.key) :
    v.lookup id = (v.successor, true) := by
  rcases v.lookup_cases id with ⟨_, heq⟩ | ⟨hlt, _⟩
  · exact heq
  · omega

-- A finger that precedes the point is never wasted: the lookup goes on with the
-- one in its slot or in a higher one.
theorem lookup_of_precedes {v : View} {id : Id} {i : Fin slotCount}
    (hlt : Id.span v.key v.successor.key < Id.span v.key id) (h : v.Precedes id (v.finger i)) :
    ∃ j : Fin slotCount, i ≤ j ∧ v.Precedes id (v.finger j) ∧
      v.lookup id = (v.finger j, false) := by
  rcases v.closestPreceding_cases id with ⟨_, hnone⟩ | ⟨j, hj, hpre, habove⟩
  · exact absurd h (hnone i)
  refine ⟨j, ?_, hpre, ?_⟩
  · by_contra hij
    exact habove i (Fin.not_le.mp hij) h
  · rcases v.lookup_cases id with ⟨hle, _⟩ | ⟨_, ⟨_, heq⟩ | ⟨hme, _⟩⟩
    · omega
    · rw [heq, hj]
    · rw [hj] at hme
      exact absurd hme hpre.ne_me

/-- Whoever a lookup names is the node itself, its successor or a finger that
    is set. -/
theorem lookup_source (v : View) (id : Id) :
    (v.lookup id).1 = v.me ∨ (v.lookup id).1 = v.successor ∨
      ∃ i : Fin slotCount, (v.lookup id).1 = v.finger i ∧ (v.finger i).isSet = true := by
  rcases v.lookup_cases id with ⟨_, heq⟩ | ⟨_, ⟨_, heq⟩ | ⟨_, ⟨_, heq⟩ | ⟨_, heq⟩⟩⟩
  · exact Or.inr (Or.inl (congrArg Prod.fst heq))
  · rcases v.closestPreceding_cases id with ⟨hme, _⟩ | ⟨i, hi, hpre, _⟩
    · exact Or.inl ((congrArg Prod.fst heq).trans hme)
    · exact Or.inr (Or.inr ⟨i, (congrArg Prod.fst heq).trans hi, hpre.1⟩)
  · exact Or.inr (Or.inl (congrArg Prod.fst heq))
  · exact Or.inl (congrArg Prod.fst heq)

end View

namespace Overlay

/-- No member ever points a lookup at a stranger. -/
def Closed (o : Overlay) : Prop :=
  ∀ y ∈ o.members, ∀ id, ((o.view y).lookup id).1 ∈ o.members

theorem key_view (o : Overlay) {y : Contact} (hy : y ∈ o.members) : (o.view y).key = y.key := by
  rw [View.key, o.view_me y hy]

theorem closed_of_inOrder (o : Overlay) (hs : o.InOrder) (hf : o.FingersKnown) : o.Closed := by
  intro y hy id
  rcases (o.view y).lookup_source id with h | h | ⟨i, h, hset⟩
  · rw [h, o.view_me y hy]
    exact hy
  · rw [h]
    exact (hs y hy).1
  · rw [h]
    rcases hf y hy i with hunset | hmem
    · rw [hunset] at hset
      exact absurd hset Bool.false_ne_true
    · exact hmem

theorem lookup_owner (o : Overlay) (hs : o.InOrder) {y : Contact} (hy : y ∈ o.members) {id : Id}
    (h : Id.span y.key id ≤ Id.span y.key (o.view y).successor.key) :
    (o.view y).lookup id = ((o.view y).successor, true) ∧ o.Owns (o.view y).successor id := by
  refine ⟨View.lookup_of_le ?_, (hs y hy).owns h⟩
  rw [o.key_view hy]
  exact h

-- Whether a finger or the successor is named makes no difference here: both lie
-- between the member and the point.
theorem lookup_onward (o : Overlay) (hs : o.InOrder) {y : Contact} (hy : y ∈ o.members) {id : Id}
    (h : Id.span y.key (o.view y).successor.key < Id.span y.key id) :
    ∃ c, (o.view y).lookup id = (c, false) ∧ Id.span y.key c.key < Id.span y.key id := by
  have hkey := o.key_view hy
  rcases (o.view y).lookup_cases id with
    ⟨hle, _⟩ | ⟨_, ⟨hne, heq⟩ | ⟨_, ⟨_, heq⟩ | ⟨hunset, _⟩⟩⟩
  · rw [hkey] at hle
    omega
  · rcases (o.view y).closestPreceding_cases id with ⟨hme, _⟩ | ⟨i, hi, hpre, _⟩
    · exact absurd hme hne
    · refine ⟨_, heq, ?_⟩
      rw [hi, ← hkey]
      exact hpre.2
  · exact ⟨_, heq, h⟩
  · rw [o.isSet_of_mem (hs y hy).1] at hunset
    exact absurd hunset Bool.noConfusion

/-- So a member answers with the owner, or passes the lookup on to a member that
    is closer to the point. -/
theorem lookup_owner_or_onward (o : Overlay) (hs : o.InOrder) (hf : o.FingersKnown) {y : Contact}
    (hy : y ∈ o.members) (id : Id) :
    (∃ c, (o.view y).lookup id = (c, true) ∧ o.Owns c id) ∨
      ∃ c ∈ o.members, (o.view y).lookup id = (c, false) ∧
        Id.span y.key c.key < Id.span y.key id := by
  rcases Nat.lt_or_ge (Id.span y.key (o.view y).successor.key) (Id.span y.key id) with hlt | hle
  · rcases o.lookup_onward hs hy hlt with ⟨c, hl, hyc⟩
    have hmem := o.closed_of_inOrder hs hf y hy id
    rw [hl] at hmem
    exact Or.inr ⟨c, hmem, hl, hyc⟩
  · exact Or.inl ⟨_, o.lookup_owner hs hy hle⟩

end Overlay

end RingOverlay
