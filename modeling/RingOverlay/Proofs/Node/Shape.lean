import RingOverlay.Proofs.Node.History

/-!
# The Shape of a View

A view has more structure than its type says. The list of successors is never
empty, begins with the successor and stays within its limit; the cursor stands
on a slot; and the count of misses is below the number at which the successor is
given up, so it can always be raised by one.

Most changes touch none of this. Three of them have to restore it: a nearer
successor takes the head of the list and keeps its length, a reported list is
cut to what is left of the limit after the successor, and when a successor is
given up its heirs become the list, of which there is always one. Limits of zero
make no difference, since the limit of the list is never below one and a count
that reaches a number of zero or one is reset at once.

## Main definitions

* `View.InShape`: What holds of every view.

## Theorems

* `InShape.change`: Every change keeps it.
* `inShape_of_live`: A node is in shape after every history.
-/

namespace RingOverlay

namespace View

/-- The list of successors, the cursor and the count of misses fit together. -/
structure InShape (s : Settings) (v : View) : Prop where
  head : v.successors.head? = some v.successor
  length : v.successors.length ≤ s.ceiling
  cursor : v.cursor < slotCount
  misses : v.misses < max 1 s.failureThreshold

theorem misses_pos (s : Settings) : 0 < max 1 s.failureThreshold :=
  Nat.lt_of_lt_of_le Nat.one_pos (Nat.le_max_left _ _)

theorem inShape_joined (s : Settings) (me c : Contact) : (View.joined me c).InShape s where
  head := rfl
  length := s.one_le_ceiling
  cursor := show slotCount - 1 < slotCount by decide
  misses := misses_pos s

-- A node that is alone has joined itself.
theorem inShape_alone (s : Settings) (me : Contact) : (View.alone me).InShape s :=
  inShape_joined s me me

namespace InShape

variable {s : Settings} {v w : View}

theorem adopt (h : v.InShape s) (c : Contact) : (v.adopt c).InShape s where
  head := rfl
  length := by
    -- The old head makes room for the new one.
    have hold : 0 < v.successors.length :=
      List.length_pos_of_mem (List.mem_of_mem_head? h.head)
    have := h.length
    simp only [View.adopt, List.length_cons, List.length_tail]
    omega
  cursor := h.cursor
  misses := misses_pos s

theorem probed (h : v.InShape s) (c : Contact) : (v.probed c).InShape s := by
  have hanswered : ({ v with misses := 0 } : View).InShape s :=
    ⟨h.head, h.length, h.cursor, misses_pos s⟩
  simp only [View.probed]
  split_ifs
  · exact hanswered.adopt c
  · exact hanswered

-- Heirs come from the list, so there are not too many of them.
theorem length_heirs_le (h : v.InShape s) : v.heirs.length ≤ s.ceiling := by
  rcases v.heirs_cases with heq | heq <;> rw [heq]
  · exact s.one_le_ceiling
  · refine (List.length_filter_le _ _).trans ?_
    rw [List.length_tail]
    exact (Nat.sub_le _ _).trans h.length

theorem missed (h : v.InShape s) : (v.missed s.failureThreshold).InShape s := by
  simp only [View.missed]
  split_ifs with hreached
  · exact ⟨head_heirs v, h.length_heirs_le, h.cursor, misses_pos s⟩
  · exact ⟨h.head, h.length, h.cursor,
      Nat.lt_of_lt_of_le (Nat.lt_of_not_le hreached) (Nat.le_max_right _ _)⟩

theorem reported (h : v.InShape s) (source : Contact) (list : List Contact) :
    (v.reported source list s.ceiling).InShape s := by
  unfold View.reported
  split_ifs
  · refine ⟨rfl, ?_, h.cursor, h.misses⟩
    have := v.length_fallbacks_le (s.ceiling - 1) list
    have := s.one_le_ceiling
    simp only [View.refresh, List.length_cons]
    omega
  · exact h

/-- Every change keeps a view in shape. -/
theorem change (h : v.InShape s) (hc : Change s v w) : w.InShape s := by
  cases hc with
  | advance => exact ⟨h.head, h.length, nextSlot_lt v.cursor, h.misses⟩
  | setFinger slot c _ => exact ⟨h.head, h.length, h.cursor, h.misses⟩
  | forget c => exact ⟨h.head, h.length, h.cursor, h.misses⟩
  | joined c _ => exact inShape_joined s v.me c
  | probed c => exact h.probed c
  | missed => exact h.missed
  | reported source list => exact h.reported source list
  | bereaved c =>
      unfold View.bereaved
      split_ifs
      · exact ⟨h.head, h.length, h.cursor, h.misses⟩
      · exact h
  | notified c =>
      unfold View.notified
      split_ifs
      · exact ⟨h.head, h.length, h.cursor, h.misses⟩
      · exact h

/-- So changes do. -/
theorem changes (h : v.InShape s) (hc : Changes s v w) : w.InShape s :=
  hc.keep (fun _ _ hu hc => hu.change hc) h

end InShape

end View

namespace Node

/-- A node is in shape after every history: it is who it was, its list of
    successors is headed by the successor and within its limit, its cursor is on
    the table, its count of misses can be raised without leaving the range that the
    threshold comes from, and every finger that a lookup is under way for can be
    written. -/
theorem inShape_of_live (s : Settings) (me : Contact) (firstSeq : UInt64)
    (events : List Event) :
    let n := ((bound s me firstSeq).live events).1
    n.view.me = me ∧ n.view.successors ≠ [] ∧ n.view.InShape s ∧
      n.view.fingers.toList.length = slotCount ∧
      (s.failureThreshold < 2 ^ 32 → n.view.misses + 1 < 2 ^ 32) ∧
      ∀ h slot, Question.hop h ∈ n.questions → h.purpose = .finger slot →
        ∀ c, n.view.setFinger? slot c = some (n.view.setFinger slot c) := by
  intro n
  have hchanges : View.Changes s (View.alone me) n.view :=
    (changes_live (bound s me firstSeq) events).2
  have hshape : n.view.InShape s := (View.inShape_alone s me).changes hchanges
  refine ⟨hchanges.me, ?_, hshape, Vector.length_toList, ?_, ?_⟩
  · intro hempty
    have hhead := hshape.head
    rw [hempty] at hhead
    cases hhead
  · intro hthreshold
    have hmisses := hshape.misses
    omega
  · intro h slot _ _ c
    exact dif_pos slot.isLt

end Node

end RingOverlay
