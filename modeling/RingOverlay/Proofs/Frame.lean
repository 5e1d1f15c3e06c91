import RingOverlay.View
import RingOverlay.Proofs.Circle

/-!
# What an Operation Leaves Alone

Frame lemmas for the operations on a view. Most operations touch two or three
of the seven fields, and almost every argument about them starts by saying
that some other field is as it was. Those facts are collected here and tagged
for `simp`, so that later proofs never open an operation to learn what it does
not do.

That a node keeps its own contact is the one fact that holds of all of them,
and it is what lets a node be named by its contact for ever.

## Main definitions

* `View.finger`: The finger in a slot.

## Theorems

* `notified_me` and the like: The node itself never changes.
* `notified_successor` and the like: Claims and reported lists leave the
  successor alone.
* `probed_predecessor` and the like: Only claims and silence bear on the
  predecessor.
* `probed_finger` and the like: Only lookups and silence bear on the fingers.
* `heirs_cases`, `promote_of_heirs`: Who takes over from a successor that is given
  up.
* `length_fallbacks_le`, `fallbacks_sublist`, `routable_of_mem_fallbacks`,
  `ne_of_mem_fallbacks`: How many fallbacks are kept of a list, and which.
* `probed_cases`: An answered probe brings a nearer successor or none.
* `span_le_of_probed`: What it means that it brings none.
* `notified_cases`: A claim is believed or leaves the view as it was.
-/

namespace RingOverlay

namespace View

/-- The finger in a slot. -/
def finger (v : View) (slot : Fin slotCount) : Contact := v.fingers.get slot

section Me

variable (v : View) (c : Contact)

@[simp] theorem alone_me : (View.alone c).me = c := rfl

@[simp] theorem joined_me (s : Contact) : (View.joined c s).me = c := rfl

@[simp] theorem adopt_me : (v.adopt c).me = v.me := rfl

@[simp] theorem forget_me : (v.forget c).me = v.me := rfl

@[simp] theorem promote_me : v.promote.me = v.me := rfl

@[simp] theorem advance_me : v.advance.me = v.me := rfl

@[simp] theorem setFinger_me (slot : Fin slotCount) : (v.setFinger slot c).me = v.me := rfl

@[simp] theorem refresh_me (reported : List Contact) (ceiling : Nat) :
    (v.refresh reported ceiling).me = v.me := rfl

@[simp] theorem notified_me : (v.notified c).me = v.me := by
  unfold notified
  split <;> rfl

@[simp] theorem bereaved_me : (v.bereaved c).me = v.me := by
  unfold bereaved
  split <;> rfl

@[simp] theorem probed_me : (v.probed c).me = v.me := by
  simp only [probed]
  split <;> rfl

@[simp] theorem missed_me (threshold : Nat) : (v.missed threshold).me = v.me := by
  simp only [missed]
  split <;> rfl

@[simp] theorem reported_me (list : List Contact) (ceiling : Nat) :
    (v.reported c list ceiling).me = v.me := by
  unfold reported
  split <;> rfl

end Me

section Successor

variable (v : View) (c : Contact)

@[simp] theorem advance_successor : v.advance.successor = v.successor := rfl

@[simp] theorem setFinger_successor (slot : Fin slotCount) :
    (v.setFinger slot c).successor = v.successor := rfl

@[simp] theorem notified_successor : (v.notified c).successor = v.successor := by
  unfold notified
  split <;> rfl

@[simp] theorem notified_successors : (v.notified c).successors = v.successors := by
  unfold notified
  split <;> rfl

@[simp] theorem notified_misses : (v.notified c).misses = v.misses := by
  unfold notified
  split <;> rfl

@[simp] theorem reported_successor (list : List Contact) (ceiling : Nat) :
    (v.reported c list ceiling).successor = v.successor := by
  unfold reported
  split <;> rfl

@[simp] theorem bereaved_successor : (v.bereaved c).successor = v.successor := by
  unfold bereaved
  split <;> rfl

-- The heirs are what is set of the list, or else the node itself is the only one.
theorem heirs_cases : v.heirs = [v.me] ∨ v.heirs = v.successors.tail.filter Contact.isSet := by
  unfold heirs
  split
  · exact Or.inl rfl
  · rename_i heq
    exact Or.inr heq.symm

theorem head_heirs : v.heirs.head? = some (v.heirs.headD v.me) := by
  unfold heirs
  split <;> rfl

-- The first fallback takes over.
theorem promote_of_heirs {v : View} {c : Contact} {rest : List Contact}
    (h : v.successors.tail.filter Contact.isSet = c :: rest) :
    v.promote.successor = c ∧ v.promote.successors = c :: rest ∧ v.promote.misses = 0 := by
  have hheirs : v.heirs = c :: rest := by rw [heirs, h]
  refine ⟨?_, ?_, rfl⟩
  · simp only [promote, hheirs]
    rfl
  · simp only [promote, hheirs]
    rfl

/-- An answered probe brings a nearer successor that can be reached, or leaves
    the one there was. -/
theorem probed_cases :
    (c.isRoutable = true ∧ Id.span v.key c.key < Id.span v.key v.successor.key ∧
        (v.probed c).successor = c) ∨
      (v.probed c).successor = v.successor := by
  simp only [probed]
  split
  · rename_i h
    rw [Bool.and_eq_true, Arc.between_contains_iff] at h
    exact Or.inl ⟨h.1, h.2, rfl⟩
  · exact Or.inr rfl

/-- A probe that names nobody nearer who can be reached only ends a series of
    misses. -/
theorem probed_of_le {v : View} {c : Contact}
    (h : c.isRoutable = true → Id.span v.key v.successor.key ≤ Id.span v.key c.key) :
    v.probed c = { v with misses := 0 } := by
  simp only [probed]
  refine if_neg fun hnear => ?_
  rw [Bool.and_eq_true, Arc.between_contains_iff] at hnear
  exact absurd hnear.2 (Nat.not_lt_of_le (h hnear.1))

/-- An answered probe that leaves the successor has named nobody nearer who can be
    reached. -/
theorem span_le_of_probed {v : View} {c : Contact} (hc : c.isRoutable = true)
    (h : (v.probed c).successor = v.successor) :
    Id.span v.key v.successor.key ≤ Id.span v.key c.key := by
  by_contra hnear
  have hbetween : (Arc.between v.key v.successor.key).contains c.key = true :=
    Arc.between_contains_iff.mpr (Nat.lt_of_not_le hnear)
  have hadopt : (v.probed c).successor = c := by
    simp only [probed]
    rw [hc, hbetween]
    rfl
  rw [← h, hadopt] at hnear
  exact hnear (Nat.le_refl _)

end Successor

section Fallbacks

variable (v : View)

@[simp] theorem fallbacks_zero (reported : List Contact) : v.fallbacks 0 reported = [] := by
  cases reported <;> rfl

-- The node itself ends a list, and so does its successor.
theorem fallbacks_stop {c : Contact} {rest : List Contact} (room : Nat)
    (h : c = v.me ∨ c = v.successor) : v.fallbacks room (c :: rest) = [] := by
  rw [fallbacks, if_pos]
  simp only [Bool.or_eq_true, decide_eq_true_eq]
  rcases h with hme | hsucc
  · exact Or.inl (Or.inr hme)
  · exact Or.inr hsucc

theorem length_fallbacks_le (room : Nat) (reported : List Contact) :
    (v.fallbacks room reported).length ≤ room := by
  fun_induction View.fallbacks v room reported with
  | case1 => exact Nat.zero_le _
  | case2 => exact Nat.zero_le _
  | case3 room c rest hgo hrt ih =>
      have hroom : room ≠ 0 := by
        rintro rfl
        exact hgo rfl
      rw [List.length_cons]
      omega
  | case4 room c rest hgo hrt ih => exact ih

/-- Only who can be reached is kept. -/
theorem routable_of_mem_fallbacks {room : Nat} {reported : List Contact} {c : Contact}
    (h : c ∈ v.fallbacks room reported) : c.isRoutable = true := by
  fun_induction View.fallbacks v room reported with
  | case1 => cases h
  | case2 => cases h
  | case3 room d rest hgo hrt ih =>
      rcases List.mem_cons.mp h with rfl | hrest
      · exact hrt
      · exact ih hrest
  | case4 room d rest hgo hrt ih => exact ih h

/-- Fallbacks are kept in the order in which they were reported. -/
theorem fallbacks_sublist (room : Nat) (reported : List Contact) :
    (v.fallbacks room reported).Sublist reported := by
  fun_induction View.fallbacks v room reported with
  | case1 => exact List.Sublist.refl _
  | case2 => exact List.nil_sublist _
  | case3 room c rest hgo hrt ih => exact ih.cons_cons c
  | case4 room c rest hgo hrt ih => exact ih.cons c

-- The node itself and its successor end a list, so neither is kept.
theorem ne_of_mem_fallbacks {room : Nat} {reported : List Contact} {c : Contact}
    (h : c ∈ v.fallbacks room reported) : c ≠ v.me ∧ c ≠ v.successor := by
  fun_induction View.fallbacks v room reported with
  | case1 => cases h
  | case2 => cases h
  | case3 room d rest hgo hrt ih =>
      rcases List.mem_cons.mp h with rfl | hrest
      · simp only [Bool.or_eq_true, decide_eq_true_eq, not_or] at hgo
        exact ⟨hgo.1.2, hgo.2⟩
      · exact ih hrest
  | case4 room d rest hgo hrt ih => exact ih h

end Fallbacks

section Predecessor

variable (v : View) (c : Contact)

@[simp] theorem advance_predecessor : v.advance.predecessor = v.predecessor := rfl

@[simp] theorem setFinger_predecessor (slot : Fin slotCount) :
    (v.setFinger slot c).predecessor = v.predecessor := rfl

@[simp] theorem missed_predecessor (threshold : Nat) :
    (v.missed threshold).predecessor = v.predecessor := by
  simp only [missed]
  split <;> rfl

@[simp] theorem probed_predecessor : (v.probed c).predecessor = v.predecessor := by
  simp only [probed]
  split <;> rfl

@[simp] theorem reported_predecessor (list : List Contact) (ceiling : Nat) :
    (v.reported c list ceiling).predecessor = v.predecessor := by
  unfold reported
  split <;> rfl

/-- A claim is believed, or the view stays as it was. -/
theorem notified_cases :
    (v.notified c).predecessor = some c ∨ v.notified c = v := by
  unfold notified
  split
  · exact Or.inl rfl
  · exact Or.inr rfl

theorem notified_predecessor :
    (v.notified c).predecessor = if v.accepts c then some c else v.predecessor := by
  unfold notified
  split <;> rfl

-- Whoever is known as the predecessor already brings no news.
theorem notified_of_known (h : v.predecessor = some c) : v.notified c = v := by
  refine if_neg fun haccept => ?_
  rw [accepts, h, Bool.and_eq_true, Arc.between_contains_iff] at haccept
  exact Id.ne_of_span_lt haccept.2 rfl

-- A probe has no bearing on whether a claim is believed.
@[simp] theorem probed_accepts (d : Contact) : (v.probed d).accepts c = v.accepts c := by
  rw [accepts, accepts, probed_predecessor, key, key, probed_me]

end Predecessor

section Fingers

variable (v : View) (i j : Fin slotCount) (c : Contact)

@[simp] theorem advance_finger : v.advance.finger i = v.finger i := rfl

@[simp] theorem notified_finger : (v.notified c).finger i = v.finger i := by
  unfold notified
  split <;> rfl

@[simp] theorem probed_finger : (v.probed c).finger i = v.finger i := by
  simp only [probed]
  split <;> rfl

@[simp] theorem reported_finger (list : List Contact) (ceiling : Nat) :
    (v.reported c list ceiling).finger i = v.finger i := by
  unfold reported
  split <;> rfl

theorem forget_finger :
    (v.forget c).finger i = if v.finger i = c then Contact.unset else v.finger i :=
  Vector.getElem_map _ i.isLt

/-- A node starts with no finger set. -/
theorem alone_finger : ((View.alone c).finger i).isSet = false := by
  have hunset : (View.alone c).finger i = Contact.unset := Vector.getElem_replicate i.isLt
  rw [hunset]
  rfl

@[simp] theorem setFinger_cursor : (v.setFinger i c).cursor = v.cursor := rfl

theorem setFinger_same : (v.setFinger i c).finger i = c :=
  Vector.getElem_set_self i.isLt

theorem setFinger_other {i j : Fin slotCount} (h : j ≠ i) :
    (v.setFinger i c).finger j = v.finger j :=
  Vector.getElem_set_ne i.isLt j.isLt fun he => h (Fin.ext he.symm)

theorem setFinger_finger :
    (v.setFinger i c).finger j = if j = i then c else v.finger j := by
  split_ifs with hj
  · rw [hj, setFinger_same]
  · exact setFinger_other v c hj

end Fingers

end View

end RingOverlay
