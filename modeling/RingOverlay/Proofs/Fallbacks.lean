import Mathlib.Data.List.TakeWhile
import RingOverlay.Proofs.Overlay

/-!
# What Is Kept of a Reported List

A node rebuilds its list of successors from the list that its successor reports. It goes
through that list once, and three things may happen to an entry: it ends the list, it is
passed over, or it is kept, as long as there is room. `View.fallbacks` does all three at
every entry, and whether there is room depends on how many have been kept so far, not on
how many have been looked at.

Put apart, these are three operations on the list as a whole. The list is cut off in front
of the first entry that is the node itself or its successor; of what is left those who
cannot be reached are dropped; and of these the first so many are kept. The order matters
in one place: somebody who cannot be reached takes up no room, and the node itself ends the
list even where there is no room left or it could not be kept. That the loop comes to the
same thing is an induction on the list with any room, since each entry that is kept leaves
less of it to the rest.

Everything else is read off the three operations. What stands behind the cut is never
looked at, and the list that was there before does not come into it, so rebuilding the list
once more from the same report changes nothing.

## Main definitions

* `View.lead`: A list up to the first entry that ends it.
* `View.Leads`: The longest beginning of a list that names neither the node nor its
  successor.
* `View.Rebuilt`: A view whose list has been rebuilt from a reported one.

## Theorems

* `leads_lead`, `Leads.eq_lead`: The two are the same.
* `lead_of_stop`: Nothing behind an entry that ends a list belongs to its beginning.
* `fallbacks_eq`: The loop, put apart.
* `rebuilt_iff`: Rebuilding the list comes to what is said of it.
* `refresh_refresh`: Rebuilding takes no notice of the list that was there.
* `refreshed_of_report`: What is kept of a reported list, and what has no bearing on it.
-/

namespace RingOverlay

namespace View

/-- Whether an entry of a reported list ends it. -/
def stops (v : View) (c : Contact) : Bool := c = v.me || c = v.successor

/-- A reported list up to the first entry that ends it. -/
def lead (v : View) (reported : List Contact) : List Contact :=
  reported.takeWhile fun c => !v.stops c

/-- The longest beginning of a list that names neither the node nor its successor. -/
structure Leads (v : View) (reported front : List Contact) : Prop where
  begins : front <+: reported
  me_notMem : v.me ∉ front
  successor_notMem : v.successor ∉ front
  longest : ∀ other, other <+: reported → v.me ∉ other → v.successor ∉ other → other <+: front

/-- A view whose list has been rebuilt from a reported one: the successor, and behind it, as
    long as there is room, those who can be reached out of the longest beginning of the
    reported list that names neither the node nor the successor, in order. -/
def Rebuilt (v : View) (reported : List Contact) (ceiling : Nat) (w : View) : Prop :=
  ∃ front, v.Leads reported front ∧
    w = { v with
      successors := v.successor :: (front.filter Contact.isRoutable).take (ceiling - 1) }

section Lead

variable {v : View} {c : Contact} {rest : List Contact}

theorem stops_iff : v.stops c = true ↔ c = v.me ∨ c = v.successor := by
  rw [stops, Bool.or_eq_true, decide_eq_true_iff, decide_eq_true_iff]

theorem lead_cons_of_stops (h : v.stops c = true) (rest : List Contact) :
    v.lead (c :: rest) = [] := by
  rw [lead, List.takeWhile_cons, h]
  rfl

theorem lead_cons_of_goes (h : v.stops c = false) (rest : List Contact) :
    v.lead (c :: rest) = c :: v.lead rest := by
  rw [lead, List.takeWhile_cons, h]
  rfl

theorem stops_of_mem_lead {reported : List Contact} (h : c ∈ v.lead reported) :
    v.stops c = false := by
  simpa using List.mem_takeWhile_imp h

-- Whatever names nobody who ends the list is let through as a whole.
theorem lead_eq_self {front : List Contact} (hme : v.me ∉ front)
    (hsuccessor : v.successor ∉ front) : v.lead front = front := by
  refine List.takeWhile_eq_self_iff.mpr fun c hc => ?_
  rw [Bool.not_eq_true', Bool.eq_false_iff, ne_eq, stops_iff]
  rintro (rfl | rfl)
  · exact hme hc
  · exact hsuccessor hc

theorem leads_lead (v : View) (reported : List Contact) : v.Leads reported (v.lead reported) where
  begins := List.takeWhile_prefix _
  me_notMem := fun h => by
    have hgoes := stops_of_mem_lead h
    rw [stops_iff.mpr (Or.inl rfl)] at hgoes
    cases hgoes
  successor_notMem := fun h => by
    have hgoes := stops_of_mem_lead h
    rw [stops_iff.mpr (Or.inr rfl)] at hgoes
    cases hgoes
  longest := by
    rintro other ⟨rest, rfl⟩ hme hsuccessor
    have hself := lead_eq_self hme hsuccessor
    rw [lead, List.takeWhile_append_of_pos (List.takeWhile_eq_self_iff.mp hself)]
    exact List.prefix_append other _

theorem Leads.eq_lead {reported front : List Contact} (h : v.Leads reported front) :
    front = v.lead reported := by
  have hlead := v.leads_lead reported
  have hto := hlead.longest front h.begins h.me_notMem h.successor_notMem
  have hfrom := h.longest _ hlead.begins hlead.me_notMem hlead.successor_notMem
  exact hto.eq_of_length (Nat.le_antisymm hto.length_le hfrom.length_le)

/-- Nothing behind an entry that ends a list belongs to its beginning. -/
theorem lead_of_stop (h : v.stops c = true) (past rest : List Contact) :
    v.lead (past ++ c :: rest) = v.lead past := by
  induction past with
  | nil => exact lead_cons_of_stops h rest
  | cons d past ih =>
      rw [List.cons_append]
      rcases Bool.eq_false_or_eq_true (v.stops d) with hstop | hgo
      · rw [lead_cons_of_stops hstop, lead_cons_of_stops hstop]
      · rw [lead_cons_of_goes hgo, lead_cons_of_goes hgo, ih]

end Lead

/-- The entries that are kept are the first of those in the beginning of the list who can
    be reached. -/
theorem fallbacks_eq (v : View) (room : Nat) (reported : List Contact) :
    v.fallbacks room reported = ((v.lead reported).filter Contact.isRoutable).take room := by
  fun_induction View.fallbacks v room reported with
  | case1 room => exact List.take_nil.symm
  | case2 room c rest hstop =>
      -- There is no room, or the entry ends the list.
      rw [Bool.or_assoc, Bool.or_eq_true, decide_eq_true_iff] at hstop
      rcases hstop with rfl | hstop
      · rw [List.take_zero]
      · rw [lead_cons_of_stops hstop, List.filter_nil, List.take_nil]
  | case3 room c rest hgo hroute ih =>
      rw [Bool.or_assoc, Bool.or_eq_true, decide_eq_true_iff, not_or] at hgo
      rw [lead_cons_of_goes (Bool.eq_false_iff.mpr hgo.2), List.filter_cons_of_pos hroute, ih,
        ← List.take_succ_cons, Nat.sub_one_add_one hgo.1]
  | case4 room c rest hgo hroute ih =>
      rw [Bool.or_assoc, Bool.or_eq_true, not_or] at hgo
      rw [lead_cons_of_goes (Bool.eq_false_iff.mpr hgo.2), List.filter_cons_of_neg hroute, ih]

/-- Rebuilding the list comes to what is said of it. -/
theorem rebuilt_iff {v w : View} {reported : List Contact} {ceiling : Nat} :
    v.Rebuilt reported ceiling w ↔ w = v.refresh reported ceiling := by
  rw [refresh, fallbacks_eq]
  constructor
  · rintro ⟨front, hfront, hw⟩
    rwa [hfront.eq_lead] at hw
  · intro hw
    exact ⟨v.lead reported, v.leads_lead reported, hw⟩

/-- Rebuilding the list takes no notice of the list that was there. -/
theorem refresh_refresh (v : View) (reported later : List Contact) (ceiling : Nat) :
    (v.refresh reported ceiling).refresh later ceiling = v.refresh later ceiling := by
  simp only [refresh, fallbacks_eq]
  rfl

/-- What is kept of a reported list. The node keeps its successor and, as long as there is
    room, those who can be reached out of the longest beginning of the list that names
    neither the node nor the successor, in order; nothing but the list of successors is
    touched, and that has at least one entry and no more than there is room for. Whatever
    stands behind somebody who ends the list makes no difference, nor is there any in
    rebuilding the list again from the same report. -/
theorem refreshed_of_report (v : View) (reported : List Contact) {ceiling : Nat}
    (h : 1 ≤ ceiling) :
    (∃ front, v.Leads reported front ∧
      v.refresh reported ceiling = { v with
        successors := v.successor :: (front.filter Contact.isRoutable).take (ceiling - 1) }) ∧
    1 ≤ (v.refresh reported ceiling).successors.length ∧
    (v.refresh reported ceiling).successors.length ≤ ceiling ∧
    (∀ past c rest, reported = past ++ c :: rest → c = v.me ∨ c = v.successor →
      ∀ other, v.refresh (past ++ c :: other) ceiling = v.refresh reported ceiling) ∧
    (v.refresh reported ceiling).refresh reported ceiling = v.refresh reported ceiling := by
  refine ⟨rebuilt_iff.mpr rfl, ?_, ?_, fun past c rest hr hstop other => ?_,
    v.refresh_refresh reported reported ceiling⟩
  · exact Nat.le_add_left 1 _
  · have hroom := v.length_fallbacks_le (ceiling - 1) reported
    simp only [refresh, List.length_cons]
    omega
  · have hstops := stops_iff.mpr hstop
    rw [hr, refresh, refresh, fallbacks_eq, fallbacks_eq, lead_of_stop hstops, lead_of_stop hstops]

/-- `early` follows `middle` and has room for one more. An entry that names nobody takes up
    none of it, so `late` is kept, and what comes after `early` itself may be anything. -/
theorem early_keeps_late :
    let v := View.joined .early .middle
    1 ≤ 2 ∧ (v.refresh [.unset, .late, .early, .middle] 2).successors = [.middle, .late] ∧
      (v.refresh [.unset, .late, .early, .middle] 2).successors.length ≤ 2 ∧
      v.refresh ([.unset, .late] ++ .early :: [.late]) 2 =
        v.refresh [.unset, .late, .early, .middle] 2 := by
  intro v
  rcases refreshed_of_report v [.unset, .late, .early, .middle] (show 1 ≤ 2 by decide) with
    ⟨_, _, hlength, hbehind, _⟩
  exact ⟨by decide, by decide, hlength,
    hbehind [.unset, .late] .early [.middle] rfl (Or.inl rfl) [.late]⟩

end View

end RingOverlay
