import Mathlib.Data.Finset.Card
import RingOverlay.Proofs.Failover
import RingOverlay.Proofs.Lookup.Course
import RingOverlay.Proofs.Lookup.Step
import RingOverlay.Proofs.Traffic.Turns

/-!
# What a Lookup Leaves Behind

A lookup asks others, and whatever they say it has no business with the view of the node
that makes it. There is one exception. If the lookup was started from an entry of the
view, and it is there that no answer came, the entry is taken to be dead and cleared from
the fingers; what has gone wrong further on is not held against it. A lookup that is made
for the sake of a finger moves the cursor besides, and writes that finger if it has found
an owner.

Clearing the entry is what keeps a silent finger from being tried for ever. As long as
nobody answers, every lookup of a point that starts from a finger takes that finger away
from those that lie before the point, and nothing adds to them. So there are at most as
many such lookups as there are different fingers before the point, and after that the
lookup starts from the successor, which is not given up here, or is answered at home.
Which finger comes next does not matter for this, and it may well be in a lower or a
higher slot than the one before.

## Main definitions

* `Peers.SettlesFor`: What a lookup comes to that starts from the node's own view.
* `View.sought`: What such a lookup leaves of the view.
* `View.preceding`: The fingers before a point.
* `View.unanswered`: The view after a lookup that nobody has answered.
* `View.Exhausted`: No finger is left to start a lookup from.

## Theorems

* `conduct_seek`: A lookup from the node's own view, by what it comes to.
* `sought_cases`, `sought_spares`: It clears the entry that it started from, or nothing.
* `preceding_forget`: Clearing a contact takes away that one finger.
* `exhausted_or_fewer`: A lookup without an answer uses up a finger.
* `exhausted_or_card_le`: So do several.
* `lookup_spares_view`: All that lookups do to the view of the node that makes them.
-/

namespace RingOverlay

section Seek

variable {p : Peers} {v : View} {id : Id} {purpose : Purpose}

/-- What a lookup comes to that starts from the node's own view: what the view says, if it
    knows the owner, and otherwise what the lookup comes to from the entry that it names. -/
def Peers.SettlesFor (p : Peers) (v : View) (id : Id) (purpose : Purpose) (result : Finding) :
    Prop :=
  match v.lookup id with
  | (c, true) => result = .ok c
  | (c, false) => p.Settles [] ⟨id, c.endpoint, hopLimit - 1, some c, purpose⟩ result

/-- What such a lookup leaves of the view. -/
def View.sought (v : View) (id : Id) (result : Finding) : View :=
  match v.lookup id with
  | (_, true) => v
  | (c, false) => v.cleared (some c) result

theorem settlesFor_unique {result other : Finding} (hs : p.SettlesFor v id purpose result)
    (ho : p.SettlesFor v id purpose other) : result = other := by
  rw [Peers.SettlesFor] at hs ho
  rcases hl : v.lookup id with ⟨c, _ | _⟩ <;> rw [hl] at hs ho
  · exact Peers.settles_unique hs ho
  · exact Eq.trans hs (Eq.symm ho)

/-- A lookup from the node's own view comes to what its course says, and leaves of the view
    what this comes to. -/
theorem conduct_seek (s : Settings) (p : Peers) (v : View) (id : Id) (purpose : Purpose) :
    ∃ result qs, p.SettlesFor v id purpose result ∧
      (seek v id purpose).conduct s p [] =
        ((purpose.conclude (v.sought id result) result).conduct s p qs).after qs := by
  simp only [Peers.SettlesFor, View.sought]
  rcases seek_cases v id purpose with ⟨c, hl, hturn⟩ | ⟨c, hl, hturn⟩ <;> rw [hl, hturn]
  · exact ⟨.ok c, [], rfl, rfl⟩
  · rcases conduct_course p s v (hopLimit - 1) []
      ⟨id, c.endpoint, hopLimit - 1, some c, purpose⟩ rfl with ⟨result, n, h⟩
    exact ⟨result, _, h.settles, h.run⟩

/-- Nothing is cleared but the entry that the lookup started from, and only if it was there
    that no answer came. -/
theorem sought_cases (v : View) (id : Id) (result : Finding) :
    v.sought id result = v ∨ ∃ c, v.lookup id = (c, false) ∧
      result = .error (.timeout c.endpoint .owner) ∧ v.sought id result = v.forget c := by
  unfold View.sought
  rcases v.lookup id with ⟨c, _ | _⟩
  · simp only [View.cleared]
    split
    · split_ifs with hpeer
      · exact Or.inr ⟨c, rfl, by rw [hpeer], rfl⟩
      · exact Or.inl rfl
    · exact Or.inl rfl
  · exact Or.inl rfl

theorem sought_of_timeout {c : Contact} (hl : v.lookup id = (c, false)) :
    v.sought id (.error (.timeout c.endpoint .owner)) = v.forget c := by
  simp only [View.sought, hl, View.cleared, if_true]

/-- So the view is as it was unless no answer came there, and then the fingers that are
    this entry are cleared, and no others. -/
theorem sought_spares (v : View) (id : Id) (result : Finding) :
    (v.sought id result ≠ v →
        ∃ c, v.lookup id = (c, false) ∧ result = .error (.timeout c.endpoint .owner)) ∧
      ∀ c, v.lookup id = (c, false) → result = .error (.timeout c.endpoint .owner) →
        ∀ i, (v.sought id result).finger i =
          if v.finger i = c then Contact.unset else v.finger i := by
  refine ⟨fun hchanged => ?_, fun c hl htimeout i => ?_⟩
  · rcases sought_cases v id result with hsame | ⟨c, hl, htimeout, _⟩
    · exact absurd hsame hchanged
    · exact ⟨c, hl, htimeout⟩
  · rw [htimeout, sought_of_timeout hl, View.forget_finger]

theorem sought_of_ok (v : View) (id : Id) (owner : Contact) : v.sought id (.ok owner) = v := by
  rcases sought_cases v id (.ok owner) with hsame | ⟨c, _, htimeout, _⟩
  · exact hsame
  · cases htimeout

theorem kept_sought (v : View) (id : Id) (result : Finding) :
    v.Kept (v.sought id result) ∧ (v.sought id result).cursor = v.cursor := by
  rcases sought_cases v id result with heq | ⟨c, _, _, heq⟩ <;> rw [heq]
  · exact ⟨View.Kept.refl v, rfl⟩
  · exact ⟨v.kept_forget c, rfl⟩

/-- A lookup that is made for its own sake reports what it has come to. -/
theorem conduct_find (s : Settings) (p : Peers) (v : View) (id : Id) :
    ∃ result qs, p.SettlesFor v id .report result ∧
      ((Task.find id).begin v).conduct s p [] = ⟨v.sought id result, .ofFinding result, qs⟩ := by
  rcases conduct_seek s p v id .report with ⟨result, qs, hsettles, hrun⟩
  refine ⟨result, qs, hsettles, hrun.trans ?_⟩
  rw [conclude_report, conduct_finish, Run.after, List.append_nil]

-- Of the faults that a lookup may end with only a refusal of the socket is fatal, and it
-- is the only one that ends the refreshing of a finger as a failure.
theorem conclude_finger_of_breaks {a : Response} {asked : Endpoint} {f : Fault}
    (h : a.Breaks id asked f) (v : View) (slot : Fin slotCount) :
    (Purpose.finger slot).conclude v (.error f) =
      { view := v, next := .finish (if f.isFatal then .failed f else .done) } := by
  cases h <;> rfl

theorem conclude_finger_of_settles {past : List Question} {h : Hop} {f : Fault}
    (hs : p.Settles past h (.error f)) (v : View) (slot : Fin slotCount) :
    (Purpose.finger slot).conclude v (.error f) =
      { view := v, next := .finish (if f.isFatal then .failed f else .done) } := by
  rcases hs with ⟨k, _, _, hends⟩ | ⟨hlimit, _⟩
  · exact conclude_finger_of_breaks hends v slot
  · cases hlimit
    rfl

theorem conclude_finger_of_settlesFor {f : Fault} (hs : p.SettlesFor v id purpose (.error f))
    (w : View) (slot : Fin slotCount) :
    (Purpose.finger slot).conclude w (.error f) =
      { view := w, next := .finish (if f.isFatal then .failed f else .done) } := by
  rw [Peers.SettlesFor] at hs
  rcases hl : v.lookup id with ⟨c, _ | _⟩ <;> rw [hl] at hs
  · exact conclude_finger_of_settles hs w slot
  · cases hs

/-- A lookup that is made for a finger writes it, if an owner is found. -/
theorem conduct_fixFinger (s : Settings) (p : Peers) (v : View) :
    ∃ result qs, p.SettlesFor v (fingerTarget v.key v.nextFinger) (.finger v.nextFinger) result ∧
      (Task.fixFinger.begin v).conduct s p [] = match result with
        | .ok owner => ⟨v.advance.setFinger v.nextFinger owner, .done, qs⟩
        | .error f =>
          ⟨v.advance.sought (fingerTarget v.key v.nextFinger) (.error f),
            if f.isFatal then .failed f else .done, qs⟩ := by
  rcases conduct_seek s p v.advance (fingerTarget v.key v.nextFinger) (.finger v.nextFinger) with
    ⟨result, qs, hsettles, hrun⟩
  refine ⟨result, qs, hsettles, hrun.trans ?_⟩
  cases result with
  | ok owner =>
      rw [sought_of_ok, Purpose.conclude, Purpose.succeed, conduct_finish, Run.after,
        List.append_nil]
  | error f =>
      rw [conclude_finger_of_settlesFor hsettles, conduct_finish, Run.after, List.append_nil]

end Seek

namespace View

/-- The fingers that lie strictly between the node and a point, each of them once. -/
def preceding (v : View) (id : Id) : Finset Contact :=
  v.fingers.toList.toFinset.filter fun f =>
    f.isSet = true ∧ (Arc.between v.key id).contains f.key = true

/-- The view after a lookup that everything could be sent for and nobody has answered. -/
def unanswered (s : Settings) (id : Id) (v : View) : View :=
  (((Task.find id).begin v).conduct s silence []).view

/-- No lookup of a point starts from a finger any more. -/
def Exhausted (v : View) (id : Id) : Prop := (v.lookup id).2 = true ∨ v.preceding id = ∅

section Unanswered

variable {s : Settings} {v : View} {id : Id} {c : Contact}

theorem mem_preceding {f : Contact} :
    f ∈ v.preceding id ↔ (∃ i : Fin slotCount, v.finger i = f) ∧ v.Precedes id f := by
  rw [preceding, Finset.mem_filter, List.mem_toFinset, Vector.mem_toList_iff, Precedes,
    Arc.between_contains_iff, Vector.mem_iff_getElem]
  refine and_congr_left fun _ => ⟨?_, ?_⟩
  · rintro ⟨i, hi, rfl⟩
    exact ⟨⟨i, hi⟩, rfl⟩
  · rintro ⟨i, rfl⟩
    exact ⟨i, i.isLt, rfl⟩

/-- Of the fingers before a point, clearing a contact takes away that one. -/
theorem preceding_forget (v : View) (id : Id) (c : Contact) :
    (v.forget c).preceding id = (v.preceding id).erase c := by
  ext f
  rw [Finset.mem_erase, mem_preceding, mem_preceding]
  constructor
  · rintro ⟨⟨i, hi⟩, hpre⟩
    rw [forget_finger] at hi
    split_ifs at hi with hc
    · rw [← hi] at hpre
      exact absurd hpre.1 Bool.false_ne_true
    · exact ⟨fun hfc => hc (hi.trans hfc), ⟨i, hi⟩, hpre⟩
  · rintro ⟨hfc, ⟨i, hi⟩, hpre⟩
    refine ⟨⟨i, ?_⟩, hpre⟩
    rw [forget_finger, hi, if_neg hfc]

theorem unanswered_of_known (hl : v.lookup id = (c, true)) : v.unanswered s id = v := by
  simp only [unanswered, Task.begin, seek, hl, Purpose.succeed, conduct_finish]

theorem unanswered_of_asked (hl : v.lookup id = (c, false)) :
    v.unanswered s id = v.forget c := by
  rw [unanswered, Task.begin, seek, hl]
  simp only []
  rw [conduct_ask s silence [] v _ rfl]
  simp only [silence, Question.resume, Hop.resume, judge, Hop.atStart, Option.filter,
    decide_true, if_true, Purpose.fail, conduct_finish, Run.after]

theorem kept_unanswered (s : Settings) (id : Id) (v : View) : v.Kept (v.unanswered s id) := by
  rcases hl : v.lookup id with ⟨c, _ | _⟩
  · rw [unanswered_of_asked hl]
    exact v.kept_forget c
  · rw [unanswered_of_known hl]
    exact Kept.refl v

theorem preceding_unanswered_subset (s : Settings) (id : Id) (v : View) :
    (v.unanswered s id).preceding id ⊆ v.preceding id := by
  rcases hl : v.lookup id with ⟨c, _ | _⟩
  · rw [unanswered_of_asked hl, preceding_forget]
    exact Finset.erase_subset c _
  · rw [unanswered_of_known hl]

/-- A lookup that starts from anybody but the successor starts from a finger before the
    point. -/
theorem mem_preceding_of_lookup (hl : v.lookup id = (c, false)) (hc : c ≠ v.successor) :
    c ∈ v.preceding id := by
  rcases v.lookup_cases id with ⟨_, heq⟩ | ⟨_, ⟨hne, heq⟩ | ⟨_, ⟨_, heq⟩ | ⟨_, heq⟩⟩⟩ <;>
    rw [heq, Prod.mk.injEq] at hl
  · exact absurd hl.2.symm Bool.false_ne_true
  · rcases v.closestPreceding_cases id with ⟨hme, _⟩ | ⟨i, hi, hpre, _⟩
    · exact absurd hme hne
    · rw [← hl.1, hi]
      exact mem_preceding.mpr ⟨⟨i, rfl⟩, hpre⟩
  · exact absurd hl.1.symm hc
  · exact absurd hl.2.symm Bool.false_ne_true

theorem Exhausted.lookup (h : v.Exhausted id) :
    (v.lookup id).2 = true ∨ (v.lookup id).1 = v.successor := by
  rcases h with hknown | hnone
  · exact Or.inl hknown
  · rcases hl : v.lookup id with ⟨c, _ | _⟩
    · refine Or.inr ?_
      by_contra hc
      have hmem := mem_preceding_of_lookup hl hc
      rw [hnone] at hmem
      exact absurd hmem (Finset.notMem_empty c)
    · exact Or.inl rfl

theorem Exhausted.unanswered (h : v.Exhausted id) (s : Settings) :
    (v.unanswered s id).Exhausted id := by
  rcases h with hknown | hnone
  · rcases hl : v.lookup id with ⟨c, _ | _⟩ <;> rw [hl] at hknown
    · cases hknown
    · rw [unanswered_of_known hl]
      exact Or.inl (congrArg Prod.snd hl)
  · refine Or.inr (Finset.subset_empty.mp ?_)
    rw [← hnone]
    exact preceding_unanswered_subset s id v

/-- A lookup without an answer uses up a finger before the point, if there is one to start
    from. -/
theorem exhausted_or_fewer (s : Settings) (id : Id) (v : View) :
    v.Exhausted id ∨ ((v.unanswered s id).preceding id).card < (v.preceding id).card := by
  refine or_iff_not_imp_left.mpr fun hleft => ?_
  rw [Exhausted, not_or] at hleft
  rcases Finset.nonempty_iff_ne_empty.mpr hleft.2 with ⟨f, hf⟩
  rcases mem_preceding.mp hf with ⟨⟨i, rfl⟩, hpre⟩
  have hlt : Id.span v.key v.successor.key < Id.span v.key id := by
    by_contra hle
    rw [lookup_of_le (Nat.le_of_not_lt hle)] at hleft
    exact hleft.1 rfl
  -- Whichever finger the lookup starts from, it is one of those that lie before the point.
  rcases lookup_of_precedes hlt hpre with ⟨j, _, hused, hl⟩
  rw [unanswered_of_asked hl, preceding_forget]
  exact Finset.card_erase_lt_of_mem (mem_preceding.mpr ⟨⟨j, rfl⟩, hused⟩)

theorem exhausted_or_card_le (s : Settings) (id : Id) (v : View) (k : Nat) :
    ((unanswered s id)^[k] v).Exhausted id ∨
      (((unanswered s id)^[k] v).preceding id).card + k ≤ (v.preceding id).card := by
  induction k with
  | zero => exact Or.inr (Nat.le_refl _)
  | succ k ih =>
      rw [Function.iterate_succ_apply']
      rcases ih with hdone | hcard
      · exact Or.inl (hdone.unanswered s)
      · rcases exhausted_or_fewer s id ((View.unanswered s id)^[k] v) with hdone | hfewer
        · exact Or.inl (hdone.unanswered s)
        · exact Or.inr (by omega)

/-- After as many lookups without an answer as there are fingers before the point, none of
    them is left to start from. -/
theorem exhausted_of_card_le {k : Nat} (hk : (v.preceding id).card ≤ k) :
    ((unanswered s id)^[k] v).Exhausted id := by
  rcases exhausted_or_card_le s id v k with hdone | hcard
  · exact hdone
  · exact Or.inr (Finset.card_eq_zero.mp (by omega))

theorem kept_iterate (s : Settings) (id : Id) (v : View) (k : Nat) :
    v.Kept ((unanswered s id)^[k] v) :=
  Function.Iterate.rec (fun w => v.Kept w) (Kept.refl v)
    (fun w hw => hw.trans (kept_unanswered s id w)) k

-- Fingers are cleared and never come back.
theorem preceding_iterate_subset (s : Settings) (id : Id) (v : View) (k : Nat) :
    ((unanswered s id)^[k] v).preceding id ⊆ v.preceding id :=
  Function.Iterate.rec (fun w => View.preceding w id ⊆ v.preceding id) (Finset.Subset.refl _)
    (fun w hw => (preceding_unanswered_subset s id w).trans hw) k

/-- A finger that a lookup has started from in vain is no finger before the point any
    more, however many lookups follow. -/
theorem notMem_preceding_iterate (hl : v.lookup id = (c, false)) (k : Nat) :
    c ∉ ((unanswered s id)^[k + 1] v).preceding id := by
  intro hmem
  rw [Function.iterate_succ_apply, unanswered_of_asked hl] at hmem
  have hleft := preceding_iterate_subset s id (v.forget c) k hmem
  rw [preceding_forget] at hleft
  exact Finset.notMem_erase c _ hleft

end Unanswered

end View

/-- All that lookups do to the view of the node that makes them.

    A lookup leaves everything but the fingers alone, and these too unless it ends for want
    of an answer at the endpoint of the entry that it started from: then the fingers that
    are this entry are cleared, and no others.

    While nobody answers, a lookup of the same point starts from the successor, or is
    answered at home, as soon as there have been as many as there were different fingers
    before the point; and nobody but the successor is asked first in two of them.

    Refreshing a finger moves the cursor besides, and if the lookup finds an owner, writes
    that finger. -/
theorem lookup_spares_view (s : Settings) (v : View) (id : Id) :
    (∀ p : Peers,
      let r := ((Task.find id).begin v).conduct s p []
      v.Kept r.view ∧ r.view.cursor = v.cursor ∧
        (r.view ≠ v → ∃ c, v.lookup id = (c, false) ∧
          r.outcome = .failed (.timeout c.endpoint .owner)) ∧
        ∀ c, v.lookup id = (c, false) → r.outcome = .failed (.timeout c.endpoint .owner) →
          ∀ i, r.view.finger i = if v.finger i = c then Contact.unset else v.finger i) ∧
    (let w (k : Nat) : View := (View.unanswered s id)^[k] v
     (∀ k, (w k).successor = v.successor) ∧
       (∀ k ≥ (v.preceding id).card,
         ((w k).lookup id).2 = true ∨ ((w k).lookup id).1 = v.successor) ∧
       ∀ j k c, j < k → (w j).lookup id = (c, false) → c ≠ v.successor →
         (w k).lookup id ≠ (c, false)) ∧
    ∀ p : Peers,
      let r := (Task.fixFinger.begin v).conduct s p []
      let slot := v.nextFinger
      let target := fingerTarget v.key slot
      v.Kept r.view ∧ r.view.cursor = nextSlot v.cursor ∧
        ∃ result, (∀ other, p.SettlesFor v target (.finger slot) other ↔ other = result) ∧
          (∀ owner, result = .ok owner → r.outcome = .done ∧
            ∀ i, r.view.finger i = if i = slot then owner else v.finger i) ∧
          ∀ f, result = .error f → r.outcome = (if f.isFatal then .failed f else .done) ∧
            (r.view ≠ v.advance →
              ∃ c, v.lookup target = (c, false) ∧ f = .timeout c.endpoint .owner) ∧
            ∀ c, v.lookup target = (c, false) → f = .timeout c.endpoint .owner →
              ∀ i, r.view.finger i = if v.finger i = c then Contact.unset else v.finger i := by
  refine ⟨fun p => ?_, ⟨fun k => ?_, fun k hk => ?_, fun j k c hjk hl hc hagain => ?_⟩,
    fun p => ?_⟩
  · intro r
    rcases conduct_find s p v id with ⟨result, qs, _, hrun⟩
    have hr : r = ⟨v.sought id result, .ofFinding result, qs⟩ := hrun
    rcases kept_sought v id result with ⟨hkept, hcursor⟩
    rcases sought_spares v id result with ⟨hsame, hcleared⟩
    rw [hr]
    refine ⟨hkept, hcursor, fun hchanged => ?_,
      fun c hl htimeout => hcleared c hl (Outcome.ofFinding_inj htimeout)⟩
    rcases hsame hchanged with ⟨c, hl, rfl⟩
    exact ⟨c, hl, rfl⟩
  · exact (View.kept_iterate s id v k).successor
  · rw [← (View.kept_iterate s id v k).successor]
    exact (View.exhausted_of_card_le hk).lookup
  · rcases Nat.exists_eq_add_of_lt hjk with ⟨d, rfl⟩
    have hgone := View.notMem_preceding_iterate (s := s) hl d
    rw [← Function.iterate_add_apply, show d + 1 + j = j + d + 1 by omega] at hgone
    refine hgone (View.mem_preceding_of_lookup hagain ?_)
    rwa [(View.kept_iterate s id v (j + d + 1)).successor]
  · intro r slot target
    rcases conduct_fixFinger s p v with ⟨result, qs, hsettles, hrun⟩
    have hall (other : Finding) :
        p.SettlesFor v target (.finger slot) other ↔ other = result :=
      ⟨fun ho => settlesFor_unique ho hsettles, fun ho => ho ▸ hsettles⟩
    cases result with
    | ok owner =>
        have hr : r = ⟨v.advance.setFinger slot owner, .done, qs⟩ := hrun
        rw [hr]
        refine ⟨v.kept_advance.trans (v.advance.kept_setFinger slot owner), rfl, .ok owner, hall,
          fun found hfound => ?_, fun f hf => by cases hf⟩
        cases hfound
        exact ⟨rfl, fun i => v.advance.setFinger_finger slot i owner⟩
    | error f =>
        have hr : r = ⟨v.advance.sought target (.error f),
          if f.isFatal then .failed f else .done, qs⟩ := hrun
        rw [hr]
        rcases kept_sought v.advance target (.error f) with ⟨hkept, hcursor⟩
        rcases sought_spares v.advance target (.error f) with ⟨hsame, hcleared⟩
        refine ⟨v.kept_advance.trans hkept, hcursor, .error f, hall, fun owner ho => (by cases ho),
          fun g hg => ?_⟩
        cases hg
        refine ⟨rfl, fun hchanged => ?_, fun c hl htimeout => hcleared c hl (congrArg _ htimeout)⟩
        rcases hsame hchanged with ⟨c, hl, htimeout⟩
        exact ⟨c, hl, Except.error.inj htimeout⟩

end RingOverlay
