import RingOverlay.Proofs.Growth.Nodes
import RingOverlay.Proofs.Lookup.Aftermath
import RingOverlay.Proofs.Node.History

/-!
# The Furthest Finger Before a Point

A lookup that knows nothing better goes on with a finger that lies before the point, and the
further ahead that finger is, the fewer are left to ask. The scan over the table looks for
something else: it takes the finger in the highest slot that fits. The two are the same if
the fingers lie the further ahead the higher their slots are, and this module says when that
is so.

`View.Ascending` is not quite that. A finger may stand behind one in a lower slot as long as
somebody as far ahead as the one in the lower slot is met before it, in a slot that is higher
than both. With this exception the condition is exact: where it is violated there is a point
right behind the finger that is passed over, and there the scan goes wrong.

Whether the condition holds depends on how the table came to be. Its entries are written one
at a time, so a table is made of what was true at different times. If the members of the
ring were the same at all those times then every finger that is set owns the point that its
slot looks for, and from that the order follows: between that point and its owner there is
no member, and so no other finger. Clearing fingers does no harm. But if somebody joins
between two refreshes, the one in the higher slot may find the newcomer, and the one in the
lower slot is the next behind it.

## Main definitions

* `View.Chooses`, `View.Highest`, `View.Furthest`: The finger in the highest slot before a
  point, and the one that is furthest ahead.
* `View.Ascending`: The fingers are in order, as far as that matters.
* `View.Settled`: Every finger owns the point that its slot looks for, or is nobody.
* `View.Care`, `View.tended`: What is done to the fingers, and what comes of it.

## Theorems

* `highest_closestPreceding`: The scan takes the finger in the highest slot.
* `furthest_iff_ascending`: When this is the furthest one, whatever the point.
* `ascending_of_settled`: Fingers that own their points are in order.
* `settled_tended`: They own their points if all that was written did.
* `conduct_fixFinger_tended`: What refreshing a finger does to the table.
* `closestPreceding_of_tended`: What the scan finds in a table, however it came to be.
-/

namespace RingOverlay

-- A point is left behind by a walk that goes one place further.
theorem Id.span_add_one (a b : Id) : span a (b + 1) = gap a b + 1 := by
  have ha := toNat_lt_circleSize a
  have hb := toNat_lt_circleSize b
  have hone : (1 : UInt64).toNat = 1 := rfl
  have hsize : circleSize = 18446744073709551616 := rfl
  rw [span_eq, gap_eq, UInt64.toNat_add, hone]
  split_ifs <;> omega

namespace View

section Choice

variable (v : View)

/-- How far ahead the finger in a slot is. -/
def reach (i : Fin slotCount) : Nat := Id.gap v.key (v.finger i).key

/-- A contact is chosen from the fingers before a point: the node itself if there are none,
    and otherwise one that all of them yield to. -/
def Chooses (yields : Fin slotCount → Fin slotCount → Prop) (id : Id) (c : Contact) : Prop :=
  (c = v.me ∧ ∀ i, ¬ v.Precedes id (v.finger i)) ∨
    ∃ i, c = v.finger i ∧ v.Precedes id c ∧ ∀ j, v.Precedes id (v.finger j) → yields j i

/-- The finger in the highest slot before a point, or the node itself. -/
def Highest : Id → Contact → Prop := v.Chooses (· ≤ ·)

/-- The furthest finger before a point, or the node itself. -/
def Furthest : Id → Contact → Prop := v.Chooses fun j i => v.reach j ≤ v.reach i

/-- A finger that comes before some point: it is set, and not where the node is. -/
def Usable (i : Fin slotCount) : Prop := (v.finger i).isSet = true ∧ 0 < v.reach i

/-- No finger is nearer than one in a lower slot, unless somebody as far ahead as that one
    stands in a slot that is higher still. -/
def Ascending : Prop :=
  ∀ i j, i < j → v.Usable i → v.Usable j → v.reach j < v.reach i →
    ∃ k, j < k ∧ v.Usable k ∧ v.reach k = v.reach i

/-- Every finger owns the point that its slot looks for, or is nobody. -/
def Settled (R : Roster) : Prop :=
  ∀ i, (v.finger i).isSet = true → R.Owns (v.finger i) (fingerTarget v.key i)

end Choice

section Order

variable {v : View} {id : Id}

theorem precedes_finger_iff {i : Fin slotCount} :
    v.Precedes id (v.finger i) ↔ v.Usable i ∧ v.reach i < Id.span v.key id := by
  constructor
  · rintro ⟨hset, hlt⟩
    have hne : v.key ≠ (v.finger i).key := (Id.ne_of_span_lt hlt).symm
    have hpos := Id.span_pos v.key (v.finger i).key
    rw [Id.span_eq_gap hne] at hlt hpos
    exact ⟨⟨hset, hpos⟩, hlt⟩
  · rintro ⟨⟨hset, hpos⟩, hlt⟩
    exact ⟨hset, by rwa [Id.span_eq_gap (Id.ne_of_gap_pos hpos)]⟩

/-- The scan takes the finger in the highest slot. -/
theorem highest_closestPreceding (v : View) (id : Id) :
    v.Highest id (v.closestPreceding id) := by
  rcases v.closestPreceding_cases id with ⟨hme, hnone⟩ | ⟨i, hi, hpre, habove⟩
  · exact Or.inl ⟨hme, hnone⟩
  · refine Or.inr ⟨i, hi, hi ▸ hpre, fun j hj => ?_⟩
    by_contra hij
    exact habove j (Fin.not_le.mp hij) hj

theorem isSet_of_highest {c : Contact} (h : v.Highest id c) (hme : v.me.isSet = true) :
    c.isSet = true := by
  rcases h with ⟨rfl, _⟩ | ⟨_, _, hpre, _⟩
  · exact hme
  · exact hpre.1

-- If the fingers are in order then no finger before the point is further ahead than the
-- one in the highest slot: somebody as far ahead would stand in a slot above it.
theorem furthest_of_ascending (hv : v.Ascending) {c : Contact} (h : v.Highest id c) :
    v.Furthest id c := by
  rcases h with hnone | ⟨i, hi, hpre, hhigh⟩
  · exact Or.inl hnone
  · refine Or.inr ⟨i, hi, hpre, fun j hj => ?_⟩
    by_contra hfar
    have hlt : v.reach i < v.reach j := Nat.lt_of_not_le hfar
    have hji : j < i := lt_of_le_of_ne (hhigh j hj) fun heq => by
      rw [heq] at hlt
      exact Nat.lt_irrefl _ hlt
    rw [hi, precedes_finger_iff] at hpre
    rw [precedes_finger_iff] at hj
    rcases hv j i hji hj.1 hpre.1 hlt with ⟨k, hik, hk, hreach⟩
    exact Fin.not_le.mpr hik (hhigh k (precedes_finger_iff.mpr ⟨hk, hreach ▸ hj.2⟩))

-- If they are not, the scan goes wrong for the point right behind a finger that is out of
-- order.
theorem ascending_of_furthest (h : ∀ id, v.Furthest id (v.closestPreceding id)) :
    v.Ascending := by
  intro i j hij hi hj hlt
  have hspan : Id.span v.key ((v.finger i).key + 1) = v.reach i + 1 := Id.span_add_one _ _
  have hprei : v.Precedes ((v.finger i).key + 1) (v.finger i) :=
    precedes_finger_iff.mpr ⟨hi, by omega⟩
  have hprej : v.Precedes ((v.finger i).key + 1) (v.finger j) :=
    precedes_finger_iff.mpr ⟨hj, by omega⟩
  rcases v.highest_closestPreceding ((v.finger i).key + 1) with
    ⟨_, hnone⟩ | ⟨k, hk, hpre, hhigh⟩
  · exact absurd hprei (hnone i)
  rcases h ((v.finger i).key + 1) with ⟨_, hnone⟩ | ⟨m, hm, _, hfar⟩
  · exact absurd hprei (hnone i)
  have hsame : v.reach m = v.reach k := by rw [reach, reach, ← hm, ← hk]
  rw [hk, precedes_finger_iff] at hpre
  have hle := hfar i hprei
  have hreach : v.reach k = v.reach i := by omega
  refine ⟨k, lt_of_le_of_ne (hhigh j hprej) fun heq => ?_, hpre.1, hreach⟩
  rw [heq] at hlt
  omega

-- Nobody who is nearer than some finger before the point is the furthest.
theorem not_furthest {i : Fin slotCount} {c : Contact} (hi : v.Precedes id (v.finger i))
    (hlt : Id.gap v.key c.key < v.reach i) : ¬ v.Furthest id c := by
  rintro (⟨_, hnone⟩ | ⟨j, rfl, _, hfar⟩)
  · exact hnone i hi
  · exact absurd hlt (Nat.not_lt_of_le (hfar i hi))

/-- The scan finds the furthest finger before every point just if the fingers are in
    order. -/
theorem furthest_iff_ascending (v : View) :
    (∀ id, v.Furthest id (v.closestPreceding id)) ↔ v.Ascending :=
  ⟨ascending_of_furthest, fun hv id => furthest_of_ascending hv (v.highest_closestPreceding id)⟩

end Order

section Settled

variable {R : Roster} {v : View}

-- The owner of the point that a slot looks for is not met before that point, unless it is
-- the node itself.
theorem le_reach (hme : v.me ∈ R.members) (hv : v.Settled R) {i : Fin slotCount}
    (hi : v.Usable i) : 2 ^ i.val ≤ v.reach i := by
  rw [← Id.gap_fingerTarget v.key i.isLt]
  exact Id.gap_le_gap_of_le (Id.ne_of_gap_pos hi.2).symm ((hv i hi.1).2 v.me hme)

/-- Fingers that own the points of their slots are in order: the finger in a higher slot
    is a member at or behind the point of the lower slot, and so not before its owner. -/
theorem ascending_of_settled (hme : v.me ∈ R.members) (hv : v.Settled R) : v.Ascending := by
  intro i j hij hi hj hlt
  have htarget := Id.gap_fingerTarget v.key i.isLt
  have hpow : 2 ^ i.val ≤ 2 ^ j.val := Nat.pow_le_pow_right (by decide) (Nat.le_of_lt hij)
  have hjfar := Nat.le_trans hpow (le_reach hme hv hj)
  have hifar := le_reach hme hv hi
  have hcuti := Id.gap_add_gap (a := v.key) (b := fingerTarget v.key i) (c := (v.finger i).key)
    (by rw [htarget]; exact hifar)
  have hcutj := Id.gap_add_gap (a := v.key) (b := fingerTarget v.key i) (c := (v.finger j).key)
    (by rw [htarget]; exact hjfar)
  have hnear := (hv i hi.1).2 (v.finger j) (hv j hj.1).1
  have hreach : v.reach i ≤ v.reach j := by
    rw [reach, reach, ← hcuti, ← hcutj]
    omega
  omega

end Settled

/-- What is done to the fingers of a view: the parts of a refresh, between which others may
    come, and what is done when somebody does not answer. -/
inductive Care where
  | advance
  | write (slot : Fin slotCount) (owner : Contact)
  | forget (c : Contact)
deriving DecidableEq

/-- What comes of it. -/
def tend (v : View) : Care → View
  | .advance => v.advance
  | .write slot owner => v.setFinger slot owner
  | .forget c => v.forget c

/-- What comes of any amount of it. -/
def tended (v : View) (cares : List Care) : View := cares.foldl tend v

section Tended

variable {R : Roster}

@[simp] theorem tend_me (v : View) (care : Care) : (v.tend care).me = v.me := by
  cases care <;> rfl

@[simp] theorem tended_me (v : View) (cares : List Care) : (v.tended cares).me = v.me := by
  induction cares generalizing v with
  | nil => rfl
  | cons care cares ih => exact (ih (v.tend care)).trans (v.tend_me care)

theorem settled_tend {v : View} (hv : v.Settled R) {care : Care}
    (hwrite : ∀ slot c, care = .write slot c → R.Owns c (fingerTarget v.key slot)) :
    (v.tend care).Settled R := by
  intro i hset
  rw [key, tend_me, ← key]
  cases care with
  | advance => exact hv i hset
  | write slot c =>
      simp only [tend, setFinger_finger] at hset ⊢
      split_ifs at hset ⊢ with hslot
      · exact hslot ▸ hwrite slot c rfl
      · exact hv i hset
  | forget c =>
      simp only [tend, forget_finger] at hset ⊢
      split_ifs at hset ⊢ with hgone
      · exact absurd hset Bool.false_ne_true
      · exact hv i hset

/-- If every finger owned its point, or was nobody, and all that was written owned its
    point, then they still do. -/
theorem settled_tended {v : View} (hv : v.Settled R) {cares : List Care}
    (hwrite : ∀ (slot : Fin slotCount) c, .write slot c ∈ cares →
      R.Owns c (fingerTarget v.key slot)) :
    (v.tended cares).Settled R := by
  induction cares generalizing v with
  | nil => exact hv
  | cons care cares ih =>
      have hnow : (v.tend care).Settled R := settled_tend hv fun slot c heq =>
        hwrite slot c (heq ▸ List.mem_cons_self)
      refine ih hnow fun slot c hmem => ?_
      rw [key, tend_me]
      exact hwrite slot c (List.mem_cons_of_mem care hmem)

/-- What refreshing a finger does to the table, whatever the others say: the cursor is
    moved, and then the finger whose turn it was is written with the owner that the lookup
    has found, or some contact is cleared, or nothing is done. -/
theorem conduct_fixFinger_tended (s : Settings) (p : Peers) (v : View) :
    ∃ cares, ((Task.fixFinger.begin v).conduct s p []).view = v.tended cares ∧
      ∀ slot c, .write slot c ∈ cares → slot = v.nextFinger ∧
        p.SettlesFor v (fingerTarget v.key slot) (.finger slot) (.ok c) := by
  rcases conduct_fixFinger s p v with ⟨result, qs, hsettles, hrun⟩
  rw [hrun]
  cases result with
  | ok owner =>
      refine ⟨[.advance, .write v.nextFinger owner], rfl, fun slot c hmem => ?_⟩
      have heq : (Care.write slot c) = .write v.nextFinger owner := by simpa using hmem
      cases heq
      exact ⟨rfl, hsettles⟩
  | error f =>
      rcases sought_cases v.advance (fingerTarget v.key v.nextFinger) (.error f) with
        hsame | ⟨c, _, _, hcleared⟩
      · exact ⟨[.advance], hsame, fun slot c hmem => by simp at hmem⟩
      · exact ⟨[.advance, .forget c], hcleared, fun slot d hmem => by simp at hmem⟩

end Tended

/-- What the scan finds in a table that has been refreshed and cleared in any way. Whatever
    was found by the lookups and whenever, it is the finger in the highest slot of those
    before the point, or the node itself if there are none, and never nobody. That it is the
    furthest of them, for every point, is the same as that the fingers are in order. They
    are if the members of the ring were the same all the time: if the node is one of
    them, and whoever was written owned the point of the slot. -/
theorem closestPreceding_of_tended (v : View) (cares : List Care) :
    let w := v.tended cares
    (∀ s p, ∃ more, ((Task.fixFinger.begin w).conduct s p []).view = w.tended more ∧
      ∀ slot c, .write slot c ∈ more → slot = w.nextFinger ∧
        p.SettlesFor w (fingerTarget w.key slot) (.finger slot) (.ok c)) ∧
    (∀ id, w.Highest id (w.closestPreceding id)) ∧
    (v.me.isSet = true → ∀ id, (w.closestPreceding id).isSet = true) ∧
    ((∀ id, w.Furthest id (w.closestPreceding id)) ↔ w.Ascending) ∧
    ∀ R : Roster, v.me ∈ R.members → v.Settled R →
      (∀ (slot : Fin slotCount) c, .write slot c ∈ cares → R.Owns c (fingerTarget v.key slot)) →
        ∀ id, w.Furthest id (w.closestPreceding id) := by
  intro w
  refine ⟨fun s p => conduct_fixFinger_tended s p w, w.highest_closestPreceding,
    fun hme id => ?_, w.furthest_iff_ascending, fun R hmem hv hwrite => ?_⟩
  · refine isSet_of_highest (w.highest_closestPreceding id) ?_
    rw [show w.me = v.me from v.tended_me cares]
    exact hme
  · refine w.furthest_iff_ascending.mpr (ascending_of_settled ?_ (settled_tended hv hwrite))
    rw [show w.me = v.me from v.tended_me cares]
    exact hmem

/-- `early` has refreshed its first finger and its last one while its ring was the same. -/
theorem early_reaches_late :
    let v := View.joined .early .middle
    let cares : List Care :=
      [.advance, .write ⟨0, by decide⟩ .middle, .advance, .write ⟨63, by decide⟩ .late]
    let R := (Overlay.trio fun _ _ => .unset).toRoster
    (v.me ∈ R.members ∧ v.Settled R ∧
      ∀ (slot : Fin slotCount) c, .write slot c ∈ cares → R.Owns c (fingerTarget v.key slot)) ∧
      (v.tended cares).closestPreceding 0 = .late ∧
        (v.tended cares).Furthest 0 ((v.tended cares).closestPreceding 0) := by
  intro v cares R
  have hv : v.Settled R := fun i hset => by
    rw [show v.finger i = (View.alone .early).finger i from rfl, alone_finger] at hset
    cases hset
  have hwrite : ∀ (slot : Fin slotCount) c, .write slot c ∈ cares →
      R.Owns c (fingerTarget v.key slot) := by
    intro slot c hmem
    have hcases : (slot = ⟨0, by decide⟩ ∧ c = .middle) ∨
        (slot = ⟨63, by decide⟩ ∧ c = .late) := by
      simpa [cares] using hmem
    rcases hcases with ⟨rfl, rfl⟩ | ⟨rfl, rfl⟩ <;> decide +kernel
  have hme : v.me ∈ R.members := by decide
  rcases closestPreceding_of_tended v cares with ⟨_, _, _, _, hfurthest⟩
  exact ⟨⟨hme, hv, hwrite⟩, by decide +kernel, hfurthest R hme hv hwrite 0⟩

end View

namespace Node

/-- What `early` goes through: it enters through `late` and writes its first finger. Then
    `late` names `middle` as its predecessor, which has joined in the meantime, and `early`
    writes its second finger. -/
def newcomerBetween : List Event :=
  [ .begin openSocket 0 .starter (.enter [Contact.late.endpoint] false),
    .receive openSocket Contact.late.endpoint (Wire.pack (.new 0 (.owner .late true))),
    .poll openSocket 0 .starter,
    .begin openSocket 0 (.holder 0) .fixFinger,
    .begin openSocket 0 (.holder 1) .stabilize,
    .receive openSocket Contact.late.endpoint (Wire.pack (.new 1 (.predecessor .middle))),
    .poll openSocket 0 (.holder 1),
    .begin openSocket 0 (.holder 2) .fixFinger ]

/-- Both are before the point zero and `late` is further ahead, but `middle` stands in the
    higher slot. -/
theorem late_is_passed_over :
    let v := ((bound {} .early 0).live newcomerBetween).1.view
    v.finger ⟨0, by decide⟩ = .late ∧ v.finger ⟨1, by decide⟩ = .middle ∧
      v.Precedes 0 .late ∧ Id.gap v.key Contact.middle.key < Id.gap v.key Contact.late.key ∧
        v.closestPreceding 0 = .middle ∧ ¬ v.Furthest 0 (v.closestPreceding 0) := by
  refine ⟨by decide +kernel, by decide +kernel, ⟨by decide, by decide +kernel⟩,
    by decide +kernel, by decide +kernel, ?_⟩
  exact View.not_furthest (i := ⟨0, by decide⟩) ⟨by decide +kernel, by decide +kernel⟩
    (by decide +kernel)

end Node

end RingOverlay
