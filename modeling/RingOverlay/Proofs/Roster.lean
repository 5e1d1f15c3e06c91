import Mathlib.Data.Finset.Max
import Mathlib.Data.List.Nodup
import RingOverlay.Contact
import RingOverlay.Proofs.Circle

/-!
# Rosters

The nodes of a ring, as one who sees all of them at once would list them. No
node ever has such a list; it is what the beliefs of the nodes are measured
against.

A roster says nothing about beliefs. It carries what makes its members usable
at all: each can be reached, and no two share a key or an endpoint. So a key or
an endpoint names at most one member, and `memberAt?` is a lookup that never
has to choose.

`Owns` and `Follows` are the two relations that a correct ring has to get
right. Both ask for the nearest member clockwise, and they are kept apart
because they start counting in different places: a point that is a member's own
key is owned by that member, but the member that follows a member is another
one, unless there is no other.

## Main definitions

* `Roster`: Nodes that can be told apart and reached.
* `Roster.memberAt?`: The member at an endpoint.
* `Roster.Owns`: A member is the first at or after a point.
* `Roster.Follows`: A member is the first after another one.

## Theorems

* `memberAt?_eq_some_iff`: An endpoint names the member that has it.
* `Owns.unique`: A point has one owner.
* `Follows.unique`: A member is followed by one member.
* `exists_last_before`: Some member comes last before a point.
* `exists_follows`, `Follows.injective`: A member follows one member.
* `Follows.owns`: Whoever follows a member owns what lies in between.
-/

namespace RingOverlay

/-- Nodes that can be told apart and reached. -/
structure Roster where
  members : List Contact
  routable : ∀ c ∈ members, c.isRoutable = true
  keys_nodup : (members.map Contact.key).Nodup
  endpoints_nodup : (members.map Contact.endpoint).Nodup

namespace Roster

/-- The member at an endpoint, if there is one. -/
def memberAt? (R : Roster) (e : Endpoint) : Option Contact :=
  R.members.find? fun c => c.endpoint = e

/-- A member is the first one at or after a point. -/
def Owns (R : Roster) (c : Contact) (id : Id) : Prop :=
  c ∈ R.members ∧ ∀ d ∈ R.members, Id.gap id c.key ≤ Id.gap id d.key

/-- A member is the first one after a node, which is the node itself if it is
    the only member. -/
def Follows (R : Roster) (c x : Contact) : Prop :=
  c ∈ R.members ∧ ∀ d ∈ R.members, Id.span x.key c.key ≤ Id.span x.key d.key

instance (R : Roster) (c : Contact) (id : Id) : Decidable (R.Owns c id) :=
  inferInstanceAs (Decidable (_ ∧ ∀ d ∈ R.members, _))

instance (R : Roster) (c x : Contact) : Decidable (R.Follows c x) :=
  inferInstanceAs (Decidable (_ ∧ ∀ d ∈ R.members, _))

theorem isSet_of_mem (R : Roster) {c : Contact} (hc : c ∈ R.members) : c.isSet = true := by
  have h := R.routable c hc
  simp only [Contact.isRoutable, Bool.and_eq_true] at h
  exact h.1.1.1

theorem members_nodup (R : Roster) : R.members.Nodup := List.Nodup.of_map _ R.keys_nodup

theorem eq_of_key_eq (R : Roster) {c d : Contact} (hc : c ∈ R.members) (hd : d ∈ R.members)
    (h : c.key = d.key) : c = d :=
  List.inj_on_of_nodup_map R.keys_nodup hc hd h

theorem eq_of_endpoint_eq (R : Roster) {c d : Contact} (hc : c ∈ R.members)
    (hd : d ∈ R.members) (h : c.endpoint = d.endpoint) : c = d :=
  List.inj_on_of_nodup_map R.endpoints_nodup hc hd h

theorem memberAt?_eq_some_iff (R : Roster) (e : Endpoint) (c : Contact) :
    R.memberAt? e = some c ↔ c ∈ R.members ∧ c.endpoint = e := by
  constructor
  · intro h
    exact ⟨List.mem_of_find?_eq_some h, by simpa using List.find?_some h⟩
  · rintro ⟨hc, rfl⟩
    rcases hfind : R.memberAt? c.endpoint with _ | d
    · have := List.find?_eq_none.mp hfind c hc
      simp only [decide_true, not_true_eq_false] at this
    · have hd : d ∈ R.members := List.mem_of_find?_eq_some hfind
      have he : d.endpoint = c.endpoint := by simpa using List.find?_some hfind
      rw [R.eq_of_endpoint_eq hd hc he]

theorem Owns.unique {R : Roster} {c d : Contact} {id : Id} (hc : R.Owns c id)
    (hd : R.Owns d id) : c = d :=
  R.eq_of_key_eq hc.1 hd.1 (Id.gap_inj (Nat.le_antisymm (hc.2 d hd.1) (hd.2 c hc.1)))

theorem Follows.unique {R : Roster} {c d x : Contact} (hc : R.Follows c x)
    (hd : R.Follows d x) : c = d :=
  R.eq_of_key_eq hc.1 hd.1 (Id.span_inj (Nat.le_antisymm (hc.2 d hd.1) (hd.2 c hc.1)))

-- Among the members one is least by any measure.
theorem exists_least (R : Roster) (measure : Contact → Nat) {x : Contact}
    (hx : x ∈ R.members) :
    ∃ c ∈ R.members, ∀ d ∈ R.members, measure c ≤ measure d := by
  have hne : R.members.toFinset.Nonempty := ⟨x, List.mem_toFinset.mpr hx⟩
  rcases Finset.exists_min_image R.members.toFinset measure hne with ⟨c, hc, hmin⟩
  exact ⟨c, List.mem_toFinset.mp hc, fun d hd => hmin d (List.mem_toFinset.mpr hd)⟩

/-- Some member comes last before a point: no member has less far to go until
    it arrives there. -/
theorem exists_last_before (R : Roster) (id : Id) {x : Contact} (hx : x ∈ R.members) :
    ∃ p ∈ R.members, ∀ d ∈ R.members, Id.span p.key id ≤ Id.span d.key id :=
  R.exists_least (fun c => Id.span c.key id) hx

/-- Every member follows one. -/
theorem exists_follows (R : Roster) {c : Contact} (hc : c ∈ R.members) :
    ∃ x ∈ R.members, R.Follows c x := by
  rcases R.exists_last_before c.key hc with ⟨x, hx, hlast⟩
  refine ⟨x, hx, hc, fun d hd => ?_⟩
  by_contra hnear
  have hcut := Id.span_add_span (Nat.lt_of_not_le hnear)
  have hpos := Id.span_pos x.key d.key
  have := hlast d hd
  omega

/-- A member follows only one. -/
theorem Follows.injective {R : Roster} {c x y : Contact} (hx : R.Follows c x) (hy : R.Follows c y)
    (hxm : x ∈ R.members) (hym : y ∈ R.members) : x = y :=
  R.eq_of_key_eq hxm hym (Id.eq_of_span_le_span (hx.2 y hym) (hy.2 x hxm))

/-- Whoever follows a member owns every point up to its own. -/
theorem Follows.owns {R : Roster} {c x : Contact} {id : Id} (hc : R.Follows c x)
    (h : Id.span x.key id ≤ Id.span x.key c.key) : R.Owns c id := by
  refine ⟨hc.1, fun d hd => ?_⟩
  have hcd := hc.2 d hd
  rw [Id.gap_eq_span_sub h, Id.gap_eq_span_sub (Nat.le_trans h hcd)]
  omega

end Roster

end RingOverlay
