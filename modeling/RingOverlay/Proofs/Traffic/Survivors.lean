import RingOverlay.Proofs.Traffic.Turns

/-!
# Those Who Are Left

When some members of an ideal ring have fallen silent, the others are a roster of
their own, and on that roster somebody follows each of them: the first in its list
who is left. To find that one a member has to go through those before, one after
the other, and each costs it as many unanswered probes as it takes to give a
successor up.

## Main definitions

* `Traffic.survivors`: The members that are not silent.
* `Traffic.Searching`: A member on its way through the silent ones in its list.

## Theorems

* `Frame.mem_survivors`, `Frame.silent`: Who is left, and who is not.
* `survivors_follows`: The first in a list who is left is the next one.
* `Searching.missed`: What an unanswered probe does for a member on its way.
* `Searching.probes_lt`: How many it takes at most.
-/

namespace RingOverlay

namespace Traffic

/-- The members that are not silent. -/
def survivors (g : Traffic) : Roster where
  members := g.members.filter g.up
  routable := fun c hc => g.routable c (List.mem_of_mem_filter hc)
  keys_nodup := g.keys_nodup.sublist (List.filter_sublist.map Contact.key)
  endpoints_nodup := g.endpoints_nodup.sublist (List.filter_sublist.map Contact.endpoint)

variable {g g' : Traffic} {x s : Contact} {ceiling : Nat}

theorem mem_survivors : x ∈ g.survivors.members ↔ x ∈ g.members ∧ g.up x = true :=
  List.mem_filter

-- Whoever is where one who is left is, is left.
theorem up_of_endpoint_eq (hx : x ∈ g.survivors.members) (hs : s ∈ g.members)
    (he : x.endpoint = s.endpoint) : g.up s = true := by
  rcases mem_survivors.mp hx with ⟨hxm, hup⟩
  rw [← g.eq_of_endpoint_eq hxm hs he, hup]

theorem Frame.mem_survivors (h : g.Frame g') (hx : x ∈ g'.members) (hup : g'.up x = true) :
    x ∈ g.survivors.members :=
  Traffic.mem_survivors.mpr ⟨h.mem.mp hx, h.up ▸ hup⟩

-- Nobody who is left is where a question goes that runs out of time.
theorem Frame.silent (h : g.Frame g') {e : Endpoint} (hnobody : g'.Deserted e)
    (hx : x ∈ g.members) (he : x.endpoint = e) : g.up x = false := by
  by_contra hup
  exact hnobody x (h.mem.mpr hx) (h.up ▸ eq_true_of_ne_false hup) he

-- Whoever follows a member among all does so among those who are left.
theorem follows_survivors (h : g.Follows s x) (hs : g.up s = true) : g.survivors.Follows s x :=
  ⟨mem_survivors.mpr ⟨h.1, hs⟩, fun d hd => h.2 d (mem_survivors.mp hd).1⟩

/-- The first in a list who is left is the next one. -/
theorem survivors_follows (h : g.Ideal ceiling) (hx : x ∈ g.members) {gone rest : List Contact}
    (hlist : (g.view x).successors = gone ++ s :: rest) (hgone : ∀ a ∈ gone, g.up a = false)
    (hs : g.up s = true) : g.survivors.Follows s x := by
  have hmem : s ∈ g.members := h.mem_of_mem_list hx (hlist ▸ List.mem_append_right _
    (List.mem_cons_self ..))
  rcases h.round_of_list hx hlist with ⟨beyond, hround⟩
  refine ⟨mem_survivors.mpr ⟨hmem, hs⟩, fun d hd => ?_⟩
  rcases mem_survivors.mp hd with ⟨hdm, hup⟩
  rcases Roster.mem_or_span_le hround hdm with hfront | hle
  · rw [hgone d hfront] at hup
    cases hup
  · exact hle

/-- A member is on its way through the silent ones at the front of its list: those
    before its successor are silent, and so is its successor. It has cost `n`
    probes so far, counted from what it had missed before. -/
structure Searching (g : Traffic) (threshold : Nat) (x : Contact) (n : Nat) (v : View)
    (gone rest : List Contact) : Prop where
  list : (g.view x).successors = gone ++ v.successor :: rest
  successors : v.successors = v.successor :: rest
  before : ∀ a ∈ gone, g.up a = false
  silent : g.up v.successor = false
  misses_lt : v.misses < threshold
  probes : n + (g.view x).misses = gone.length * threshold + v.misses

namespace Searching

variable {t n : Nat} {v : View} {gone rest : List Contact}

-- Somebody in the list is left, and nobody up to the successor is.
theorem exists_rest (h : g.Searching t x n v gone rest)
    (hleft : ∃ a ∈ (g.view x).successors, g.up a = true) : rest ≠ [] := by
  rcases hleft with ⟨a, ha, hup⟩
  rintro rfl
  rw [h.list] at ha
  rcases List.mem_append.mp ha with hgone | hsucc
  · rw [h.before a hgone] at hup
    cases hup
  · rw [List.mem_singleton.mp hsucc, h.silent] at hup
    cases hup

/-- An unanswered probe is one more miss, or the next in the list takes over. -/
theorem missed (hideal : g.Ideal ceiling) (hx : x ∈ g.members)
    (hleft : ∃ a ∈ (g.view x).successors, g.up a = true) {threshold : Nat}
    (h : g.Searching (max 1 threshold) x n v gone rest) :
    g.survivors.Follows (v.missed threshold).successor x ∨
      ∃ gone' rest', g.Searching (max 1 threshold) x (n + 1) (v.missed threshold) gone' rest' := by
  have hlt := h.misses_lt
  have hprobes := h.probes
  by_cases hgive : v.misses + 1 ≥ threshold
  · rcases List.exists_cons_of_ne_nil (h.exists_rest hleft) with ⟨c, rest', rfl⟩
    have hset : ∀ a ∈ c :: rest', a.isSet = true := fun a ha =>
      g.isSet_of_mem (hideal.mem_of_mem_list hx (h.list ▸ List.mem_append_right _
        (List.mem_cons_of_mem _ ha)))
    have hpromoted : v.missed threshold = { v with misses := v.misses + 1 }.promote := if_pos hgive
    have hheirs : v.successors.tail.filter Contact.isSet = c :: rest' := by
      rw [h.successors, List.tail_cons, List.filter_eq_self.mpr hset]
    rcases View.promote_of_heirs (v := { v with misses := v.misses + 1 }) hheirs with
      ⟨hsucc, hlist, hmisses⟩
    rw [hpromoted, hsucc]
    have hgone : ∀ a ∈ gone ++ [v.successor], g.up a = false := by
      intro a ha
      rcases List.mem_append.mp ha with hbefore | hlast
      · exact h.before a hbefore
      · rw [List.mem_singleton.mp hlast, h.silent]
    have hall : (g.view x).successors = (gone ++ [v.successor]) ++ c :: rest' := by
      rw [h.list, List.append_assoc, List.singleton_append]
    cases hup : g.up c with
    | true => exact Or.inl (survivors_follows hideal hx hall hgone hup)
    | false =>
        refine Or.inr ⟨gone ++ [v.successor], rest', ?_⟩
        constructor
        case list => rw [hsucc, hall]
        case successors => rw [hsucc, hlist]
        case before => exact hgone
        case silent => rw [hsucc, hup]
        case misses_lt =>
          rw [hmisses]
          omega
        case probes =>
          rw [hmisses, List.length_append, List.length_singleton, Nat.add_one_mul]
          omega
  · have hcounted : v.missed threshold = { v with misses := v.misses + 1 } := if_neg hgive
    rw [hcounted]
    refine Or.inr ⟨gone, rest, h.list, h.successors, h.before, h.silent, ?_, ?_⟩
    · show v.misses + 1 < max 1 threshold
      omega
    · show n + 1 + (g.view x).misses = gone.length * max 1 threshold + (v.misses + 1)
      omega

/-- A member that is still on its way has not made a round of probes for each
    entry of its list. -/
theorem probes_lt (hideal : g.Ideal ceiling) (hx : x ∈ g.members)
    (h : g.Searching t x n v gone rest) : n < ceiling * t := by
  have hlen := hideal.length_list_le hx
  rw [h.list, List.length_append, List.length_cons] at hlen
  have hlt := h.misses_lt
  have hprobes := h.probes
  have hrounds : (gone.length + 1) * t ≤ ceiling * t := Nat.mul_le_mul_right t (by omega)
  rw [Nat.add_one_mul] at hrounds
  omega

end Searching

end Traffic

end RingOverlay
