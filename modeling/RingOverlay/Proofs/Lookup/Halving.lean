import RingOverlay.Proofs.Lookup.Walk

/-!
# Lookups Halve the Distance

What exact fingers add. Let `p` be the last member before a point; it is the
one that knows the owner, so a lookup is over once it has got to `p`. How far
it still has to go is a number below `2 ^ 64`, and the claim is that one step
at least takes the leading bit off that number.

Say a member has `d > 0` to go and `2 ^ i` is the leading bit of `d`. The slot
`i` looks for the point `2 ^ i` ahead, and `p` is not before that point, so the
owner of the point is not behind `p`: this finger fits. The scan may stop at a
higher slot, but a finger that fits and sits in slot `j` is at least `2 ^ j`
ahead, since in front of the point it looks for there is nothing up to the
member itself, once round the circle. Either way the lookup moves on by
`2 ^ i` or more.

Two users need slightly different amounts. A lookup that starts at home has
moved before it asks anybody. One that starts at a given endpoint has not, and
would need one question more if the distance could have all 64 bits set; that
is so only for a point that is the asked member's own key. So the walk lemma
asks for a distance of at most `2 ^ (left + 1) - 2` and not `2 ^ left - 1`.

The fingers need to be exact only in the slots below some bound, as long as the
distance is below the same power of two. In the others an unset finger does no
harm, and this is what the first rounds of refreshing fingers depend on.

## Main definitions

* `Overlay.FingersExactBelow`: Fingers are exact below a slot, and exact or
  nobody from there on.

## Theorems

* `fingersExactBelow_of_exact`: Exact fingers are exact below every slot.
* `gap_finger`, `gap_finger_bounds`: How far ahead an exact finger is.
* `finger_precedes`: A finger that looks no further than the last member before
  the point fits.
* `lookup_owner_or_halves`: A step that does not end the lookup takes off the
  leading bit of the distance.
* `walk_halves`: A walk with enough questions finds the owner.
* `find_of_near`: So does a lookup from home.
* `find_owner_of_exact`: With exact fingers every lookup finds the owner.
-/

namespace RingOverlay

namespace Overlay

/-- Below a slot every finger owns the point its slot looks for, and from that
    slot on it does so or is nobody. -/
def FingersExactBelow (o : Overlay) (k : Nat) : Prop :=
  ∀ x ∈ o.members, ∀ i : Fin slotCount,
    (i.val < k → o.Owns ((o.view x).finger i) (fingerTarget x.key i)) ∧
      (((o.view x).finger i).isSet = false ∨
        o.Owns ((o.view x).finger i) (fingerTarget x.key i))

theorem fingersExactBelow_of_exact (o : Overlay) (k : Nat) (hf : o.FingersExact) :
    o.FingersExactBelow k :=
  fun x hx i => ⟨fun _ => hf x hx i, Or.inr (hf x hx i)⟩

theorem fingersKnown_of_exactBelow (o : Overlay) (k : Nat) (hf : o.FingersExactBelow k) :
    o.FingersKnown :=
  fun x hx i => (hf x hx i).2.imp_right And.left

-- The finger in a slot is at least as far ahead as its slot looks, unless it is
-- the node itself: seen from the point it looks for, the node is a member too.
theorem gap_finger (o : Overlay) {y c : Contact} (hy : y ∈ o.members) (i : Fin slotCount)
    (hown : o.Owns c (fingerTarget y.key i)) (hne : c ≠ y) :
    2 ^ i.val ≤ Id.gap y.key c.key := by
  have hkey : c.key ≠ y.key := fun h => hne (o.eq_of_key_eq hown.1 hy h)
  rw [← Id.gap_fingerTarget y.key i.isLt]
  exact Id.gap_le_gap_of_le hkey (hown.2 y hy)

-- If some member is as far ahead as a slot looks, the finger in that slot is as
-- far ahead too, and no further than the member.
theorem gap_finger_bounds (o : Overlay) {y p c : Contact} (hp : p ∈ o.members)
    (i : Fin slotCount) (hown : o.Owns c (fingerTarget y.key i))
    (hfar : 2 ^ i.val ≤ Id.gap y.key p.key) :
    2 ^ i.val ≤ Id.gap y.key c.key ∧ Id.gap y.key c.key ≤ Id.gap y.key p.key := by
  have htarget := Id.gap_fingerTarget y.key i.isLt
  have hcut : Id.gap y.key (fingerTarget y.key i) + Id.gap (fingerTarget y.key i) p.key =
      Id.gap y.key p.key := Id.gap_add_gap (by omega)
  have hnear := hown.2 p hp
  have hlt := Id.gap_lt y.key p.key
  have hjoin := Id.gap_add_gap_of_lt
    (show Id.gap y.key (fingerTarget y.key i) + Id.gap (fingerTarget y.key i) c.key < circleSize
      by omega)
  omega

-- The finger in a slot that looks no further than the last member before the
-- point lies before the point.
theorem finger_precedes (o : Overlay) {y p : Contact} {id : Id} (hy : y ∈ o.members)
    (hp : p ∈ o.members) (i : Fin slotCount)
    (hown : o.Owns ((o.view y).finger i) (fingerTarget y.key i))
    (hdist : Id.gap y.key p.key + Id.span p.key id = Id.span y.key id)
    (hfar : 2 ^ i.val ≤ Id.gap y.key p.key) : (o.view y).Precedes id ((o.view y).finger i) := by
  rcases o.gap_finger_bounds hp i hown hfar with ⟨hlow, hle⟩
  have hpos := Id.span_pos p.key id
  refine ⟨o.isSet_of_mem hown.1, ?_⟩
  rw [o.key_view hy,
    Id.span_eq_gap (Id.ne_of_gap_pos (Nat.lt_of_lt_of_le (Nat.two_pow_pos _) hlow))]
  omega

/-- A member answers with the owner, or passes the lookup on to a member that is
    nearer to the point by the leading bit of the distance to the last member
    before it. -/
theorem lookup_owner_or_halves (o : Overlay) (hs : o.InOrder) (k : Nat) (hf : o.FingersExactBelow k)
    {y p : Contact} {id : Id} (hy : y ∈ o.members) (hp : p ∈ o.members)
    (hlast : ∀ d ∈ o.members, Id.span p.key id ≤ Id.span d.key id)
    (hnear : Id.span y.key id < Id.span p.key id + 2 ^ k) :
    (∃ c, (o.view y).lookup id = (c, true) ∧ o.Owns c id) ∨
      ∃ c ∈ o.members, (o.view y).lookup id = (c, false) ∧
        ∃ i, Id.span y.key id < Id.span p.key id + 2 ^ (i + 1) ∧
          Id.span c.key id + 2 ^ i ≤ Id.span y.key id := by
  have hkey := o.key_view hy
  rcases Nat.lt_or_ge (Id.span y.key (o.view y).successor.key) (Id.span y.key id) with hlt | hle
  swap
  · exact Or.inl ⟨_, o.lookup_owner hs hy hle⟩
  -- The member is not the last before the point, its successor being nearer.
  have hcut := Id.span_add_span hlt
  have hsucc := hlast _ (hs y hy).1
  have hpos := Id.span_pos y.key (o.view y).successor.key
  have hdist := Id.gap_add_span_of_lt (show Id.span p.key id < Id.span y.key id by omega)
  have hd : Id.gap y.key p.key ≠ 0 := by omega
  have hlow := Nat.log2_self_le hd
  have hhigh := @Nat.lt_log2_self (Id.gap y.key p.key)
  have hik : (Id.gap y.key p.key).log2 < k :=
    (Nat.pow_lt_pow_iff_right Nat.one_lt_two).mp (Nat.lt_of_le_of_lt hlow (by omega))
  have hi : (Id.gap y.key p.key).log2 < slotCount :=
    (Nat.pow_lt_pow_iff_right Nat.one_lt_two).mp
      (Nat.lt_of_le_of_lt hlow (Id.gap_lt y.key p.key))
  -- The finger in the slot of the leading bit fits, so the scan stops there or
  -- higher.
  have hfits := o.finger_precedes hy hp ⟨_, hi⟩ ((hf y hy ⟨_, hi⟩).1 hik) hdist hlow
  rcases View.lookup_of_precedes (by rw [hkey]; exact hlt) hfits with ⟨j, hij, hpre, hlookup⟩
  have howns : o.Owns ((o.view y).finger j) (fingerTarget y.key j) := by
    rcases (hf y hy j).2 with hunset | howns
    · rw [hpre.1] at hunset
      exact absurd hunset Bool.noConfusion
    · exact howns
  -- Wherever it stops, the finger is as far ahead as its slot looks.
  have hney : (o.view y).finger j ≠ y := fun h => hpre.ne_me (h.trans (o.view_me y hy).symm)
  have hstep := o.gap_finger hy j howns hney
  have hpow : 2 ^ (Id.gap y.key p.key).log2 ≤ 2 ^ j.val := Nat.pow_le_pow_right Nat.two_pos hij
  have hrest := Id.span_add_span hpre.2
  rw [hkey, Id.span_eq_gap (Id.ne_of_gap_pos (Nat.lt_of_lt_of_le (Nat.two_pow_pos _) hstep))]
    at hrest
  refine Or.inr ⟨_, howns.1, hlookup, (Id.gap y.key p.key).log2, ?_, ?_⟩ <;> omega

/-- A walk with enough questions finds the owner. The induction is on the
    questions left: a step takes off the leading bit of the distance, and if that
    is not the highest bit allowed for, there is a question to spare. -/
theorem walk_halves (o : Overlay) (hs : o.InOrder) (k : Nat) (hf : o.FingersExactBelow k)
    {p : Contact} {id : Id} (hp : p ∈ o.members)
    (hlast : ∀ d ∈ o.members, Id.span p.key id ≤ Id.span d.key id) :
    ∀ (left : Nat) (y : Contact), y ∈ o.members →
      Id.span y.key id < Id.span p.key id + 2 ^ k →
      Id.span y.key id + 2 ≤ Id.span p.key id + 2 ^ (left + 1) →
      ∃ c, (o.walk id left y).2 = some c ∧ o.Owns c id := by
  intro left
  induction left with
  | zero =>
      intro y hy hnear henough
      rcases o.lookup_owner_or_halves hs k hf hy hp hlast hnear with
        ⟨c, hl, howns⟩ | ⟨c, hc, _, i, _, hstep⟩
      · exact ⟨c, by rw [o.walk_of_owner _ hl], howns⟩
      · -- There is no distance left to take a bit off.
        have hpc := hlast c hc
        have := Nat.two_pow_pos i
        simp only [Nat.zero_add, Nat.pow_one] at henough
        omega
  | succ left ih =>
      intro y hy hnear henough
      rcases o.lookup_owner_or_halves hs k hf hy hp hlast hnear with
        ⟨c, hl, howns⟩ | ⟨c, hc, hl, i, hbit, hstep⟩
      · exact ⟨c, by rw [o.walk_of_owner _ hl], howns⟩
      · have hpos := Nat.two_pow_pos i
        rw [o.walk_succ _ hl]
        refine ih c hc (by omega) ?_
        rw [Nat.pow_succ] at henough hbit
        rcases Nat.lt_or_ge i (left + 1) with hsmall | hlarge
        · -- A lower bit: what is left is less than that bit.
          have hle : 2 ^ i ≤ 2 ^ left := Nat.pow_le_pow_right Nat.two_pos (by omega)
          have := Nat.two_pow_pos left
          rw [Nat.pow_succ]
          omega
        · -- The highest bit allowed for: taking it off is enough.
          have hle : 2 ^ (left + 1) ≤ 2 ^ i := Nat.pow_le_pow_right Nat.two_pos hlarge
          omega

/-- A lookup that starts at home finds the owner if the distance is below the
    power of two that the fingers are exact for: the step at home takes off a
    bit, and 64 questions are enough for the rest. What the lookup is for makes
    no difference, nor does anything in the asker's view but what it says about
    the point. -/
theorem seek_of_near (o : Overlay) (hs : o.InOrder) (k : Nat) (hk : k ≤ slotCount)
    (hf : o.FingersExactBelow k) {x p : Contact} {id : Id} (hx : x ∈ o.members)
    (hp : p ∈ o.members) (hlast : ∀ d ∈ o.members, Id.span p.key id ≤ Id.span d.key id)
    (hnear : Id.span x.key id < Id.span p.key id + 2 ^ k) :
    ∃ c, o.Owns c id ∧ ∀ (s : Settings) (v : View), v.lookup id = (o.view x).lookup id →
      ∀ purpose : Purpose, ∃ qs, (seek v id purpose).conduct s o.peers [] =
        ((purpose.succeed v c).conduct s o.peers qs).after qs := by
  have hc := o.closed_of_inOrder hs (o.fingersKnown_of_exactBelow k hf)
  rcases o.lookup_owner_or_halves hs k hf hx hp hlast hnear with
    ⟨c, hl, howns⟩ | ⟨y, hy, hl, i, hbit, hstep⟩
  · refine ⟨c, howns, fun s v hv purpose => ⟨[], ?_⟩⟩
    rw [seek, hv, hl]
    rfl
  · have hpos := Nat.two_pow_pos i
    have hpow : 2 ^ k ≤ 2 ^ slotCount := Nat.pow_le_pow_right Nat.two_pos hk
    have hleft : hopLimit - 1 + 1 = slotCount := rfl
    rcases o.walk_halves hs k hf hp hlast (hopLimit - 1) y hy (by omega) (by rw [hleft]; omega)
      with ⟨c, hfound, howns⟩
    refine ⟨c, howns, fun s v hv purpose => ?_⟩
    rcases o.conduct_hop hc s v id (some y) purpose (hopLimit - 1) [] y hy with ⟨qs, _, hrun⟩
    refine ⟨qs, ?_⟩
    rw [seek, hv, hl]
    rw [hfound] at hrun
    exact hrun

-- The same for a member's own lookup.
theorem find_of_near (o : Overlay) (hs : o.InOrder) (k : Nat) (hk : k ≤ slotCount)
    (hf : o.FingersExactBelow k) {x p : Contact} {id : Id} (hx : x ∈ o.members)
    (hp : p ∈ o.members) (hlast : ∀ d ∈ o.members, Id.span p.key id ≤ Id.span d.key id)
    (hnear : Id.span x.key id < Id.span p.key id + 2 ^ k) :
    ∃ c, o.Owns c id ∧ (o.find x id).outcome = .found c := by
  rcases o.seek_of_near hs k hk hf hx hp hlast hnear with ⟨c, howns, hseek⟩
  rcases hseek (o.settings x) (o.view x) rfl .report with ⟨qs, hrun⟩
  refine ⟨c, howns, ?_⟩
  rw [find, perform, Task.begin, hrun]
  simp only [Purpose.succeed, conduct_finish, Run.after]

-- A walk that starts anywhere finds the owner of a point that is not the key of
-- the member it starts at. For that key itself the distance could have all 64
-- bits set, which is one question too many.
theorem walk_of_ne (o : Overlay) (hs : o.InOrder) (hf : o.FingersExact) {b : Contact} {id : Id}
    (hb : b ∈ o.members) (hne : id ≠ b.key) :
    ∃ c, (o.walk id (hopLimit - 1) b).2 = some c ∧ o.Owns c id := by
  rcases o.exists_last_before id hb with ⟨p, hp, hlast⟩
  have hpos := Id.span_pos p.key id
  have hlt := Id.gap_lt b.key id
  rw [← Id.span_eq_gap (Ne.symm hne)] at hlt
  have hsize : circleSize = 2 ^ slotCount := rfl
  have hleft : hopLimit - 1 + 1 = slotCount := rfl
  exact o.walk_halves hs slotCount (o.fingersExactBelow_of_exact slotCount hf) hp hlast
    (hopLimit - 1) b hb (by omega) (by rw [hleft]; omega)

/-- With right successors and exact fingers every lookup finds the owner with at
    most 64 questions: from any member for any point, and from the endpoint of
    any member for any point but that member's own key. So a newcomer with a key
    of its own enters through any member, and follows the owner of its key. -/
theorem find_owner_of_exact (o : Overlay) (hs : o.InOrder) (hf : o.FingersExact) :
    (∀ x ∈ o.members, ∀ id, ∃ c, o.Owns c id ∧ (o.find x id).outcome = .found c ∧
        (o.find x id).asked.length ≤ 64) ∧
      (∀ b ∈ o.members, ∀ id, id ≠ b.key → ∀ s v, ∃ c, o.Owns c id ∧
        (o.findFrom s v b.endpoint id).outcome = .found c ∧
        (o.findFrom s v b.endpoint id).asked.length ≤ 64) ∧
      ∀ b ∈ o.members, ∀ s v, v.key ≠ b.key → ∀ untried alone, ∃ c, o.Owns c v.key ∧
        (o.enter s v (b.endpoint :: untried) alone).outcome = .done ∧
        (o.enter s v (b.endpoint :: untried) alone).view = View.joined v.me c := by
  have hall := o.fingersExactBelow_of_exact slotCount hf
  have hc := o.closed_of_inOrder hs (o.fingersKnown_of_exactBelow slotCount hall)
  refine ⟨fun x hx id => ?_, fun b hb id hne s v => ?_, fun b hb s v hne untried alone => ?_⟩
  · rcases o.exists_last_before id hx with ⟨p, hp, hlast⟩
    have hpos := Id.span_pos p.key id
    have hle : Id.span x.key id ≤ 2 ^ slotCount := Id.span_le x.key id
    rcases o.find_of_near hs slotCount (Nat.le_refl _) hall hx hp hlast (by omega) with
      ⟨c, howns, hfound⟩
    exact ⟨c, howns, hfound, o.find_asked_le x id⟩
  · rcases o.walk_of_ne hs hf hb hne with ⟨c, hfound, howns⟩
    refine ⟨c, howns, ?_, o.findFrom_asked_le s v b.endpoint id⟩
    rw [findFrom, o.conduct_report hc s v id none _ hb, hfound, reportOf]
  · rcases o.walk_of_ne hs hf hb hne with ⟨c, hfound, howns⟩
    rcases o.conduct_hop hc s v v.key none (.enter untried (untried.length + 1) alone)
      (hopLimit - 1) [] b hb with ⟨qs, _, hrun⟩
    refine ⟨c, howns, ?_⟩
    rw [enter, Task.begin, List.length_cons, approach, hrun, hfound]
    simp only [Purpose.settle, Purpose.succeed, conduct_finish, Run.after, and_self]

/-- The last of three finds the first past the largest word, and a newcomer
    between the two enters through the last and follows the first. -/
theorem late_finds_early :
    let o := trio fun c i => .ofTrio (fingerTarget c.key i)
    let newcomer : Contact := ⟨7, ⟨⟨127, 0, 0, 1⟩, 4004⟩⟩
    (o.find .late 5).outcome = .found .early ∧ (o.find .late 5).asked.length ≤ 64 ∧
      (o.findFrom {} (View.alone newcomer) Contact.late.endpoint 5).outcome = .found .early ∧
      (o.enter {} (View.alone newcomer) [Contact.late.endpoint] false).view =
        View.joined newcomer .early := by
  intro o newcomer
  rcases o.find_owner_of_exact (by decide) (by decide +kernel) with ⟨hfind, hfrom, henter⟩
  rcases hfind .late (by decide) 5 with ⟨c, howns, hfound, hlen⟩
  rcases hfrom .late (by decide) 5 (by decide) {} (View.alone newcomer) with ⟨d, hdowns, hdfound, _⟩
  rcases henter .late (by decide) {} (View.alone newcomer) (by decide) [] false with
    ⟨e, heowns, _, hview⟩
  refine ⟨?_, hlen, ?_, ?_⟩
  · rw [hfound, howns.unique (d := .early) (by decide)]
  · rw [hdfound, hdowns.unique (d := .early) (by decide)]
  · rw [hview, heowns.unique (d := .early) (by decide)]
    rfl

end Overlay

end RingOverlay
