import RingOverlay.Proofs.Frame

/-!
# The Nearest of Those Who Claim

A node hears from others that they come before it, and believes the nearest. It does
so one claim at a time, by comparing a claimant with the predecessor that it believes
in so far, and that comparison is a question about an arc with the predecessor at its
lower end. This module says what comes of any number of claims: the one believed in is
the nearest of all that count, so neither the order of the claims nor how often each
is made has any bearing on where it stands.

Two cases do not look like a comparison of lengths. An arc from the node's own key to
itself holds all other points, so a predecessor with the node's own key gives way to
anybody else; and where there is no predecessor yet, the first to be reached is
believed whoever it is. Counting the points that lie between a claimant and the node
covers both, since a point has all the others between itself and itself.

Claimants with one key tie, and the first of them to be heard stays. So it is the key
that is settled by who has claimed, and not the endpoint.

## Main definitions

* `Id.between`: How many points lie between two others.
* `View.claimed`: The view after any number of claims.
* `View.claimants`: Those whose claims count.
* `Nearest`: One of them with the fewest points in between, or nobody.

## Theorems

* `span_eq_between`: The points in between, and one more, make up the way.
* `accepts_iff`: A claim is believed over one with more points in between.
* `accepts_notified`: A claim that was just made brings no news.
* `Nearest.key_eq`: Whoever is nearest among the same contacts has the same key.
* `nearest_notified`: What a claim does to who is nearest.
* `nearest_claimed`: The nearest claimant is believed, whatever the order.
-/

namespace RingOverlay

namespace Id

/-- How many points lie between one point and another, going forward: all the others
    if the two are one. -/
def between (a b : Id) : UInt64 := b - a - 1

theorem span_eq_between (a b : Id) : span a b = (between a b).toNat + 1 := by
  have ha := toNat_lt_circleSize a
  have hb := toNat_lt_circleSize b
  have hone : (1 : UInt64).toNat = 1 := rfl
  have hsize : circleSize = 18446744073709551616 := rfl
  rw [span_eq, between, UInt64.toNat_sub, UInt64.toNat_sub, hone]
  split_ifs <;> omega

theorem between_lt_iff {a b c : Id} : between a c < between b c ↔ span a c < span b c := by
  rw [span_eq_between, span_eq_between, UInt64.lt_iff_toNat_lt]
  omega

-- Two points with as many points between them and a third are one.
theorem eq_of_between_eq {a b c : Id} (h : between a c = between b c) : a = b := by
  rw [between, between, UInt64.sub_left_inj] at h
  exact (UInt64.sub_right_inj c).mp h

end Id

/-- A point lies strictly between two others if it is nearer to the second than the
    first is. -/
theorem Arc.between_contains_iff_nearer {a b x : Id} :
    (Arc.between a b).contains x = true ↔ Id.span x b < Id.span a b := by
  rw [Arc.between_contains_iff]
  constructor
  · intro h
    have hcut := Id.span_add_span h
    have hpos := Id.span_pos a x
    omega
  · intro h
    have hcut := Id.gap_add_span_of_lt h
    have hne : a ≠ x := Id.ne_of_gap_pos (by omega)
    have hpos := Id.span_pos x b
    rw [Id.span_eq_gap hne]
    omega

/-- One of some contacts with the fewest points between it and the given one, or nobody
    if there are no contacts. -/
def Nearest (id : Id) (cs : List Contact) : Option Contact → Prop
  | none => cs = []
  | some p => p ∈ cs ∧ ∀ c ∈ cs, Id.between p.key id ≤ Id.between c.key id

/-- Who stands nearest depends only on who is there: not on the order, and not on how
    often anybody is named. -/
theorem Nearest.key_eq {id : Id} {cs ds : List Contact} {p q : Option Contact}
    (hmem : ∀ c, c ∈ cs ↔ c ∈ ds) (hp : Nearest id cs p) (hq : Nearest id ds q) :
    p.map Contact.key = q.map Contact.key := by
  cases p with
  | none =>
      cases q with
      | none => rfl
      | some d =>
          have hd := (hmem d).mpr hq.1
          rw [show cs = [] from hp] at hd
          cases hd
  | some c =>
      cases q with
      | none =>
          have hc := (hmem c).mp hp.1
          rw [show ds = [] from hq] at hc
          cases hc
      | some d =>
          have hle := hp.2 d ((hmem d).mpr hq.1)
          have hge := hq.2 c ((hmem c).mp hp.1)
          exact congrArg some (Id.eq_of_between_eq (UInt64.le_antisymm hle hge))

namespace View

/-- The view after a number of claims, one after the other. -/
def claimed (v : View) (cs : List Contact) : View := cs.foldl notified v

/-- Those whose claims count: who was believed before, and who has claimed since and can
    be reached. -/
def claimants (v : View) (cs : List Contact) : List Contact :=
  v.predecessor.toList ++ cs.filter Contact.isRoutable

section Claim

variable {v : View} {c : Contact}

@[simp] theorem notified_key (v : View) (c : Contact) : (v.notified c).key = v.key :=
  congrArg Contact.key (notified_me v c)

/-- A claim is believed over a predecessor if the claimant can be reached and has fewer
    points between it and the node. -/
theorem accepts_iff {p : Contact} (h : v.predecessor = some p) :
    v.accepts c = true ↔
      c.isRoutable = true ∧ Id.between c.key v.key < Id.between p.key v.key := by
  rw [accepts, h, Bool.and_eq_true, Arc.between_contains_iff_nearer, Id.between_lt_iff]

-- With no predecessor anybody who can be reached is believed.
theorem accepts_of_none (h : v.predecessor = none) : v.accepts c = c.isRoutable := by
  rw [accepts, h, Bool.and_true]

theorem notified_of_accepts (h : v.accepts c = true) :
    v.notified c = { v with predecessor := some c } :=
  if_pos h

theorem notified_of_rejects (h : v.accepts c = false) : v.notified c = v :=
  if_neg (Bool.eq_false_iff.mp h)

theorem routable_of_accepts (h : v.accepts c = true) : c.isRoutable = true := by
  rw [accepts, Bool.and_eq_true] at h
  exact h.1

theorem rejects_of_unroutable (h : c.isRoutable = false) : v.accepts c = false := by
  rw [accepts, h, Bool.false_and]

/-- A claim that was just made is turned down: it was believed and is no nearer than
    itself, or it was turned down before. -/
theorem accepts_notified (v : View) (c : Contact) : (v.notified c).accepts c = false := by
  cases haccept : v.accepts c with
  | true =>
      have hknown : (v.notified c).predecessor = some c := by
        rw [notified_of_accepts haccept]
      rw [← Bool.not_eq_true, accepts_iff hknown]
      exact fun h => UInt64.lt_irrefl _ h.2
  | false =>
      rw [notified_of_rejects haccept]
      exact haccept

/-- A claim makes the claimant one of those who count, and the nearest of them is
    believed again. -/
theorem nearest_notified {seen : List Contact} (h : Nearest v.key seen v.predecessor)
    (c : Contact) :
    Nearest v.key (seen ++ [c].filter Contact.isRoutable) (v.notified c).predecessor := by
  cases hrt : c.isRoutable with
  | false =>
      rw [notified_of_rejects (rejects_of_unroutable hrt)]
      simpa [hrt] using h
  | true =>
      rw [List.filter_cons_of_pos hrt, List.filter_nil]
      cases hpred : v.predecessor with
      | none =>
          have hseen : seen = [] := by rwa [hpred] at h
          rw [notified_of_accepts ((accepts_of_none hpred).trans hrt), hseen]
          exact ⟨List.mem_singleton_self c, by simp⟩
      | some p =>
          rw [hpred] at h
          -- Once believed, a claimant is nearer than the one before it, and so than all others.
          cases haccept : v.accepts c with
          | true =>
              have hlt := ((accepts_iff hpred).mp haccept).2
              rw [notified_of_accepts haccept]
              refine ⟨List.mem_append_right _ (List.mem_singleton_self c), fun d hd => ?_⟩
              rcases List.mem_append.mp hd with hold | hnew
              · exact UInt64.le_trans (UInt64.le_of_lt hlt) (h.2 d hold)
              · rw [List.mem_singleton.mp hnew]
                exact UInt64.le_refl _
          | false =>
              have hle : Id.between p.key v.key ≤ Id.between c.key v.key := by
                refine UInt64.not_lt.mp fun hlt => ?_
                rw [(accepts_iff hpred).mpr ⟨hrt, hlt⟩] at haccept
                cases haccept
              rw [notified_of_rejects haccept, hpred]
              refine ⟨List.mem_append_left _ h.1, fun d hd => ?_⟩
              rcases List.mem_append.mp hd with hold | hnew
              · exact h.2 d hold
              · rw [List.mem_singleton.mp hnew]
                exact hle

end Claim

section Claims

variable {v : View}

@[simp] theorem claimed_nil (v : View) : v.claimed [] = v := rfl

@[simp] theorem claimed_cons (v : View) (c : Contact) (cs : List Contact) :
    v.claimed (c :: cs) = (v.notified c).claimed cs := rfl

theorem claimed_append (v : View) (cs ds : List Contact) :
    v.claimed (cs ++ ds) = (v.claimed cs).claimed ds :=
  List.foldl_append

/-- Claims bear on the predecessor and on nothing else. -/
theorem claimed_eq (v : View) (cs : List Contact) :
    v.claimed cs = { v with predecessor := (v.claimed cs).predecessor } := by
  induction cs generalizing v with
  | nil => rfl
  | cons c cs ih =>
      rw [claimed_cons, ih (v.notified c)]
      rcases Bool.eq_false_or_eq_true (v.accepts c) with haccept | hreject
      · rw [notified_of_accepts haccept]
      · rw [notified_of_rejects hreject]

@[simp] theorem claimed_key (v : View) (cs : List Contact) : (v.claimed cs).key = v.key := by
  rw [claimed_eq v cs]
  rfl

-- The induction is on the claims, and what it carries is that whoever is believed in
-- is the nearest of all who counted before.
theorem nearest_of_seen {seen : List Contact} (h : Nearest v.key seen v.predecessor)
    (cs : List Contact) :
    Nearest v.key (seen ++ cs.filter Contact.isRoutable) (v.claimed cs).predecessor := by
  induction cs generalizing v seen with
  | nil => simpa using h
  | cons c cs ih =>
      have hnext : Nearest (v.notified c).key (seen ++ [c].filter Contact.isRoutable)
          (v.notified c).predecessor := by
        rw [notified_key]
        exact nearest_notified h c
      have hrest := ih hnext
      rwa [notified_key, List.append_assoc, ← List.filter_append, List.singleton_append]
        at hrest

/-- Whoever is believed in after a number of claims is the nearest of those who count. -/
theorem nearest_of_claims (v : View) (cs : List Contact) :
    Nearest v.key (v.claimants cs) (v.claimed cs).predecessor := by
  refine nearest_of_seen ?_ cs
  cases v.predecessor with
  | none => rfl
  | some p => exact ⟨List.mem_singleton_self p, by simp⟩

/-- However many claims a node hears, and whoever makes them: they bear on its
    predecessor alone, and the predecessor it ends up with is the nearest of those who
    count, with the fewest points in between. So its key is the same in whatever order
    the claims come, and however often each of them is made. At any time a claim that
    was just made is turned down, a claimant whom nobody can reach changes nothing, and
    whoever is believed over another has fewer points in between. -/
theorem nearest_claimed (v : View) (cs : List Contact) :
    v.claimed cs = { v with predecessor := (v.claimed cs).predecessor } ∧
      Nearest v.key (v.claimants cs) (v.claimed cs).predecessor ∧
      (∀ ds, (∀ c, c ∈ ds ↔ c ∈ cs) →
        (v.claimed ds).predecessor.map Contact.key =
          (v.claimed cs).predecessor.map Contact.key) ∧
      ∀ past c future, cs = past ++ c :: future →
        v.claimed cs = ((v.claimed past).notified c).claimed future ∧
          ((v.claimed past).notified c).accepts c = false ∧
          (c.isRoutable = false → (v.claimed past).notified c = v.claimed past) ∧
          ∀ p, (v.claimed past).predecessor = some p → (v.claimed past).accepts c = true →
            ((v.claimed past).notified c).predecessor = some c ∧
              Id.between c.key v.key < Id.between p.key v.key := by
  refine ⟨claimed_eq v cs, nearest_of_claims v cs, fun ds hmem => ?_,
    fun past c future hcs => ⟨?_, accepts_notified _ c, fun hrt => ?_, fun p hpred haccept => ?_⟩⟩
  · have hcount : ∀ c, c ∈ v.claimants ds ↔ c ∈ v.claimants cs := fun c => by
      rw [claimants, claimants, List.mem_append, List.mem_append, List.mem_filter,
        List.mem_filter, hmem c]
    exact Nearest.key_eq hcount (nearest_of_claims v ds) (nearest_of_claims v cs)
  · rw [hcs, claimed_append, claimed_cons]
  · exact notified_of_rejects (rejects_of_unroutable hrt)
  · have hnearer := ((accepts_iff hpred).mp haccept).2
    rw [claimed_key] at hnearer
    rw [notified_of_accepts haccept]
    exact ⟨rfl, hnearer⟩

end Claims

end View

end RingOverlay
