import RingOverlay.Proofs.Lookup.Step

/-!
# The Walk of a Lookup

A lookup in an overlay, with everything removed that a closed overlay never
makes use of. `Hop.resume` judges an answer by five tests before it takes it;
if every answer names a member, all of them pass, and what remains is a walk
from member to member until one of them knows the owner or the questions are
used up. `Overlay.walk` is that walk, by recursion on the questions left.

`conduct_hop` ties the two together for every purpose a lookup can have: what
the procedure comes to is what its purpose makes of the result of the walk, and
the questions that were sent went to the members walked through. So a statement
about lookups is proved about the walk, where nothing but `View.lookup` is left
to reason about.

## Main definitions

* `Overlay.walk`: The members asked, and the owner if one of them knew it.
* `Purpose.settle`: What a purpose makes of the result of a walk.
* `Overlay.reportOf`: What a lookup reports, by that result.

## Theorems

* `answer_hop`: A member's answer to a lookup, as the one who asked sees it.
* `resume_owner`, `resume_onward`: What such an answer leads to.
* `conduct_hop`: A lookup that asks a member comes to what its walk comes to.
* `find_of_owner`: A lookup that is answered at home asks nobody.
* `conduct_report`: What a lookup reports that starts at a member's endpoint.
* `find_of_walk`: What a lookup reports that starts at home.
* `find_asked_le`, `findFrom_asked_le`: No lookup asks more than 64 times.
-/

namespace RingOverlay

/-- What becomes of a lookup: it succeeds if an owner was named, and has used up
    its questions otherwise. -/
def Purpose.settle (p : Purpose) (v : View) (id : Id) : Option Contact → Turn
  | some c => p.succeed v c
  | none => p.fail v (.hopLimit id hopLimit)

namespace Overlay

/-- The members that a lookup asks, from `y` on and with `left` more after it,
    and the owner if one of them knew it. -/
def walk (o : Overlay) (id : Id) : Nat → Contact → List Contact × Option Contact
  | 0, y =>
    match (o.view y).lookup id with
    | (c, true) => ([y], some c)
    | (_, false) => ([y], none)
  | left + 1, y =>
    match (o.view y).lookup id with
    | (c, true) => ([y], some c)
    | (c, false) =>
      let rest := o.walk id left c
      (y :: rest.1, rest.2)

theorem walk_of_owner (o : Overlay) {id : Id} {y c : Contact} (left : Nat)
    (h : (o.view y).lookup id = (c, true)) : o.walk id left y = ([y], some c) := by
  cases left <;> rw [walk, h]

theorem walk_zero (o : Overlay) {id : Id} {y c : Contact}
    (h : (o.view y).lookup id = (c, false)) : o.walk id 0 y = ([y], none) := by
  rw [walk, h]

theorem walk_succ (o : Overlay) {id : Id} {y c : Contact} (left : Nat)
    (h : (o.view y).lookup id = (c, false)) :
    o.walk id (left + 1) y = (y :: (o.walk id left c).1, (o.walk id left c).2) := by
  rw [walk, h]

theorem answer_hop (o : Overlay) {y : Contact} (hy : y ∈ o.members) (h : Hop)
    (hasked : h.asked = y.endpoint) :
    o.answer (.hop h) =
      some { Reply.silence with
        kind := .owner
        node := ((o.view y).lookup h.id).1
        resolved := ((o.view y).lookup h.id).2 } := by
  rw [o.answer_of_mem (q := .hop h) hy hasked]
  rfl

-- A member that knows the owner ends the lookup: whoever it names can be
-- reached, being a member.
theorem resume_owner (o : Overlay) (hc : o.Closed) {y c : Contact} (hy : y ∈ o.members)
    (v : View) (h : Hop) (hasked : h.asked = y.endpoint)
    (hl : (o.view y).lookup h.id = (c, true)) :
    h.resume v (o.answer (.hop h)) = h.purpose.succeed v c := by
  have hmem := hc y hy h.id
  rw [hl] at hmem
  rw [o.answer_hop hy h hasked, hl]
  simp only [Hop.resume, judge, o.isSet_of_mem hmem, o.routable c hmem, Bool.not_true,
    Bool.false_eq_true, if_false, if_true]

-- A member that does not know it passes the lookup on: whoever it names can be
-- reached, and is not the member itself.
theorem resume_onward (o : Overlay) (hc : o.Closed) {y c : Contact} (hy : y ∈ o.members)
    (v : View) (h : Hop) (hasked : h.asked = y.endpoint)
    (hl : (o.view y).lookup h.id = (c, false)) :
    h.resume v (o.answer (.hop h)) =
      match h.left with
      | 0 => h.purpose.fail v (.hopLimit h.id hopLimit)
      | left + 1 =>
        { view := v, next := .ask (.hop { h with asked := c.endpoint, left := left }) } := by
  have hmem := hc y hy h.id
  rw [hl] at hmem
  have hne : c.endpoint ≠ h.asked := by
    rw [hasked]
    intro he
    have hme := View.lookup_next_ne hl
    rw [o.view_me y hy] at hme
    exact hme (o.eq_of_endpoint_eq hmem hy he)
  rw [o.answer_hop hy h hasked, hl]
  cases hleft : h.left <;>
    simp only [Hop.resume, judge, o.isSet_of_mem hmem, o.routable c hmem, hne, hleft,
      Bool.not_true, Bool.false_eq_true, if_false]

theorem conduct_asked (o : Overlay) (s : Settings) (v : View) (h : Hop) (past : List Question) :
    ({ view := v, next := .ask (.hop h) } : Turn).conduct s o.peers past =
      ((h.resume v (o.answer (.hop h))).conduct s o.peers (past ++ [.hop h])).after [.hop h] :=
  conduct_ask s o.peers past v (.hop h) rfl

/-- A lookup that asks a member comes to what its purpose makes of the walk from
    there, and its questions go to the members walked through. -/
theorem conduct_hop (o : Overlay) (hc : o.Closed) (s : Settings) (v : View) (id : Id)
    (start : Option Contact) (p : Purpose) :
    ∀ (left : Nat) (past : List Question) (y : Contact), y ∈ o.members →
      ∃ qs, qs.map Question.target = (o.walk id left y).1.map Contact.endpoint ∧
        ({ view := v, next := .ask (.hop ⟨id, y.endpoint, left, start, p⟩) } : Turn).conduct
            s o.peers past =
          ((p.settle v id (o.walk id left y).2).conduct s o.peers (past ++ qs)).after qs := by
  intro left
  -- On the questions left. Each round takes one answer apart, and only the last
  -- case, in which the lookup is passed on with questions to spare, has a rest.
  induction left with
  | zero =>
      intro past y hy
      cases hl : (o.view y).lookup id with
      | mk c b =>
          refine ⟨[.hop ⟨id, y.endpoint, 0, start, p⟩], ?_, ?_⟩
          · cases b <;> simp only [walk, hl] <;> rfl
          · cases b with
            | true =>
                rw [conduct_asked, o.walk_of_owner 0 hl, o.resume_owner hc hy v _ rfl hl]
                rfl
            | false =>
                rw [conduct_asked, o.walk_zero hl, o.resume_onward hc hy v _ rfl hl]
                rfl
  | succ left ih =>
      intro past y hy
      have hmem := hc y hy id
      cases hl : (o.view y).lookup id with
      | mk c b =>
          rw [hl] at hmem
          cases b with
          | true =>
              refine ⟨[.hop ⟨id, y.endpoint, left + 1, start, p⟩], ?_, ?_⟩
              · rw [o.walk_of_owner _ hl]
                rfl
              · rw [conduct_asked, o.walk_of_owner _ hl, o.resume_owner hc hy v _ rfl hl]
                rfl
          | false =>
              rcases ih (past ++ [.hop ⟨id, y.endpoint, left + 1, start, p⟩]) c hmem with
                ⟨qs, htargets, hrest⟩
              refine ⟨.hop ⟨id, y.endpoint, left + 1, start, p⟩ :: qs, ?_, ?_⟩
              · rw [o.walk_succ _ hl, List.map_cons, List.map_cons, htargets]
                rfl
              · rw [conduct_asked, o.resume_onward hc hy v _ rfl hl, hrest, o.walk_succ _ hl,
                  Run.after_after, List.append_assoc]
                rfl

theorem find_of_owner (o : Overlay) {x c : Contact} {id : Id}
    (hl : (o.view x).lookup id = (c, true)) : o.find x id = ⟨o.view x, .found c, []⟩ := by
  rw [find, perform, Task.begin, seek, hl]
  exact conduct_finish _ _ _ _ _

/-- What a lookup reports, by the result of its walk. -/
def reportOf (id : Id) : Option Contact → Outcome
  | some c => .found c
  | none => .failed (.hopLimit id hopLimit)

theorem conduct_report (o : Overlay) (hc : o.Closed) (s : Settings) (v : View) (id : Id)
    (start : Option Contact) (left : Nat) {y : Contact} (hy : y ∈ o.members) :
    (({ view := v, next := .ask (.hop ⟨id, y.endpoint, left, start, .report⟩) } : Turn).conduct
      s o.peers []).outcome = reportOf id (o.walk id left y).2 := by
  rcases o.conduct_hop hc s v id start .report left [] y hy with ⟨qs, _, hrun⟩
  rw [hrun]
  cases (o.walk id left y).2 with
  | some c => simp only [Purpose.settle, Purpose.succeed, conduct_finish, Run.after, reportOf]
  | none => simp only [Purpose.settle, Purpose.fail, conduct_finish, Run.after, reportOf]

theorem find_of_walk (o : Overlay) (hc : o.Closed) {x y : Contact} (hx : x ∈ o.members) {id : Id}
    (hl : (o.view x).lookup id = (y, false)) :
    (o.find x id).outcome = reportOf id (o.walk id (hopLimit - 1) y).2 := by
  have hy := hc x hx id
  rw [hl] at hy
  rw [find, perform, Task.begin, seek, hl]
  exact o.conduct_report hc _ _ _ _ _ hy

theorem find_asked_le (o : Overlay) (x : Contact) (id : Id) :
    (o.find x id).asked.length ≤ 64 := by
  refine Nat.le_trans (asked_length_le _ _ _ _) ?_
  rw [Task.begin, seek]
  split
  · exact Nat.zero_le _
  · exact Nat.le_refl _

theorem findFrom_asked_le (o : Overlay) (s : Settings) (v : View) (e : Endpoint) (id : Id) :
    (o.findFrom s v e id).asked.length ≤ 64 :=
  asked_length_le s o.peers [] _

end Overlay

end RingOverlay
