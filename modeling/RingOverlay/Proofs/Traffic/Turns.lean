import RingOverlay.Proofs.Traffic.System

/-!
# What Is Done to a View in Passing

Most of what a node does leaves no trace but in its fingers. Taking up a task
never does more than that, nor does a lookup, whatever comes of it; only the
answer to a probe or to a request for a list, or silence, goes further. Entering
a ring is the exception, and nobody enters here.

What a turn asks for is sorted out along with that, so that later no procedure
has to be opened again.

## Main definitions

* `Purpose.Stays`: A lookup that is not about entering a ring.
* `View.Kept`: Two views differ in nothing but fingers and cursor.
* `Turn.Light`: A turn that leaves no other trace, and makes no claim.
* `Task.Asks`: What a task may ask at its beginning.

## Theorems

* `light_succeed`, `light_fail`: The end of a lookup is light.
* `light_begin`: So is the beginning of a task.
* `light_hop`: So is what follows the answer to a lookup, or its absence.
* `View.kept_begin`, `View.kept_or_joined_hop`: What is left of that when a node may also
  enter a ring.
-/

namespace RingOverlay

/-- A lookup is for anything but entering a ring. -/
def Purpose.Stays (p : Purpose) : Prop := ∀ untried total alone, p ≠ .enter untried total alone

namespace View

/-- Two views differ in nothing but fingers and cursor. -/
structure Kept (v w : View) : Prop where
  me : w.me = v.me
  predecessor : w.predecessor = v.predecessor
  successor : w.successor = v.successor
  successors : w.successors = v.successors
  misses : w.misses = v.misses

namespace Kept

variable {u v w : View}

theorem refl (v : View) : v.Kept v := ⟨rfl, rfl, rfl, rfl, rfl⟩

theorem symm (h : v.Kept w) : w.Kept v :=
  ⟨h.me.symm, h.predecessor.symm, h.successor.symm, h.successors.symm, h.misses.symm⟩

theorem trans (h : v.Kept w) (h' : w.Kept u) : v.Kept u where
  me := h'.me.trans h.me
  predecessor := h'.predecessor.trans h.predecessor
  successor := h'.successor.trans h.successor
  successors := h'.successors.trans h.successors
  misses := h'.misses.trans h.misses

end Kept

theorem kept_advance (v : View) : v.Kept v.advance := ⟨rfl, rfl, rfl, rfl, rfl⟩

theorem kept_setFinger (v : View) (slot : Fin slotCount) (c : Contact) :
    v.Kept (v.setFinger slot c) := ⟨rfl, rfl, rfl, rfl, rfl⟩

theorem kept_forget (v : View) (c : Contact) : v.Kept (v.forget c) := ⟨rfl, rfl, rfl, rfl, rfl⟩

end View

/-- A turn leaves no trace but in fingers and cursor, makes no claim, and asks only
    what it may. -/
structure Turn.Light (v : View) (asks : Question → Prop) (t : Turn) : Prop where
  view : v.Kept t.view
  claim : t.claim = none
  next : ∀ q, t.next = .ask q → asks q

variable {u v w : View} {asks : Question → Prop} {p : Purpose}

theorem Turn.Light.kept {t : Turn} (h : t.Light w asks) (hv : v.Kept w) : t.Light v asks :=
  ⟨hv.trans h.view, h.claim, h.next⟩

theorem light_finish (v : View) (o : Outcome) :
    ({ view := v, next := .finish o } : Turn).Light v asks :=
  ⟨View.Kept.refl v, rfl, fun q hq => by cases hq⟩

theorem light_ask (v : View) {q : Question} (hq : asks q) :
    ({ view := v, next := .ask q } : Turn).Light v asks :=
  ⟨View.Kept.refl v, rfl, fun q' hq' => by cases hq'; exact hq⟩

theorem light_succeed (hp : p.Stays) (v : View) (c : Contact) : (p.succeed v c).Light v asks := by
  cases p with
  | report => exact light_finish v _
  | finger slot => exact (light_finish _ _).kept (v.kept_setFinger slot c)
  | enter untried total alone => exact absurd rfl (hp untried total alone)

theorem light_fail (hp : p.Stays) (v : View) (f : Fault) : (p.fail v f).Light v asks := by
  cases p with
  | report => exact light_finish v _
  | finger slot => exact light_finish v _
  | enter untried total alone => exact absurd rfl (hp untried total alone)

theorem light_seek (hp : p.Stays) (v : View) (id : Id)
    (hasks : ∀ h : Hop, h.purpose = p → asks (.hop h)) : (seek v id p).Light v asks := by
  rcases seek_cases v id p with ⟨c, _, heq⟩ | ⟨c, _, heq⟩ <;> rw [heq]
  · exact light_succeed hp v c
  · exact light_ask v (hasks _ rfl)

/-- What a task may ask at its beginning. -/
def Task.Asks (v : View) : Task → Question → Prop
  | .find _, .hop h => h.purpose.Stays
  | .fixFinger, .hop h => h.purpose.Stays
  | .stabilize, .probe c => c = v.successor
  | .fixSuccessors, .list c => c = v.successor
  | .checkPredecessor, .pulse c => v.predecessor = some c
  | _, _ => False

namespace Task.Asks

variable {t : Task} {q : Question}

theorem stays {h : Hop} (ht : t.Asks v (.hop h)) : h.purpose.Stays := by
  cases t with
  | find id => exact ht
  | fixFinger => exact ht
  | _ => cases ht

-- Only a cycle starts with a probe, and it starts with nothing else.
theorem probe {c : Contact} (ht : t.Asks v (.probe c)) : t = .stabilize ∧ c = v.successor := by
  cases t with
  | stabilize => exact ⟨rfl, ht⟩
  | _ => cases ht

theorem cycle (ht : Task.stabilize.Asks v q) : q = .probe v.successor := by
  cases q with
  | probe c => rw [show c = v.successor from ht]
  | _ => cases ht

end Task.Asks

/-- The beginning of a task is light. -/
theorem light_begin {t : Task} (ht : t.Stays) (v : View) : (t.begin v).Light v (t.Asks v) := by
  cases t with
  | find id =>
      refine light_seek (fun _ _ _ h => by cases h) v id fun h hp => ?_
      rw [Task.Asks, hp]
      exact fun _ _ _ h => by cases h
  | stabilize =>
      refine ⟨View.Kept.refl v, rfl, fun q hq => ?_⟩
      simp only [Task.begin] at hq
      split at hq <;> cases hq
      rfl
  | fixFinger =>
      refine (light_seek (fun _ _ _ h => by cases h) v.advance _ fun h hp => ?_).kept v.kept_advance
      rw [Task.Asks, hp]
      exact fun _ _ _ h => by cases h
  | fixSuccessors =>
      refine ⟨View.Kept.refl v, rfl, fun q hq => ?_⟩
      simp only [Task.begin, askList] at hq
      split at hq <;> cases hq
      rfl
  | checkPredecessor =>
      refine ⟨View.Kept.refl v, rfl, fun q hq => ?_⟩
      simp only [Task.begin] at hq
      cases hp : v.predecessor with
      | none => rw [hp] at hq; cases hq
      | some c =>
          rw [hp] at hq
          cases hq
          exact hp
  | enter through alone => exact absurd rfl (ht through alone)

/-- What follows the answer to a lookup, or its absence, is light, and the lookup
    keeps its purpose. -/
theorem light_hop {h : Hop} (hp : h.purpose.Stays) (v : View) (answer : Option Reply) :
    (h.resume v answer).Light v fun q => ∃ h' : Hop, q = .hop h' ∧ h'.purpose = h.purpose := by
  cases answer with
  | none =>
      rcases h.resume_none v with ⟨w, f, heq, rfl | ⟨c, rfl⟩⟩ <;> rw [heq]
      · exact light_fail hp w f
      · exact (light_fail hp _ f).kept (v.kept_forget c)
  | some r =>
      rcases h.resume_cases v r with ⟨_, _, heq⟩ | ⟨f, heq⟩ | ⟨_, left, heq⟩ <;> rw [heq]
      · exact light_succeed hp v r.node
      · exact light_fail hp v f
      · exact light_ask v ⟨_, rfl, rfl⟩

namespace View

/-- The beginning of a task leaves no trace but in fingers and cursor. -/
theorem kept_begin (v : View) (t : Task) : v.Kept (t.begin v).view := by
  cases t with
  | enter through alone =>
      rw [Task.begin, approach_view]
      exact Kept.refl v
  | _ => exact (light_begin (fun _ _ h => by cases h) v).view

/-- A lookup that goes on or comes to its end leaves no other trace either, unless it has
    found the ring that the node wanted to enter. -/
theorem kept_or_joined_hop (h : Hop) (v : View) (answer : Option Reply) :
    v.Kept (h.resume v answer).view ∨ ∃ c, (h.resume v answer).view = joined v.me c := by
  cases answer with
  | none =>
      rcases h.resume_none v with ⟨w, f, heq, rfl | ⟨c, rfl⟩⟩ <;> rw [heq, fail_view]
      · exact Or.inl (Kept.refl w)
      · exact Or.inl (v.kept_forget c)
  | some r =>
      rcases h.resume_cases v r with ⟨_, _, heq⟩ | ⟨f, heq⟩ | ⟨_, left, heq⟩ <;> rw [heq]
      · cases h.purpose with
        | report => exact Or.inl (Kept.refl v)
        | finger slot => exact Or.inl (v.kept_setFinger slot r.node)
        | enter untried total alone => exact Or.inr ⟨r.node, rfl⟩
      · rw [fail_view]
        exact Or.inl (Kept.refl v)
      · exact Or.inl (Kept.refl v)

end View

end RingOverlay
