import Mathlib.Data.List.Infix
import RingOverlay.Proofs.Node.Blame
import RingOverlay.Proofs.Node.Shape

/-!
# Who Stands in the List Twice

The fallbacks of a node are there for the time when its successor is given up, so the
successor should not be one of them, nor should the node itself. The node itself never
is, whatever happens: a reported list ends where it names the node, and the node stands
in only where nobody else is left.

With the successor it is different. A reported list ends where it names the successor
too; but a nearer successor takes the head of the list and leaves the rest of it alone,
and nobody looks whether it is in there already. If it is, it is its own fallback, and
giving it up puts it back into its place. A reported list may also name somebody twice
behind its head. That does no harm at once, but it does as soon as the first of the two
has become the successor.

These are the only ways: the list is free of repetition as long as no answer names a
fallback as the nearer successor, and no list that is kept names one twice. Then a
successor that is given up is gone from the list.

## Main definitions

* `View.Repeats`: An answer that puts somebody into the list twice.
* `Node.Repeats`: An event in which a node goes on with such an answer.
* `Node.overtaken`, `Node.silenced`: A history in which a fallback becomes the successor,
  and one in which it then falls silent.

## Theorems

* `me_notMem_tail`: No change makes a node its own fallback.
* `nodup_resume_iff`: The end of a question keeps the list free of repetition just if
  its answer repeats nobody.
* `nodup_happen_iff`: So it is with events.
* `repetition_of_live`: When the list of a node repeats somebody, and what it means for
  the next successor that it does not.
* `middle_takes_over_from_itself`: A successor that is given up may be the next one.
-/

namespace RingOverlay

namespace View

/-- The answer puts somebody into the list twice: it names a nearer successor that is a
    fallback already, or it is the list of the successor, and what is kept of that repeats
    somebody. -/
def Repeats (s : Settings) (v : View) : Question → Option Reply → Prop
  | .probe _, some r =>
    (r.node.isRoutable && (Arc.between v.key v.successor.key).contains r.node.key) = true ∧
      r.node ∈ v.successors.tail
  | .list c, some r => v.successor = c ∧ ¬ (v.fallbacks (s.ceiling - 1) r.nodes).Nodup
  | _, _ => False

variable {s : Settings} {v w : View}

section Own

-- Heirs come from behind the head, and the node itself stands in only at the head.
theorem me_notMem_tail_heirs (h : v.me ∉ v.successors.tail) : v.me ∉ v.heirs.tail := by
  intro hmem
  rcases v.heirs_cases with heq | heq <;> rw [heq] at hmem
  · cases hmem
  · exact h (List.mem_filter.mp (List.mem_of_mem_tail hmem)).1

/-- No change makes a node its own fallback. -/
theorem me_notMem_tail (h : v.me ∉ v.successors.tail) (hc : Change s v w) :
    w.me ∉ w.successors.tail := by
  cases hc with
  | advance => exact h
  | setFinger slot c _ => exact h
  | forget c => exact h
  | joined c _ => exact List.not_mem_nil
  | probed c =>
      simp only [probed]
      split_ifs
      · exact h
      · exact h
  | missed =>
      simp only [missed]
      split_ifs
      · exact me_notMem_tail_heirs h
      · exact h
  | reported source list =>
      unfold reported
      split_ifs
      · exact fun hmem => (v.ne_of_mem_fallbacks hmem).1 rfl
      · exact h
  | bereaved c =>
      unfold bereaved
      split_ifs <;> exact h
  | notified c =>
      rw [notified_me, notified_successors]
      exact h

end Own

section Nodup

-- A nearer successor is put in front of the fallbacks that there are.
theorem nodup_probed_iff (hv : v.successors.Nodup) (c : Contact) :
    (v.probed c).successors.Nodup ↔
      ¬ ((c.isRoutable && (Arc.between v.key v.successor.key).contains c.key) = true ∧
        c ∈ v.successors.tail) := by
  simp only [probed]
  split_ifs with hnear
  · rw [adopt, List.nodup_cons, and_iff_left hv.tail, not_and]
    exact ⟨fun h _ => h, fun h => h hnear⟩
  · exact iff_of_true hv fun h => hnear h.1

theorem nodup_heirs (hv : v.successors.Nodup) : v.heirs.Nodup := by
  rcases v.heirs_cases with heq | heq <;> rw [heq]
  · exact List.nodup_singleton v.me
  · exact hv.tail.filter _

theorem nodup_missed (hv : v.successors.Nodup) (threshold : Nat) :
    (v.missed threshold).successors.Nodup := by
  simp only [missed]
  split_ifs
  · exact nodup_heirs hv
  · exact hv

-- The successor is none of the fallbacks that are kept of a list, so all that can be
-- wrong is one of them.
theorem nodup_reported_iff (hv : v.successors.Nodup) (c : Contact) (list : List Contact)
    (ceiling : Nat) :
    (v.reported c list ceiling).successors.Nodup ↔
      ¬ (v.successor = c ∧ ¬ (v.fallbacks (ceiling - 1) list).Nodup) := by
  unfold reported
  split_ifs with hc
  · have hhead : v.successor ∉ v.fallbacks (ceiling - 1) list :=
      fun hmem => (v.ne_of_mem_fallbacks hmem).2 rfl
    rw [refresh, List.nodup_cons, and_iff_right hhead, not_and_not_right]
    exact ⟨fun h _ => h, fun h => h hc⟩
  · exact iff_of_true hv fun h => hc h.1

/-- The end of a question keeps the list free of repetition just if its answer repeats
    nobody. -/
theorem nodup_resume_iff (hv : v.successors.Nodup) (q : Question) (answer : Option Reply) :
    (q.resume s v answer).view.successors.Nodup ↔ ¬ v.Repeats s q answer := by
  cases q with
  | hop h =>
      refine iff_of_true ?_ not_false
      rcases kept_or_joined_hop h v answer with hkept | ⟨c, hjoined⟩
      · exact hkept.successors ▸ hv
      · rw [Question.resume, hjoined]
        exact List.nodup_singleton c
  | probe c =>
      cases answer with
      | some r => exact nodup_probed_iff hv r.node
      | none => exact iff_of_true (nodup_missed hv s.failureThreshold) not_false
  | list c =>
      cases answer with
      | some r => exact nodup_reported_iff hv c r.nodes s.ceiling
      | none => exact iff_of_true hv not_false
  | pulse c =>
      refine iff_of_true ?_ (by cases answer <;> exact not_false)
      cases answer with
      | some r => exact hv
      | none =>
          simp only [Question.resume, bereaved]
          split_ifs <;> exact hv

/-- A successor that is not its own fallback is gone once it is given up, and somebody else
    has taken its place. -/
theorem gone_of_missed (hhead : v.successor ∉ v.successors.tail) (hme : v.successor ≠ v.me)
    {threshold : Nat} (hmisses : threshold ≤ v.misses + 1) :
    (v.missed threshold).successor ≠ v.successor ∧
      v.successor ∉ (v.missed threshold).successors := by
  have hmissed : v.missed threshold = ({ v with misses := v.misses + 1 } : View).promote :=
    if_pos hmisses
  have hgone : v.successor ∉ v.heirs := by
    intro hmem
    rcases v.heirs_cases with heq | heq <;> rw [heq] at hmem
    · exact hme (List.mem_singleton.mp hmem)
    · exact hhead (List.mem_filter.mp hmem).1
  rw [hmissed]
  exact ⟨ne_of_mem_of_not_mem (List.mem_of_mem_head? v.head_heirs) hgone, hgone⟩

end Nodup

end View

namespace Node

/-- The node goes on with an answer that puts somebody into its list twice. -/
def Repeats (n : Node) (e : Event) : Prop :=
  ∃ q answer, n.resumed e = some (q, answer) ∧ n.view.Repeats n.settings q answer

variable {n : Node}

/-- An event keeps the list free of repetition unless the node goes on with an answer that
    repeats somebody. -/
theorem nodup_happen_iff (hn : n.view.successors.Nodup) (e : Event) :
    (n.happen e).1.view.successors.Nodup ↔ ¬ n.Repeats e := by
  have hcomes := comes_happen n e
  cases hresumed : n.resumed e with
  | none =>
      rw [hresumed] at hcomes
      refine iff_of_true ?_ fun ⟨q, answer, h, _⟩ => by rw [hresumed] at h; cases h
      cases hcomes with
      | idle h => rwa [h.view]
      | heard body h => rwa [h.view, View.heard_successors]
      | @begun _ _ _ t _ h => rwa [h.view, (n.view.kept_begin t).successors]
  | some ended =>
      rcases ended with ⟨q, answer⟩
      rw [view_of_resumed hresumed, View.nodup_resume_iff hn q answer, not_iff_not]
      constructor
      · exact fun h => ⟨q, answer, hresumed, h⟩
      · rintro ⟨q', answer', h, hrepeats⟩
        rw [hresumed] at h
        cases h
        exact hrepeats

/-- A history keeps the list free of repetition throughout unless the node once goes on
    with an answer that repeats somebody. -/
theorem nodup_live_iff (hn : n.view.successors.Nodup) (events : List Event) :
    (∀ past, past <+: events → (n.live past).1.view.successors.Nodup) ↔
      ∀ past e, past ++ [e] <+: events → ¬ (n.live past).1.Repeats e := by
  constructor
  · intro h past e hpast
    refine (nodup_happen_iff (h past ((List.prefix_append past [e]).trans hpast)) e).mp ?_
    rw [← live_concat]
    exact h _ hpast
  · intro h past
    induction past using List.reverseRecOn with
    | nil => exact fun _ => hn
    | append_singleton past e ih =>
        intro hpast
        rw [live_concat, nodup_happen_iff (ih ((List.prefix_append past [e]).trans hpast))]
        exact h past e hpast

/-- When the list of a node repeats somebody. The node itself is never one of its own
    fallbacks. Nobody else is in the list twice, at any time in a history, just if the node
    never goes on with an answer that names a fallback as the nearer successor, or with a
    list of which it keeps somebody twice.

    If so, the successor is not its own fallback either, and when it is given up somebody
    else takes its place and it is no fallback any more. -/
theorem repetition_of_live (s : Settings) (me : Contact) (firstSeq : UInt64)
    (events : List Event) :
    let node (past : List Event) : Node := ((bound s me firstSeq).live past).1
    let n := node events
    n.view.me = me ∧ me ∉ n.view.successors.tail ∧
      ((∀ past, past <+: events → (node past).view.successors.Nodup) ↔
        ∀ past e, past ++ [e] <+: events → ¬ (node past).Repeats e) ∧
      ((∀ past e, past ++ [e] <+: events → ¬ (node past).Repeats e) →
        n.view.successor ∉ n.view.successors.tail ∧
          ∀ e c, n.resumed e = some (.probe c, none) →
            s.failureThreshold ≤ n.view.misses + 1 → n.view.successor ≠ me →
              let m := (n.happen e).1
              m.view.successor ≠ n.view.successor ∧ n.view.successor ∉ m.view.successors) := by
  intro node n
  have hchanges := changes_live (bound s me firstSeq) events
  have hme : n.view.me = me := hchanges.2.me
  have hown : n.view.me ∉ n.view.successors.tail :=
    hchanges.2.keep (fun _ _ => View.me_notMem_tail) List.not_mem_nil
  have hall := nodup_live_iff (n := bound s me firstSeq) (List.nodup_singleton me) events
  refine ⟨hme, hme ▸ hown, hall, fun hnone => ?_⟩
  have hnodup : n.view.successors.Nodup := hall.mpr hnone events List.prefix_rfl
  have hhead : n.view.successors.head? = some n.view.successor :=
    ((View.inShape_alone s me).changes hchanges.2).head
  have hsucc : n.view.successor ∉ n.view.successors.tail := by
    cases hlist : n.view.successors with
    | nil => exact List.not_mem_nil
    | cons c rest =>
        rw [hlist] at hhead hnodup
        cases hhead
        exact (List.nodup_cons.mp hnodup).1
  refine ⟨hsucc, fun e c hresumed hmisses hnotme => ?_⟩
  intro m
  have hview : m.view = n.view.missed n.settings.failureThreshold := view_of_resumed hresumed
  rw [hview, hchanges.1]
  exact View.gone_of_missed hsucc (hme ▸ hnotme) hmisses

/-- What `early` goes through: it enters through `late` and learns from it that `middle`
    comes next. Then `late` is probed, and names `middle` as its predecessor. -/
def overtaken : List Event :=
  [ .begin openSocket 0 .starter (.enter [Contact.late.endpoint] false),
    .receive openSocket Contact.late.endpoint (Wire.pack (.new 0 (.owner .late true))),
    .poll openSocket 0 .starter,
    .begin openSocket 0 (.holder 0) .fixSuccessors,
    .receive openSocket Contact.late.endpoint (Wire.pack (.new 1 (.successors [.middle]))),
    .poll openSocket 0 (.holder 0),
    .begin openSocket 0 (.holder 1) .stabilize,
    .receive openSocket Contact.late.endpoint (Wire.pack (.new 2 (.predecessor .middle))),
    .poll openSocket 0 (.holder 1) ]

/-- From then on `middle` is silent: it does not tell its list, and in the next cycle it
    does not answer the probe. -/
def silenced : List Event :=
  overtaken ++ [.poll openSocket 1000 (.holder 1), .begin openSocket 1000 (.holder 2) .stabilize]

/-- The fallback has become the successor and is still a fallback. When it is given up, it
    takes over from itself, and `late`, which has answered everything, is gone. -/
theorem middle_takes_over_from_itself :
    let n := ((bound hasty .early 0).live overtaken).1
    let m := ((bound hasty .early 0).live silenced).1
    let last := (m.poll openSocket 2000 (.holder 2)).1
    n.view.successor = .middle ∧ n.view.successors = [.middle, .middle] ∧
      m.line = [⟨.holder 2, .probe .middle, some ⟨5, 2000⟩⟩] ∧
      m.view.successor = .middle ∧ hasty.failureThreshold ≤ m.view.misses + 1 ∧
      last.view.successor = .middle ∧ last.view.successors = [.middle] := by
  decide +kernel

end Node

end RingOverlay
