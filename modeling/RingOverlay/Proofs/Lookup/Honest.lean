import Mathlib.Data.List.Chain
import RingOverlay.Proofs.Lookup.Step

/-!
# Lookups Among Honest Nodes

What a lookup is worth when nothing is known about the beliefs of the nodes.
Successors may be wrong, fingers may be stale, and all of it may change while
the lookup is under way, so that two answers need have nothing to do with each
other. What is left is honesty about endpoints: whoever is found at the
endpoint of an entry is the node that the entry names.

That is enough to keep a lookup from going round in circles. An answer is given
from one view, and whatever this view is, the next node it names lies strictly
between the node that answers and the point. Honesty turns this from a remark
about entries into one about nodes: the node asked next is the one named. So
the keys asked move towards the point and never past it, no matter who believes
what at which moment.

`Overlay.perform` is of no use here, since it lets nothing else happen
meanwhile. `Turn.Unfolds` is the same procedure in an unquiet world: any answer
that is allowed may come, and between two turns the node's own view may be
replaced by any other.

## Main definitions

* `Turn.Unfolds`: A procedure carried to its end while everything changes.
* `Directory`: Which key is found at an endpoint.
* `Directory.Truthful`: The entries of a view say who is where.
* `Directory.Honest`: An answer is given from a truthful view.
* `Outcome.Looped`: A lookup was sent back to the node it came from.

## Theorems

* `Truthful.lookup_next`: Whoever is named next is where it is said to be, and
  lies before the point.
* `judge_honest`: What an honest answer means.
* `unfolds_clockwise`: A lookup under way moves towards its point.
* `lookup_clockwise`: So does every lookup, and it asks nobody twice.
-/

namespace RingOverlay

/-- A procedure carried to its end: the questions that were sent, and how it
    ended. Every answer is one that is allowed, and before each turn the view of
    the node may have become any other. -/
inductive Turn.Unfolds (s : Settings) (answers : Question → Option Reply → Prop) :
    Turn → List Question → Outcome → Prop where
  /-- The procedure is over. -/
  | finish {t : Turn} {outcome : Outcome} (h : t.next = .finish outcome) :
      Unfolds s answers t [] outcome
  /-- The socket refuses the claim or the question. -/
  | refused {t : Turn} {dest : Endpoint} (reason : Errno)
      (h : t.claim = some dest ∨ ∃ q, t.next = .ask q ∧ q.target = dest) :
      Unfolds s answers t [] (.failed (.send dest reason))
  /-- The question is sent, and its answer or the absence of one starts the next
      turn. -/
  | ask {t : Turn} {q : Question} {a : Option Reply} {v : View} {qs : List Question}
      {outcome : Outcome} (h : t.next = .ask q) (ha : answers q a)
      (rest : Unfolds s answers (q.resume s v a) qs outcome) :
      Unfolds s answers t (q :: qs) outcome

/-- Which key is found at an endpoint, if anybody is. -/
abbrev Directory := Endpoint → Option Id

namespace Directory

variable {D : Directory}

/-- A view that follows somebody, and whose entries name the nodes that are at
    their endpoints. Nothing says that they are the right entries to have. -/
structure Truthful (D : Directory) (v : View) : Prop where
  follows : v.successor.isSet = true
  successor : D v.successor.endpoint = some v.successor.key
  finger : ∀ i : Fin slotCount, (v.finger i).isSet = true →
    D (v.finger i).endpoint = some (v.finger i).key

/-- What may come of a question: nothing, or an answer that the node at its
    endpoint gives from some truthful view. It may be another view each time. -/
def Honest (D : Directory) (q : Question) (a : Option Reply) : Prop :=
  a = none ∨ ∃ v : View, D q.target = some v.key ∧ D.Truthful v ∧
    a = (v.answer? q.body).map fun body => (Message.new 0 body).toReply

/-- Whoever is named next is found where it is said to be, and lies strictly
    between the node and the point. -/
theorem Truthful.lookup_next {v : View} (hv : D.Truthful v) {id : Id} {c : Contact}
    (h : v.lookup id = (c, false)) :
    D c.endpoint = some c.key ∧ (Arc.between v.key id).contains c.key = true := by
  rw [Arc.between_contains_iff]
  rcases v.lookup_cases id with ⟨_, heq⟩ | ⟨hlt, ⟨hne, heq⟩ | ⟨_, ⟨_, heq⟩ | ⟨hunset, _⟩⟩⟩
  · rw [heq] at h
    cases h
  · rw [heq] at h
    cases h
    rcases v.closestPreceding_cases id with ⟨hme, _⟩ | ⟨i, hi, hpre, _⟩
    · exact absurd hme hne
    · rw [hi]
      exact ⟨hv.finger i hpre.1, hpre.2⟩
  · rw [heq] at h
    cases h
    exact ⟨hv.successor, hlt⟩
  · rw [hv.follows] at hunset
    cases hunset

end Directory

/-- A lookup was sent back to the very node that had just been asked. -/
def Outcome.Looped : Outcome → Prop
  | .failed (.routingLoop _ _) => True
  | _ => False

namespace Directory

variable {D : Directory}

/-- An honest answer to a lookup ends it, though never as a loop, or sends it on
    to a node strictly between the one asked and the point. -/
theorem judge_honest {h : Hop} {k : Id} (hk : D h.asked = some k) {a : Option Reply}
    (ha : D.Honest (.hop h) a) :
    (∃ c, judge h.id h.asked a = .found c) ∨
      (∃ f, judge h.id h.asked a = .failed f ∧ ¬ (Outcome.failed f).Looped) ∨
        ∃ next n, judge h.id h.asked a = .onward next ∧ D next = some n ∧
          (Arc.between k h.id).contains n = true := by
  rcases ha with rfl | ⟨v, hkey, hv, rfl⟩
  · exact Or.inr (Or.inl ⟨_, rfl, not_false⟩)
  have hsame : k = v.key := Option.some.inj (hk.symm.trans hkey)
  cases hl : v.lookup h.id with
  | mk c resolved =>
      simp only [Question.body, View.answer?, hl, Option.map_some, Message.new, Message.toReply,
        judge]
      split_ifs with hunset hroute hres hloop
      · exact Or.inr (Or.inl ⟨_, rfl, not_false⟩)
      · exact Or.inr (Or.inl ⟨_, rfl, not_false⟩)
      · exact Or.inl ⟨c, rfl⟩
      · -- The node asked would have to have the key of the next one, which lies
        -- beyond it.
        rw [Bool.not_eq_true] at hres
        rcases hv.lookup_next (hl.trans (congrArg _ hres)) with ⟨hat, hin⟩
        rw [hloop, hk] at hat
        rw [← Option.some.inj hat, hsame, Arc.between_contains_iff] at hin
        exact absurd rfl (Id.ne_of_span_lt hin)
      · rw [Bool.not_eq_true] at hres
        rcases hv.lookup_next (hl.trans (congrArg _ hres)) with ⟨hat, hin⟩
        exact Or.inr (Or.inr ⟨_, _, rfl, hat, hsame ▸ hin⟩)

end Directory

-- A turn that ends its procedure ends it as it says, or with a refused claim.
theorem unfolds_finish {s : Settings} {answers : Question → Option Reply → Prop} {t : Turn}
    {qs : List Question} {o outcome : Outcome} (hrun : t.Unfolds s answers qs outcome)
    (h : t.next = .finish o) (ho : ¬ o.Looped) : qs = [] ∧ ¬ outcome.Looped := by
  cases hrun with
  | finish hfinish =>
      rw [h] at hfinish
      cases hfinish
      exact ⟨rfl, ho⟩
  | refused reason _ => exact ⟨rfl, not_false⟩
  | ask hask _ _ =>
      rw [h] at hask
      cases hask

-- Once its lookup has failed, a procedure that asks no more is over.
theorem fail_over {p : Purpose} (hp : p.allowance = 0) (v : View) {f : Fault}
    (hf : ¬ (Outcome.failed f).Looped) : ∃ o, (p.fail v f).next = .finish o ∧ ¬ o.Looped := by
  cases p with
  | report => exact ⟨_, rfl, hf⟩
  | finger slot => exact ⟨_, rfl, not_false⟩
  | enter untried total alone =>
      cases untried with
      | nil =>
          simp only [Purpose.fail, approach]
          split
          · exact ⟨_, rfl, not_false⟩
          · exact ⟨_, rfl, not_false⟩
      | cons e rest =>
          simp only [Purpose.allowance, List.length_cons, hopLimit, slotCount] at hp
          omega

theorem succeed_over (p : Purpose) (v : View) (c : Contact) :
    ∃ o, (p.succeed v c).next = .finish o ∧ ¬ o.Looped := by
  cases p <;> exact ⟨_, rfl, not_false⟩

namespace Directory

variable {D : Directory}

/-- An honest answer ends a lookup after which nothing follows, or the next
    question goes to a node strictly between the one asked and the point. -/
theorem resume_honest {h : Hop} {k : Id} (hk : D h.asked = some k)
    (hp : h.purpose.allowance = 0) {a : Option Reply} (ha : D.Honest (.hop h) a) (v : View) :
    (∃ o, (h.resume v a).next = .finish o ∧ ¬ o.Looped) ∨
      ∃ next left n, (h.resume v a).next = .ask (.hop { h with asked := next, left := left }) ∧
        D next = some n ∧ (Arc.between k h.id).contains n = true := by
  rcases judge_honest hk ha with ⟨c, hj⟩ | ⟨f, hj, hf⟩ | ⟨next, n, hj, hn, hin⟩
  · rw [Hop.resume, hj]
    exact Or.inl (succeed_over _ v c)
  · rw [Hop.resume, hj]
    refine Or.inl ?_
    simp only []
    split
    · exact fail_over hp _ hf
    · exact fail_over hp _ hf
  · rw [Hop.resume, hj]
    cases hleft : h.left with
    | zero => exact Or.inl (fail_over hp v not_false)
    | succ left => exact Or.inr ⟨next, left, n, rfl, hn, hin⟩

/-- A lookup under way: from the node that is asked now, each key lies strictly
    between the one before and the point. The induction is on the run, and it
    needs to know of the rest of it no more than where that starts. -/
theorem unfolds_clockwise {s : Settings} {t : Turn} {qs : List Question} {outcome : Outcome}
    (hrun : t.Unfolds s D.Honest qs outcome) :
    ∀ {h : Hop} {k : Id}, t.next = .ask (.hop h) → h.purpose.allowance = 0 → D h.asked = some k →
      ¬ outcome.Looped ∧ ∃ keys : List Id, qs.map (fun q => D q.target) = keys.map some ∧
        (∀ b ∈ keys.head?, b = k) ∧
        keys.IsChain fun a b => (Arc.between a h.id).contains b = true := by
  induction hrun with
  | finish hfinish =>
      intro h k hask
      rw [hask] at hfinish
      cases hfinish
  | refused reason _ =>
      intro h k _ _ _
      refine ⟨not_false, [], rfl, ?_, List.IsChain.nil⟩
      intro b hb
      cases hb
  | @ask t q a v qs outcome hnext ha rest ih =>
      intro h k hask hp hk
      rw [hask] at hnext
      cases hnext
      rcases resume_honest hk hp ha v with ⟨o, hover, ho⟩ | ⟨next, left, n, hon, hn, hin⟩
      · rcases unfolds_finish rest hover ho with ⟨rfl, hout⟩
        refine ⟨hout, [k], ?_, fun b hb => (Option.mem_some.mp hb).symm, List.IsChain.singleton k⟩
        rw [List.map_singleton, List.map_singleton, ← hk]
        rfl
      · rcases ih hon hp hn with ⟨hout, keys, hkeys, hhead, hchain⟩
        refine ⟨hout, k :: keys, ?_, fun b hb => (Option.mem_some.mp hb).symm, ?_⟩
        · rw [List.map_cons, List.map_cons, hkeys, ← hk]
          rfl
        · refine List.isChain_cons.mpr ⟨fun b hb => ?_, hchain⟩
          rw [hhead b hb]
          exact hin

-- Keys each of which lies between the one before and the point lie between any
-- of those before and the point, and an endpoint has only one key.
theorem nodup_of_clockwise {qs : List Question} {keys : List Id} {id : Id}
    (hkeys : qs.map (fun q => D q.target) = keys.map some)
    (hclock : keys.Pairwise fun a b => (Arc.between a id).contains b = true) :
    (qs.map Question.target).Nodup := by
  have hdistinct : keys.Nodup := hclock.imp fun hab => by
    rw [Arc.between_contains_iff] at hab
    exact (Id.ne_of_span_lt hab).symm
  have hmap : ((qs.map Question.target).map D).Nodup := by
    rw [List.map_map, show D ∘ Question.target = fun q => D q.target from rfl, hkeys]
    exact hdistinct.map (Option.some_injective Id)
  exact hmap.of_map

-- Lying between is transitive, so that a chain is ordered as a whole.
theorem pairwise_of_chain {keys : List Id} {id : Id}
    (h : keys.IsChain fun a b => (Arc.between a id).contains b = true) :
    keys.Pairwise fun a b => (Arc.between a id).contains b = true := by
  have : Trans (fun a b : Id => (Arc.between a id).contains b = true)
      (fun a b => (Arc.between a id).contains b = true)
      (fun a b => (Arc.between a id).contains b = true) := ⟨fun hab hbc => by
    rw [Arc.between_contains_iff] at hab hbc ⊢
    exact Id.span_lt_of_between hab hbc⟩
  exact h.pairwise

/-- Among honest nodes, whatever they believe and however that changes, the keys
    of the nodes that a lookup asks move strictly clockwise towards the point;
    so nobody is asked twice, and the lookup does not end as a loop. This holds
    of a lookup from the node's own view and of one that starts at the endpoint
    of any node, whatever they are for, unless another lookup is to follow. -/
theorem lookup_clockwise (D : Directory) (s : Settings) (v : View) (id : Id) (p : Purpose)
    (hp : p.allowance = 0) (qs : List Question) (outcome : Outcome) :
    (D.Truthful v → (seek v id p).Unfolds s D.Honest qs outcome →
        ¬ outcome.Looped ∧ (qs.map Question.target).Nodup ∧
          ∃ keys : List Id, qs.map (fun q => D q.target) = keys.map some ∧
            (v.key :: keys).Pairwise fun a b => (Arc.between a id).contains b = true) ∧
      ∀ e k, D e = some k →
        ({ view := v, next := .ask (.hop ⟨id, e, hopLimit - 1, none, p⟩) } : Turn).Unfolds s
          D.Honest qs outcome →
        ¬ outcome.Looped ∧ (qs.map Question.target).Nodup ∧
          ∃ keys : List Id, qs.map (fun q => D q.target) = keys.map some ∧
            keys.Pairwise fun a b => (Arc.between a id).contains b = true := by
  constructor
  · intro hv hrun
    cases hl : v.lookup id with
    | mk c resolved =>
        cases resolved with
        | true =>
            rcases succeed_over p v c with ⟨o, hover, ho⟩
            rw [seek, hl] at hrun
            rcases unfolds_finish hrun hover ho with ⟨rfl, hout⟩
            exact ⟨hout, List.nodup_nil, [], rfl, List.pairwise_singleton _ _⟩
        | false =>
            rcases hv.lookup_next hl with ⟨hat, hin⟩
            rw [seek, hl] at hrun
            rcases unfolds_clockwise hrun rfl hp hat with ⟨hout, keys, hkeys, hhead, hchain⟩
            have hclock := pairwise_of_chain (List.isChain_cons.mpr ⟨fun b hb => by
              rw [hhead b hb]
              exact hin, hchain⟩)
            exact ⟨hout, nodup_of_clockwise hkeys (List.pairwise_cons.mp hclock).2, keys, hkeys,
              hclock⟩
  · intro e k hk hrun
    rcases unfolds_clockwise hrun rfl hp hk with ⟨hout, keys, hkeys, _, hchain⟩
    have hclock := pairwise_of_chain hchain
    exact ⟨hout, nodup_of_clockwise hkeys hclock, keys, hkeys, hclock⟩

-- A node that has just joined is truthful if whom it follows is where it says.
theorem truthful_joined (me : Contact) {c : Contact} (hset : c.isSet = true)
    (hc : D c.endpoint = some c.key) : D.Truthful (View.joined me c) where
  follows := hset
  successor := hc
  finger i hi := absurd ((View.alone_finger i me).symm.trans hi) Bool.false_ne_true

/-- The first of three looks for a point past the last of them, and then looks
    again from the endpoint of the second. The second knows the last by then, the
    last follows the wrong node, and the first forgets everything meanwhile. The
    owner found is wrong, but nobody is asked twice. -/
theorem early_moves_on :
    let D : Directory := fun e => ((Overlay.trio fun _ _ => .unset).memberAt? e).map Contact.key
    ∃ home away, (seek (View.joined .early .middle) 18446744073709551611 .report).Unfolds {}
        D.Honest home (.found .middle) ∧
      home.map Question.target = [Contact.middle.endpoint, Contact.late.endpoint] ∧
      (home.map Question.target).Nodup ∧
      ({ view := View.alone .early
         next := .ask (.hop ⟨18446744073709551611, Contact.middle.endpoint, hopLimit - 1, none,
           .report⟩) } : Turn).Unfolds {} D.Honest away (.found .middle) ∧
      (away.map Question.target).Nodup := by
  intro D
  have hmiddle (h : Hop) (hasked : h.asked = Contact.middle.endpoint) : D.Honest (.hop h)
      (((View.joined .middle .late).answer? (.askOwner h.id)).map fun body =>
        (Message.new 0 body).toReply) :=
    Or.inr ⟨_, by rw [Question.target, hasked]; rfl, truthful_joined _ rfl rfl, rfl⟩
  have hlate (h : Hop) (hasked : h.asked = Contact.late.endpoint) : D.Honest (.hop h)
      (((View.joined .late .middle).answer? (.askOwner h.id)).map fun body =>
        (Message.new 0 body).toReply) :=
    Or.inr ⟨_, by rw [Question.target, hasked]; rfl, truthful_joined _ rfl rfl, rfl⟩
  have hhome := Turn.Unfolds.ask (s := {}) (v := View.alone .early)
    (t := seek (View.joined .early .middle) 18446744073709551611 .report) rfl (hmiddle _ rfl)
    (Turn.Unfolds.ask (v := View.alone .early) rfl (hlate _ rfl) (Turn.Unfolds.finish rfl))
  have haway := Turn.Unfolds.ask (s := {}) (v := View.alone .early)
    (t := { view := View.alone .early
            next := .ask (.hop ⟨18446744073709551611, Contact.middle.endpoint, hopLimit - 1, none,
              .report⟩) }) rfl (hmiddle _ rfl)
    (Turn.Unfolds.ask (v := View.alone .early) rfl (hlate _ rfl) (Turn.Unfolds.finish rfl))
  refine ⟨_, _, hhome, rfl, ?_, haway, ?_⟩
  · exact ((lookup_clockwise D {} _ _ .report rfl _ _).1 (truthful_joined _ rfl rfl) hhome).2.1
  · exact ((lookup_clockwise D {} (View.alone .early) _ .report rfl _ _).2 _ _ rfl haway).2.1

end Directory

end RingOverlay
