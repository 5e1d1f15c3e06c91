import Mathlib.Data.List.Infix
import RingOverlay.Proofs.Fallbacks
import RingOverlay.Proofs.Node.Blame
import RingOverlay.Proofs.Node.Exchange

/-!
# Answers That Come Late

Between a question and its end the view belongs to everybody. The predecessor that was
asked whether it is there may have been replaced in the meantime, and so may the successor
that was asked for its list; either may even have been replaced and come back. What was
read before the question was sent is then no reason to write anything.

A node therefore compares, at the end of the question, the contact that it asked with the
one that it has now. Nothing else of the past counts, so it makes no difference what has
happened in between: a predecessor is dropped for its own silence only, and a list is taken
from the successor only. Each time the fallbacks are written they all come from one report,
which is by the contact at the head of the list, and otherwise there are only fewer of them.
So at any time they come from one report, though the head may have changed since.

## Main definitions

* `View.Names`: A question goes to whom the view names for it.

## Theorems

* `names_begin`, `names_resume`: A turn asks whom its view names.
* `asked_or_names`: A question waits because it has waited before, or because somebody
  has just been asked whom the view names.
* `tail_sublist_or_reported`: Fallbacks become fewer, or are taken from one report.
* `lost_by_silence`: A predecessor is lost by its own silence only, or by joining a ring.
* `sends_happen`: A question is under way because it was so before, or has just been sent.
* `origin_of_live`: What is there after a history was brought by one of its events.
* `asked_of_resumed`: An answer carries the number under which its question was sent.
* `reported_of_live`: All the fallbacks come from one report.
* `late_answers_spare`: What late answers do to a view, after every history.
-/

namespace RingOverlay

namespace View

/-- A question goes to whom the view names for it. -/
def Names (v : View) : Question → Prop
  | .hop _ => True
  | .probe c => v.successor = c
  | .list c => v.successor = c
  | .pulse p => v.predecessor = some p

variable {v : View} {q : Question}

theorem names_askList (h : askList v = .ask q) : v.Names q := by
  unfold askList at h
  split_ifs at h
  cases h
  rfl

-- A claim that is believed puts another predecessor in the place of the one there was.
theorem heard_predecessor_ne_none (h : v.predecessor ≠ none) (body : Body) :
    (v.heard body).predecessor ≠ none := by
  cases body with
  | claim c =>
      rw [heard, notified_predecessor]
      split_ifs
      · exact Option.some_ne_none c
      · exact h
  | _ => exact h

theorem Kept.names {w : View} (h : v.Kept w) (hq : v.Names q) : w.Names q := by
  cases q with
  | hop hop => trivial
  | probe c => exact h.successor.trans hq
  | list c => exact h.successor.trans hq
  | pulse p => exact h.predecessor.trans hq

theorem names_of_asks {t : Task} (h : t.Asks v q) : v.Names q := by
  cases q with
  | hop hop => trivial
  | probe c => exact h.probe.2.symm
  | list c =>
      cases t with
      | fixSuccessors => exact Eq.symm h
      | _ => cases h
  | pulse p =>
      cases t with
      | checkPredecessor => exact h
      | _ => cases h

/-- The first turn of a task asks whom its view names. -/
theorem names_begin {t : Task} (h : (t.begin v).next = .ask q) : (t.begin v).view.Names q := by
  have hstays (ht : t.Stays) : (t.begin v).view.Names q :=
    (v.kept_begin t).names (names_of_asks ((light_begin ht v).next q h))
  cases t with
  | enter through alone =>
      rcases approach_next h with ⟨hop, rfl⟩
      trivial
  | _ => exact hstays fun _ _ h => by cases h

/-- So does the turn after a question. -/
theorem names_resume {s : Settings} {asked : Question} {answer : Option Reply}
    (h : (asked.resume s v answer).next = .ask q) : (asked.resume s v answer).view.Names q := by
  cases asked with
  | hop hop =>
      rcases hop_next h with ⟨later, rfl⟩
      trivial
  | probe c => cases answer <;> exact names_askList h
  | list c => cases answer <;> cases h
  | pulse p => cases answer <;> cases h

/-- The end of a question leaves the fallbacks as they are or drops some, unless it is a
    list that is reported by the successor. -/
theorem tail_resume (s : Settings) (v : View) (q : Question) (answer : Option Reply) :
    ((q.resume s v answer).view.successors.tail).Sublist v.successors.tail ∨
      ∃ c r, q = .list c ∧ answer = some r ∧ v.successor = c ∧
        (q.resume s v answer).view = v.refresh r.nodes s.ceiling := by
  cases q with
  | hop h =>
      rcases kept_or_joined_hop h v answer with hkept | ⟨c, hjoined⟩
      · exact Or.inl (by rw [Question.resume, hkept.successors])
      · exact Or.inl (by rw [Question.resume, hjoined]; exact List.nil_sublist _)
  | probe c =>
      cases answer with
      | some r =>
          refine Or.inl ?_
          simp only [Question.resume, introduce, probed]
          split_ifs <;> exact List.Sublist.refl _
      | none =>
          refine Or.inl ?_
          simp only [Question.resume, introduce, missed]
          split_ifs
          · change v.heirs.tail.Sublist v.successors.tail
            rcases v.heirs_cases with heq | heq <;> rw [heq]
            · exact List.nil_sublist _
            · exact (List.tail_sublist _).trans List.filter_sublist
          · exact List.Sublist.refl _
  | list c =>
      cases answer with
      | some r =>
          by_cases hc : v.successor = c
          · exact Or.inr ⟨c, r, rfl, rfl, hc, if_pos hc⟩
          · refine Or.inl ?_
            simp only [Question.resume, reported, if_neg hc]
            exact List.Sublist.refl _
      | none => exact Or.inl (List.Sublist.refl _)
  | pulse p =>
      refine Or.inl ?_
      cases answer with
      | some r => exact List.Sublist.refl _
      | none =>
          simp only [Question.resume, bereaved]
          split_ifs <;> exact List.Sublist.refl _

/-- The end of a question leaves the predecessor as it is, unless it is the predecessor
    that did not answer, or the node has joined a ring. -/
theorem predecessor_resume (s : Settings) (v : View) (q : Question) (answer : Option Reply) :
    (q.resume s v answer).view.predecessor = v.predecessor ∨
      (∃ p, q = .pulse p ∧ answer = none ∧ v.predecessor = some p) ∨
        ∃ c, (q.resume s v answer).view = joined v.me c := by
  cases q with
  | hop h =>
      rcases kept_or_joined_hop h v answer with hkept | hjoined
      · exact Or.inl hkept.predecessor
      · exact Or.inr (Or.inr hjoined)
  | probe c =>
      cases answer with
      | some r => exact Or.inl (v.probed_predecessor r.node)
      | none => exact Or.inl (v.missed_predecessor s.failureThreshold)
  | list c =>
      cases answer with
      | some r => exact Or.inl (v.reported_predecessor c r.nodes s.ceiling)
      | none => exact Or.inl rfl
  | pulse p =>
      cases answer with
      | some r => exact Or.inl rfl
      | none =>
          by_cases hp : v.predecessor = some p
          · exact Or.inr (Or.inl ⟨p, rfl, rfl, hp⟩)
          · refine Or.inl ?_
            simp only [Question.resume, bereaved, if_neg hp]

end View

namespace Node

section Events

variable (n : Node) (e : Event)

/-- A question waits because it has waited before, or because somebody has just been asked
    whom the view names. -/
theorem asked_or_names {q : Question} (hq : q ∈ (n.happen e).1.questions) :
    q ∈ n.questions ∨ (n.happen e).1.view.Names q := by
  have hcarried {s : Settings} {waiting : List Question} {turn : Turn} {r : Node × List Effect}
      (h : Carries s waiting turn r) (hnext : turn.next = .ask q → turn.view.Names q)
      (hq : q ∈ r.1.questions) : q ∈ waiting ∨ r.1.view.Names q := by
    rcases h.questions with heq | ⟨asked, hasked, heq⟩ <;> rw [heq] at hq
    · exact Or.inl hq
    · rcases List.mem_append.mp hq with hold | hnew
      · exact Or.inl hold
      · cases List.mem_singleton.mp hnew
        rw [h.view]
        exact Or.inr (hnext hasked)
  have hcomes := comes_happen n e
  generalize n.resumed e = ended, n.happen e = r at hcomes hq ⊢
  cases hcomes with
  | idle h => exact Or.inl (h.questions.subset hq)
  | heard body h => exact Or.inl (by rwa [h.questions] at hq)
  | begun h => exact hcarried h View.names_begin hq
  | ended asked waiting answer hline h =>
      refine (hcarried h View.names_resume hq).imp_left fun hwaits => ?_
      rw [hline]
      exact List.mem_cons_of_mem asked hwaits

/-- Fallbacks become fewer, or are taken from one report by the head of the list. -/
theorem tail_sublist_or_reported :
    (n.happen e).1.view.successors.tail.Sublist n.view.successors.tail ∨
      ∃ c r, n.resumed e = some (.list c, some r) ∧ n.view.successor = c ∧
        (n.happen e).1.view = n.view.refresh r.nodes n.settings.ceiling := by
  have hcomes := comes_happen n e
  generalize n.resumed e = ended, n.happen e = r at hcomes ⊢
  cases hcomes with
  | idle h => exact Or.inl (by rw [h.view])
  | heard body h => exact Or.inl (by rw [h.view, View.heard_successors])
  | @begun _ _ _ t _ h => exact Or.inl (by rw [h.view, (n.view.kept_begin t).successors])
  | ended q waiting answer hline h =>
      rw [h.view]
      rcases View.tail_resume n.settings n.view q answer with hfewer | ⟨c, r, rfl, rfl, hc, hview⟩
      · exact Or.inl hfewer
      · exact Or.inr ⟨c, r, rfl, hc, hview⟩

/-- A predecessor is lost by its own silence only, or by joining a ring. -/
theorem lost_by_silence {p : Contact} (hp : n.view.predecessor = some p)
    (hlost : (n.happen e).1.view.predecessor = none) :
    n.resumed e = some (.pulse p, none) ∨
      ∃ c, (n.happen e).1.view = View.joined n.view.me c := by
  have hcomes := comes_happen n e
  generalize n.resumed e = ended, n.happen e = r at hcomes hlost ⊢
  cases hcomes with
  | idle h =>
      rw [h.view, hp] at hlost
      cases hlost
  | heard body h =>
      have hleft : n.view.predecessor ≠ none := by
        rw [hp]
        exact Option.some_ne_none p
      rw [h.view] at hlost
      exact absurd hlost (View.heard_predecessor_ne_none hleft body)
  | @begun _ _ _ t _ h =>
      rw [h.view, (n.view.kept_begin t).predecessor, hp] at hlost
      cases hlost
  | ended q waiting answer hline h =>
      rcases View.predecessor_resume n.settings n.view q answer with
        hsame | ⟨d, rfl, rfl, hd⟩ | hjoined
      · rw [h.view, hsame, hp] at hlost
        cases hlost
      · rw [hp] at hd
        cases hd
        exact Or.inl rfl
      · rw [h.view]
        exact Or.inr hjoined

end Events

section Sent

theorem send_of_mem_posted {effects : List Effect} {dest : Endpoint} {m : Message}
    (h : (dest, m) ∈ posted effects) : Effect.send dest m ∈ effects := by
  rcases List.mem_filterMap.mp h with ⟨x, hx, heq⟩
  cases x with
  | send d a =>
      simp only [] at heq
      split_ifs at heq
      cases heq
      exact hx
  | _ => cases heq

/-- A question is under way because it was so before, or because it has just been sent. -/
theorem sends_happen {n : Node} (hn : n.Single) (e : Event) :
    (n.happen e).1.Single ∧ ∀ t ∈ (n.happen e).1.line, ∀ f, t.flight = some f →
      t ∈ n.line ∨
        .send t.question.target (.new f.seq t.question.body) ∈ (n.happen e).2 := by
  have htalks (h : n.Talks 2 (n.happen e)) := And.intro h.single fun t ht f hf =>
    (h.flights t ht f hf).imp_right send_of_mem_posted
  cases e with
  | receive refuses sender datagram =>
      have hline : (n.receive refuses sender datagram).1.line = n.line := by
        have h := receives_receive refuses n sender datagram
        generalize n.receive refuses sender datagram = r at h ⊢
        cases h <;> rfl
      refine ⟨?_, fun t ht f _ => Or.inl ?_⟩
      · rwa [happen, Single, hline]
      · rwa [happen, hline] at ht
  | _ => exact htalks (talks_happen hn trivial)

end Sent

section Live

variable (n : Node) (events : List Event)

/-- If an event leaves only what was there before and what it brings, then all that is
    there after a history was brought by one of its events. -/
theorem origin_of_live {α : Type} {n : Node} (kept : Node → Prop) (held : Node → α → Prop)
    (brings : Node → Event → α → Prop)
    (hstep : ∀ m, kept m → ∀ e, kept (m.happen e).1 ∧
      ∀ x, held (m.happen e).1 x → held m x ∨ brings m e x)
    (hkept : kept n) (hnone : ∀ x, ¬ held n x) (events : List Event) :
    kept (n.live events).1 ∧ ∀ x, held (n.live events).1 x →
      ∃ past e, past ++ [e] <+: events ∧ brings (n.live past).1 e x := by
  induction events using List.reverseRecOn with
  | nil => exact ⟨hkept, fun x hx => absurd hx (hnone x)⟩
  | append_singleton events e ih =>
      rcases hstep _ ih.1 e with ⟨hlast, horigin⟩
      rw [live_concat]
      refine ⟨hlast, fun x hx => ?_⟩
      rcases horigin x hx with hold | hnew
      · rcases ih.2 x hold with ⟨past, e', hpast, hbrings⟩
        exact ⟨past, e', hpast.trans (List.prefix_append events [e]), hbrings⟩
      · exact ⟨events, e, List.prefix_rfl, hnew⟩

/-- Whoever is asked by a question that waits was named for it by the view at some time
    before. -/
theorem named_of_live (hn : n.line = []) :
    ∀ q ∈ (n.live events).1.questions,
      ∃ past, past <+: events ∧ (n.live past).1.view.Names q := by
  intro q hq
  have hnone (q : Question) : q ∉ n.questions := by
    rw [questions, hn]
    exact List.not_mem_nil
  rcases (origin_of_live (fun _ => True) (fun m q => q ∈ m.questions)
    (fun m e q => (m.happen e).1.view.Names q)
    (fun m _ e => ⟨trivial, fun q hq => asked_or_names m e hq⟩) trivial hnone events).2 q hq with
    ⟨past, e, hpast, hnames⟩
  exact ⟨past ++ [e], hpast, by rwa [live_concat]⟩

/-- A question that is under way was sent under the number that it waits for. -/
theorem sent_of_live (hn : n.line = []) {t : Ticket} (ht : t ∈ (n.live events).1.line)
    {f : Flight} (hf : t.flight = some f) :
    ∃ past e, past ++ [e] <+: events ∧
      .send t.question.target (.new f.seq t.question.body) ∈ ((n.live past).1.happen e).2 := by
  have hsingle : n.Single := by
    rw [Single, hn]
    exact fun t ht => absurd ht List.not_mem_nil
  have hnone (x : Ticket × Flight) : ¬ (x.1 ∈ n.line ∧ x.1.flight = some x.2) := by
    rw [hn]
    exact fun h => absurd h.1 List.not_mem_nil
  have hstep (m : Node) (hm : m.Single) (e : Event) : (m.happen e).1.Single ∧
      ∀ x : Ticket × Flight, x.1 ∈ (m.happen e).1.line ∧ x.1.flight = some x.2 →
        (x.1 ∈ m.line ∧ x.1.flight = some x.2) ∨
          .send x.1.question.target (.new x.2.seq x.1.question.body) ∈ (m.happen e).2 := by
    rcases sends_happen hm e with ⟨hlast, hsent⟩
    exact ⟨hlast, fun x hx => (hsent x.1 hx.1 x.2 hx.2).imp_left fun hold => ⟨hold, hx.2⟩⟩
  exact (origin_of_live Single (fun m x => x.1 ∈ m.line ∧ x.1.flight = some x.2)
    (fun m e x => .send x.1.question.target (.new x.2.seq x.1.question.body) ∈ (m.happen e).2)
    hstep hsingle hnone events).2 (t, f) ⟨ht, hf⟩

/-- The answer to a question is of the kind that is waited for, and carries the number
    under which that question was sent. -/
theorem asked_of_resumed (hn : n.line = []) {e : Event} {q : Question} {r : Reply}
    (h : (n.live events).1.resumed e = some (q, some r)) :
    r.kind = q.expects ∧ ∃ past e', past ++ [e'] <+: events ∧
      .send q.target (.new r.seq q.body) ∈ ((n.live past).1.happen e').2 := by
  rcases resumed_eq_some.mp h with
    ⟨_, _, c, f, waiting, _, hline, ⟨hnone, _⟩ | ⟨_, rest, hr, hfinds⟩⟩
  · cases hnone
  · cases hr
    rcases mem_of_firstMatch hfinds.first with ⟨_, hseq, hkind, _⟩
    rw [hseq]
    have hhead : (⟨c, q, some f⟩ : Ticket) ∈ (n.live events).1.line := by
      rw [hline]
      exact List.mem_cons_self
    exact ⟨hkind, sent_of_live n events hn hhead rfl⟩

/-- The fallbacks of a node all come from one report, by who was at the head of the list
    at the time. -/
theorem reported_of_live (hn : n.view.successors.tail = []) :
    (n.live events).1.view.successors.tail = [] ∨
      ∃ past e c r kept, past ++ [e] <+: events ∧
        (n.live past).1.resumed e = some (.list c, some r) ∧
        (n.live (past ++ [e])).1.view.successors = c :: kept ∧ kept.Sublist r.nodes ∧
        (n.live events).1.view.successors.tail.Sublist kept := by
  induction events using List.reverseRecOn with
  | nil => exact Or.inl hn
  | append_singleton events e ih =>
      rcases tail_sublist_or_reported (n.live events).1 e with hfewer | ⟨c, r, hended, rfl, hview⟩
      · rw [← live_concat] at hfewer
        rcases ih with hnone | ⟨past, e', c, r, kept, hpast, hended, hlist, hkept, htail⟩
        · rw [hnone] at hfewer
          exact Or.inl (List.sublist_nil.mp hfewer)
        · exact Or.inr ⟨past, e', c, r, kept, hpast.trans (List.prefix_append events [e]), hended,
            hlist, hkept, hfewer.trans htail⟩
      · rw [← live_concat] at hview
        refine Or.inr ⟨events, e, _, r, _, List.prefix_rfl, hended, congrArg View.successors hview,
          View.fallbacks_sublist _ _ _, ?_⟩
        rw [hview]
        exact List.Sublist.refl _

end Live

/-- What late answers do to a view. A predecessor that does not answer is dropped if it is
    the predecessor still, and otherwise the view stays as it is, as it does if there is an
    answer. The list is rebuilt from one that is reported if the successor that was asked is
    the successor still, and otherwise the view stays as it is.

    Everybody who is asked has been the predecessor or the successor at some time before,
    and what counts as an answer carries the number under which that one was asked. Nothing
    else makes a predecessor disappear, except that the node joins a ring. Nothing
    else adds fallbacks, so that they all come from one report, which was by the head of
    the list when it was written. -/
theorem late_answers_spare (s : Settings) (me : Contact) (firstSeq : UInt64)
    (events : List Event) :
    let node (past : List Event) : Node := ((bound s me firstSeq).live past).1
    let n := node events
    (∀ q ∈ n.questions, ∃ past, past <+: events ∧ (node past).view.Names q) ∧
      (∀ e q r, n.resumed e = some (q, some r) →
        r.kind = q.expects ∧ ∃ past e', past ++ [e'] <+: events ∧
          .send q.target (.new r.seq q.body) ∈ ((node past).happen e').2) ∧
      (∀ e,
        let w := (n.happen e).1.view
        (∀ p, n.resumed e = some (.pulse p, none) →
            w = if n.view.predecessor = some p then { n.view with predecessor := none }
              else n.view) ∧
          (∀ p r, n.resumed e = some (.pulse p, some r) → w = n.view) ∧
          (∀ p, n.view.predecessor = some p → w.predecessor = none →
            n.resumed e = some (.pulse p, none) ∨ ∃ c, w = View.joined me c) ∧
          (∀ c r, n.resumed e = some (.list c, some r) →
            if n.view.successor = c then n.view.Rebuilt r.nodes s.ceiling w else w = n.view) ∧
          (∀ c, n.resumed e = some (.list c, none) → w = n.view) ∧
          (w.successors.tail.Sublist n.view.successors.tail ∨
            ∃ c r, n.resumed e = some (.list c, some r) ∧ n.view.successor = c ∧
              n.view.Rebuilt r.nodes s.ceiling w)) ∧
      (n.view.successors.tail = [] ∨
        ∃ past e c r kept, past ++ [e] <+: events ∧
          (node past).resumed e = some (.list c, some r) ∧
          (node (past ++ [e])).view.successors = c :: kept ∧ kept.Sublist r.nodes ∧
          n.view.successors.tail.Sublist kept) := by
  intro node n
  rcases changes_live (bound s me firstSeq) events with ⟨hsettings, hchanges⟩
  have hs : n.settings = s := hsettings
  have hme : n.view.me = me := hchanges.me
  refine ⟨named_of_live _ events rfl, fun e q r => asked_of_resumed _ events rfl,
    fun e => ⟨fun p h => ?_, fun p r h => ?_, fun p hp hlost => ?_, fun c r h => ?_,
      fun c h => ?_, ?_⟩, reported_of_live _ events rfl⟩
  · exact view_of_resumed h
  · exact view_of_resumed h
  · rw [← hme]
    exact lost_by_silence n e hp hlost
  · have hview := view_of_resumed h
    split_ifs with hc
    · rw [← hs]
      exact View.rebuilt_iff.mpr (hview.trans (if_pos hc))
    · exact hview.trans (if_neg hc)
  · exact view_of_resumed h
  · refine (tail_sublist_or_reported n e).imp_right ?_
    rintro ⟨c, r, hended, hc, hview⟩
    rw [hs] at hview
    exact ⟨c, r, hended, hc, View.rebuilt_iff.mpr hview⟩

/-- A predecessor that has taken over while the one before it was asked survives that
    one's silence. -/
example :
    let n := ((bound {} .late 0).live
      [ .receive openSocket Contact.early.endpoint (Wire.pack (.new 0 (.claim .early))),
        .begin openSocket 0 (.holder 0) .checkPredecessor,
        .receive openSocket Contact.middle.endpoint (Wire.pack (.new 0 (.claim .middle))) ]).1
    n.resumed (.poll openSocket 1000 (.holder 0)) = some (.pulse .early, none) ∧
      (n.poll openSocket 1000 (.holder 0)).1.view.predecessor = some .middle := by
  decide +kernel

end Node

end RingOverlay
