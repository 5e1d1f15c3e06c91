import RingOverlay.Proofs.Conduct

/-!
# The Course of a Lookup Among Strangers

What a lookup comes to when nothing at all is known of those it asks. They may stay
silent, name nobody, name somebody who cannot be reached, send the lookup back to
themselves or for ever onward, and the node's own socket may refuse. All that a lookup
goes by is the responses it gets, one after the other, and so its course is described by
these alone: the first response sends it to a second endpoint, the response from there
to a third, and so on.

A response does one of three things. It *passes* the lookup on if it names, not as the
owner, somebody who can be reached at another endpoint; it *resolves* the lookup if it
names somebody who can be reached as the owner; and otherwise it *breaks* the lookup
off, with a fault that says what is wrong with it. Which of several things wrong with a
response counts is said by `Response.Breaks`, no two cases of which overlap. That the
tests which an answer is put to draw the same lines, in the order in which they are made,
is said by the three lemmas about `Response.verdict`, and everything later cites those.

The course itself never stops: it goes on to whoever is named, rightly or wrongly. A
lookup follows it only as long as it is passed on and has questions left. So it stops
with the first response that does not pass it on, or when the questions are used up, and
that is all there is to say about it.

## Main definitions

* `Response`: What comes of a question.
* `Response.Passes`, `Response.Resolves`, `Response.Breaks`: What a response does to a
  lookup.
* `Peers.hop`, `Peers.response`: The course of a lookup and the responses along it.
* `Peers.Settles`: What a lookup comes to, by its course.
* `Purpose.conclude`, `View.cleared`: What is made of that.
* `Peers.Pursued`: A lookup that has been carried to its end.

## Theorems

* `verdict_of_passes`, `verdict_of_resolves`, `verdict_of_breaks`: How a response is
  judged.
* `passes_or_ends`: A response does one of the three things.
* `hop_succ`: A response sends a lookup to whoever it names.
* `settles_unique`: A lookup comes to one thing only.
* `settles_ok_iff`, `settles_error_iff`, `settles_hopLimit_iff`: When it comes to an owner,
  to a fault, or to being given up.
* `conduct_course`: A lookup follows its course and comes to what that says.
* `lookup_among_strangers`: The result of a lookup that starts at an endpoint.
-/

namespace RingOverlay

/-- What comes of a question. -/
inductive Response where
  /-- The socket refuses to send it. -/
  | refused (reason : Errno)
  /-- It is sent, and no answer comes in time. -/
  | silence
  | reply (r : Reply)
deriving DecidableEq, Repr

/-- What a lookup comes to: an owner, or a fault. -/
abbrev Finding := Except Fault Contact

theorem Contact.isSet_of_isRoutable {c : Contact} (h : c.isRoutable = true) : c.isSet = true := by
  simp only [isRoutable, Bool.and_eq_true] at h
  exact h.1.1.1

namespace Response

open Contact (isSet_of_isRoutable)

variable {id : Id} {asked : Endpoint} {owner : Contact} {f : Fault}

/-- The response passes a lookup on: it names somebody who can be reached, not as the
    owner, and at another endpoint than the one asked. -/
def Passes (asked : Endpoint) : Response → Prop
  | reply r => r.resolved = false ∧ r.node.isRoutable = true ∧ r.node.endpoint ≠ asked
  | _ => False

/-- The response resolves a lookup: it names somebody who can be reached as the owner. -/
def Resolves (owner : Contact) : Response → Prop
  | reply r => r.resolved = true ∧ r.node = owner ∧ owner.isRoutable = true
  | _ => False

/-- The response breaks a lookup off. Whether it resolves the lookup makes no difference
    if it names nobody, or somebody who cannot be reached. -/
inductive Breaks (id : Id) (asked : Endpoint) : Response → Fault → Prop where
  | refused (reason : Errno) : Breaks id asked (.refused reason) (.send asked reason)
  | silence : Breaks id asked .silence (.timeout asked .owner)
  | unset {r : Reply} (hkey : r.node.key = 0) : Breaks id asked (.reply r) (.unsetNode asked id)
  | unroutable {r : Reply} (hkey : r.node.key ≠ 0) (hroute : r.node.isRoutable = false) :
      Breaks id asked (.reply r) (.unroutableNode asked id r.node)
  | loop {r : Reply} (hresolved : r.resolved = false) (hroute : r.node.isRoutable = true)
      (hback : r.node.endpoint = asked) : Breaks id asked (.reply r) (.routingLoop asked id)

-- No single response tells that a lookup was passed on too often.
theorem Breaks.ne_hopLimit {a : Response} (h : a.Breaks id asked f) (id' : Id) (hops : Nat) :
    f ≠ .hopLimit id' hops := by
  cases h <;> exact Fault.noConfusion

/-- What a response means to the one who asked. A question that could not be sent is not
    judged, but its fault is as good as any. -/
def verdict (id : Id) (asked : Endpoint) : Response → Verdict
  | refused reason => .failed (.send asked reason)
  | silence => judge id asked none
  | reply r => judge id asked (some r)

-- Each of the three is seen in the judgement, so no response does two of them.
theorem verdict_of_passes {r : Reply} (h : (reply r).Passes asked) :
    (reply r).verdict id asked = .onward r.node.endpoint := by
  rcases h with ⟨hresolved, hroute, hback⟩
  simp only [verdict, judge, isSet_of_isRoutable hroute, hroute, hresolved, hback, Bool.not_true,
    Bool.false_eq_true, if_false]

theorem verdict_of_resolves {a : Response} (h : a.Resolves owner) :
    a.verdict id asked = .found owner := by
  cases a with
  | refused reason => exact h.elim
  | silence => exact h.elim
  | reply r =>
      rcases h with ⟨hresolved, rfl, hroute⟩
      simp only [verdict, judge, isSet_of_isRoutable hroute, hroute, hresolved, Bool.not_true,
        Bool.false_eq_true, if_false, if_true]

theorem verdict_of_breaks {a : Response} (h : a.Breaks id asked f) :
    a.verdict id asked = .failed f := by
  cases h with
  | refused reason => rfl
  | silence => rfl
  | unset hkey => simp [verdict, judge, Contact.isSet, hkey]
  | unroutable hkey hroute => simp [verdict, judge, Contact.isSet, hkey, hroute]
  | loop hresolved hroute hback =>
      simp only [verdict, judge, isSet_of_isRoutable hroute, hroute, hresolved, hback,
        Bool.not_true, Bool.false_eq_true, if_false, if_true]

theorem Passes.exists_reply {a : Response} (h : a.Passes asked) : ∃ r, a = .reply r := by
  cases a with
  | refused reason => exact h.elim
  | silence => exact h.elim
  | reply r => exact ⟨r, rfl⟩

/-- The response ends a lookup, in one of the two ways. -/
def Ends (id : Id) (asked : Endpoint) (a : Response) : Finding → Prop
  | .ok owner => a.Resolves owner
  | .error f => a.Breaks id asked f

/-- A response passes a lookup on or ends it. -/
theorem passes_or_ends (id : Id) (asked : Endpoint) (a : Response) :
    a.Passes asked ∨ ∃ result, a.Ends id asked result := by
  cases a with
  | refused reason => exact Or.inr ⟨.error _, .refused reason⟩
  | silence => exact Or.inr ⟨.error _, .silence⟩
  | reply r =>
      by_cases hkey : r.node.key = 0
      · exact Or.inr ⟨.error _, .unset hkey⟩
      cases hroute : r.node.isRoutable with
      | false => exact Or.inr ⟨.error _, .unroutable hkey hroute⟩
      | true =>
          cases hresolved : r.resolved with
          | true => exact Or.inr ⟨.ok r.node, hresolved, rfl, hroute⟩
          | false =>
              by_cases hback : r.node.endpoint = asked
              · exact Or.inr ⟨.error _, .loop hresolved hroute hback⟩
              · exact Or.inl ⟨hresolved, hroute, hback⟩

theorem verdict_of_ends {a : Response} {result : Finding} (h : a.Ends id asked result) :
    a.verdict id asked = match result with
      | .ok owner => .found owner
      | .error f => .failed f := by
  cases result with
  | ok owner => exact verdict_of_resolves h
  | error f => exact verdict_of_breaks h

theorem Ends.unique {a : Response} {result other : Finding} (h : a.Ends id asked result)
    (h' : a.Ends id asked other) : result = other := by
  have hsame := (verdict_of_ends h).symm.trans (verdict_of_ends h')
  cases result <;> cases other <;> cases hsame <;> rfl

theorem Ends.not_passes {a : Response} {result : Finding} (h : a.Ends id asked result) :
    ¬ a.Passes asked := by
  intro hpass
  rcases hpass.exists_reply with ⟨r, rfl⟩
  have hsame := (verdict_of_ends h).symm.trans (verdict_of_passes hpass)
  cases result <;> cases hsame

end Response

/-- Where a lookup goes next: to whoever the response names. -/
def Hop.toward (h : Hop) : Response → Hop
  | .reply r => { h with asked := r.node.endpoint, left := h.left - 1 }
  | .refused _ | .silence => h

/-- The turn in which a lookup ends. A question that cannot be sent ends the procedure
    whatever the lookup was for. -/
def Purpose.conclude (p : Purpose) (v : View) : Finding → Turn
  | .ok owner => p.succeed v owner
  | .error (.send dest reason) => { view := v, next := .finish (.failed (.send dest reason)) }
  | .error f => p.fail v f

/-- The view when a lookup has ended. If it was started from an entry of the view, and it
    was there that no answer came, the entry is cleared from the fingers. -/
def View.cleared (v : View) (start : Option Contact) : Finding → View
  | .error (.timeout peer .owner) =>
    match start with
    | some c => if c.endpoint = peer then v.forget c else v
    | none => v
  | _ => v

theorem View.cleared_none (v : View) (result : Finding) : v.cleared none result = v := by
  unfold cleared
  split <;> rfl

section Toward

variable (h : Hop) (a : Response)

@[simp] theorem Hop.toward_id : (h.toward a).id = h.id := by
  cases a <;> rfl

@[simp] theorem Hop.toward_start : (h.toward a).start = h.start := by
  cases a <;> rfl

@[simp] theorem Hop.toward_purpose : (h.toward a).purpose = h.purpose := by
  cases a <;> rfl

theorem Hop.toward_left {h : Hop} {a : Response} {left : Nat} (hpass : a.Passes h.asked)
    (hleft : h.left = left + 1) : (h.toward a).left = left := by
  rcases hpass.exists_reply with ⟨r, rfl⟩
  rw [toward, hleft, Nat.add_sub_cancel]

end Toward

namespace Peers

/-- What comes of a question that is asked after others. -/
def respond (p : Peers) (past : List Question) (q : Question) : Response :=
  match p.refuses past q.target with
  | some reason => .refused reason
  | none =>
    match p.answer past q with
    | some r => .reply r
    | none => .silence

/-- The course of a lookup: the question with a number, counted from zero, if it goes
    wherever it is sent. -/
def hop (p : Peers) : List Question → Hop → Nat → Hop
  | _, h, 0 => h
  | past, h, k + 1 => p.hop (past ++ [.hop h]) (h.toward (p.respond past (.hop h))) k

/-- The response to the question with a number. -/
def response (p : Peers) : List Question → Hop → Nat → Response
  | past, h, 0 => p.respond past (.hop h)
  | past, h, k + 1 => p.response (past ++ [.hop h]) (h.toward (p.respond past (.hop h))) k

/-- The first so many questions. -/
def hops (p : Peers) (past : List Question) (h : Hop) (k : Nat) : List Question :=
  (List.range k).map fun j => .hop (p.hop past h j)

/-- Each of the first so many responses passes the lookup on. -/
def PassedOn (p : Peers) (past : List Question) (h : Hop) (k : Nat) : Prop :=
  ∀ j < k, (p.response past h j).Passes (p.hop past h j).asked

/-- What a lookup comes to. It is passed on for a while until a response ends it, or it
    is passed on until the questions are used up. -/
def Settles (p : Peers) (past : List Question) (h : Hop) (result : Finding) : Prop :=
  (∃ k ≤ h.left, p.PassedOn past h k ∧
      (p.response past h k).Ends h.id (p.hop past h k).asked result) ∨
    result = .error (.hopLimit h.id hopLimit) ∧ p.PassedOn past h (h.left + 1)

/-- The lookup has been carried to its end: so many questions were sent, all but the last of
    which passed it on, and what was made of it is what its course says. -/
structure Pursued (p : Peers) (s : Settings) (v : View) (past : List Question) (h : Hop)
    (result : Finding) (n : Nat) : Prop where
  settles : p.Settles past h result
  bounded : n ≤ h.left + 1
  passedOn : p.PassedOn past h (n - 1)
  run : ({ view := v, next := .ask (.hop h) } : Turn).conduct s p past =
    ((h.purpose.conclude (v.cleared h.start result) result).conduct s p
      (past ++ p.hops past h n)).after (p.hops past h n)

variable {p : Peers} {past : List Question} {h : Hop}

theorem hop_succ (p : Peers) (past : List Question) (h : Hop) (k : Nat) :
    p.hop past h (k + 1) = (p.hop past h k).toward (p.response past h k) := by
  induction k generalizing past h with
  | zero => rfl
  | succ k ih => exact ih (past ++ [.hop h]) (h.toward (p.respond past (.hop h)))

-- A lookup looks for one point all along, and its start and its purpose stay.
theorem hop_id (p : Peers) (past : List Question) (h : Hop) (k : Nat) :
    (p.hop past h k).id = h.id := by
  induction k with
  | zero => rfl
  | succ k ih => rw [hop_succ, Hop.toward_id, ih]

theorem hop_start (p : Peers) (past : List Question) (h : Hop) (k : Nat) :
    (p.hop past h k).start = h.start := by
  induction k with
  | zero => rfl
  | succ k ih => rw [hop_succ, Hop.toward_start, ih]

theorem hop_purpose (p : Peers) (past : List Question) (h : Hop) (k : Nat) :
    (p.hop past h k).purpose = h.purpose := by
  induction k with
  | zero => rfl
  | succ k ih => rw [hop_succ, Hop.toward_purpose, ih]

theorem passedOn_succ {k : Nat} :
    p.PassedOn past h (k + 1) ↔ (p.respond past (.hop h)).Passes h.asked ∧
      p.PassedOn (past ++ [.hop h]) (h.toward (p.respond past (.hop h))) k :=
  Nat.forall_lt_succ_left'

theorem hops_succ (p : Peers) (past : List Question) (h : Hop) (k : Nat) :
    p.hops past h (k + 1) = .hop h ::
      p.hops (past ++ [.hop h]) (h.toward (p.respond past (.hop h))) k := by
  rw [hops, List.range_succ_eq_map, List.map_cons, List.map_map]
  rfl

/-- A lookup comes to one thing only: a response that ends it does not pass it on. -/
theorem settles_unique {result other : Finding} (hs : p.Settles past h result)
    (ho : p.Settles past h other) : result = other := by
  rcases hs with ⟨k, hk, hpassed, hends⟩ | ⟨rfl, hpassed⟩
  · rcases ho with ⟨j, hj, hpassed', hends'⟩ | ⟨rfl, hpassed'⟩
    · rcases Nat.lt_trichotomy j k with hlt | rfl | hlt
      · exact absurd (hpassed j hlt) hends'.not_passes
      · exact hends.unique hends'
      · exact absurd (hpassed' k hlt) hends.not_passes
    · exact absurd (hpassed' k (Nat.lt_succ_of_le hk)) hends.not_passes
  · rcases ho with ⟨j, hj, _, hends'⟩ | ⟨rfl, _⟩
    · exact absurd (hpassed j (Nat.lt_succ_of_le hj)) hends'.not_passes
    · rfl

theorem settles_ok_iff {owner : Contact} :
    p.Settles past h (.ok owner) ↔
      ∃ k < h.left + 1, p.PassedOn past h k ∧ (p.response past h k).Resolves owner := by
  constructor
  · rintro (⟨k, hk, hpassed, hends⟩ | ⟨hlimit, _⟩)
    · exact ⟨k, Nat.lt_succ_of_le hk, hpassed, hends⟩
    · cases hlimit
  · rintro ⟨k, hk, hpassed, hends⟩
    exact Or.inl ⟨k, Nat.le_of_lt_succ hk, hpassed, hends⟩

theorem settles_error_iff {f : Fault} :
    p.Settles past h (.error f) ↔
      (∃ k < h.left + 1, p.PassedOn past h k ∧
          (p.response past h k).Breaks h.id (p.hop past h k).asked f) ∨
        f = .hopLimit h.id hopLimit ∧ p.PassedOn past h (h.left + 1) := by
  constructor
  · rintro (⟨k, hk, hpassed, hends⟩ | ⟨hlimit, hpassed⟩)
    · exact Or.inl ⟨k, Nat.lt_succ_of_le hk, hpassed, hends⟩
    · exact Or.inr ⟨Except.error.inj hlimit, hpassed⟩
  · rintro (⟨k, hk, hpassed, hends⟩ | ⟨rfl, hpassed⟩)
    · exact Or.inl ⟨k, Nat.le_of_lt_succ hk, hpassed, hends⟩
    · exact Or.inr ⟨rfl, hpassed⟩

/-- A lookup is given up just if it is passed on until the questions are used up. -/
theorem settles_hopLimit_iff :
    p.Settles past h (.error (.hopLimit h.id hopLimit)) ↔ p.PassedOn past h (h.left + 1) := by
  constructor
  · rintro (⟨k, _, _, hends⟩ | ⟨_, hpassed⟩)
    · exact absurd rfl (Response.Breaks.ne_hopLimit hends h.id hopLimit)
    · exact hpassed
  · exact fun hpassed => Or.inr ⟨rfl, hpassed⟩

-- A lookup that is passed on comes to what it comes to from there.
theorem settles_of_passes {result : Finding} {left : Nat} (hleft : h.left = left + 1)
    (hpass : (p.respond past (.hop h)).Passes h.asked)
    (hs : p.Settles (past ++ [.hop h]) (h.toward (p.respond past (.hop h))) result) :
    p.Settles past h result := by
  have hless := Hop.toward_left hpass hleft
  have hid := h.toward_id (p.respond past (.hop h))
  rcases hs with ⟨k, hk, hpassed, hends⟩ | ⟨rfl, hpassed⟩
  · refine Or.inl ⟨k + 1, by omega, passedOn_succ.mpr ⟨hpass, hpassed⟩, ?_⟩
    rw [← hid]
    exact hends
  · refine Or.inr ⟨by rw [hid], passedOn_succ.mpr ⟨hpass, ?_⟩⟩
    rwa [hleft, ← hless]

end Peers

section Conduct

variable (p : Peers) {past : List Question} {h : Hop}

theorem respond_of_refused {q : Question} {reason : Errno}
    (hsend : p.refuses past q.target = some reason) : p.respond past q = .refused reason := by
  rw [Peers.respond, hsend]

theorem respond_of_sent {q : Question} (hsend : p.refuses past q.target = none) :
    p.respond past q = match p.answer past q with
      | some r => .reply r
      | none => .silence := by
  rw [Peers.respond, hsend]

-- The turn in which a lookup is ended by the response to a question that was sent.
theorem resume_of_ends (v : View) {result : Finding} (hsend : p.refuses past h.asked = none)
    (hends : (p.respond past (.hop h)).Ends h.id h.asked result) :
    h.resume v (p.answer past (.hop h)) = h.purpose.conclude (v.cleared h.start result) result := by
  rw [respond_of_sent p (q := .hop h) hsend] at hends
  cases hanswer : p.answer past (.hop h) with
  | none =>
      rw [hanswer] at hends
      cases result with
      | ok owner => exact hends.elim
      | error f =>
          cases hends
          rcases h with ⟨id, asked, left, _ | c, purpose⟩
          · rfl
          · simp only [Hop.resume, judge, Hop.atStart, View.cleared, Purpose.conclude]
            by_cases hstart : c.endpoint = asked <;> simp [Option.filter, hstart]
  | some r =>
      rw [hanswer] at hends
      have hjudge : judge h.id h.asked (some r) = _ := Response.verdict_of_ends hends
      rw [Hop.resume, hjudge]
      cases result with
      | ok owner => rfl
      | error f => cases hends <;> rfl

-- The turn in which it is passed on.
theorem resume_of_passes (v : View) (hsend : p.refuses past h.asked = none)
    (hpass : (p.respond past (.hop h)).Passes h.asked) :
    h.resume v (p.answer past (.hop h)) =
      match h.left with
      | 0 => h.purpose.fail v (.hopLimit h.id hopLimit)
      | _ + 1 => { view := v, next := .ask (.hop (h.toward (p.respond past (.hop h)))) } := by
  rw [respond_of_sent p (q := .hop h) hsend] at hpass ⊢
  cases hanswer : p.answer past (.hop h) with
  | none =>
      rw [hanswer] at hpass
      exact hpass.elim
  | some r =>
      rw [hanswer] at hpass
      have hjudge : judge h.id h.asked (some r) = _ := Response.verdict_of_passes hpass
      rw [Hop.resume, hjudge]
      cases hleft : h.left with
      | zero => rfl
      | succ left => simp only [Hop.toward, hleft, Nat.add_sub_cancel]

-- A lookup that is ended by its first response, or cannot even be started.
theorem pursued_of_ends (s : Settings) (v : View) {result : Finding}
    (hends : (p.respond past (.hop h)).Ends h.id h.asked result) :
    ∃ n, p.Pursued s v past h result n := by
  have hsettles : p.Settles past h result :=
    Or.inl ⟨0, Nat.zero_le _, fun j hj => (by cases hj), hends⟩
  cases hsend : p.refuses past h.asked with
  | some reason =>
      rw [respond_of_refused p (q := .hop h) hsend] at hends
      cases result with
      | ok owner => exact hends.elim
      | error f =>
          cases hends
          refine ⟨0, hsettles, Nat.zero_le _, fun j hj => (by cases hj), ?_⟩
          rw [Turn.conduct]
          simp only [Option.bind_none, Question.target, hsend, Purpose.conclude, conduct_finish]
          rfl
  | none =>
      refine ⟨1, hsettles, Nat.le_add_left 1 _, fun j hj => (by cases hj), ?_⟩
      rw [conduct_ask s p past v (.hop h) hsend, Question.resume, resume_of_ends p v hsend hends]
      rfl

-- A lookup that is passed on and has no questions left, or goes on.
theorem conduct_of_passes (s : Settings) (v : View)
    (hpass : (p.respond past (.hop h)).Passes h.asked) :
    ({ view := v, next := .ask (.hop h) } : Turn).conduct s p past =
      ((match h.left with
        | 0 => h.purpose.fail v (.hopLimit h.id hopLimit)
        | _ + 1 => { view := v, next := .ask (.hop (h.toward (p.respond past (.hop h)))) } :
          Turn).conduct s p (past ++ [.hop h])).after [.hop h] := by
  cases hsend : p.refuses past h.asked with
  | some reason =>
      rw [respond_of_refused p (q := .hop h) hsend] at hpass
      exact hpass.elim
  | none =>
      rw [conduct_ask s p past v (.hop h) hsend, Question.resume, resume_of_passes p v hsend hpass]

/-- A lookup follows its course, asks whom it is passed on to, and comes to what its course
    says. -/
theorem conduct_course (s : Settings) (v : View) :
    ∀ (left : Nat) (past : List Question) (h : Hop), h.left = left →
      ∃ result n, p.Pursued s v past h result n := by
  intro left
  -- On the questions left: only a lookup that is passed on with some left has a rest.
  induction left with
  | zero =>
      intro past h hleft
      rcases Response.passes_or_ends h.id h.asked (p.respond past (.hop h)) with
        hpass | ⟨result, hends⟩
      · refine ⟨.error (.hopLimit h.id hopLimit), 1, Or.inr ⟨rfl, ?_⟩, Nat.le_add_left 1 _,
          fun j hj => (by cases hj), ?_⟩
        · rw [hleft]
          exact Peers.passedOn_succ.mpr ⟨hpass, fun j hj => by cases hj⟩
        · rw [conduct_of_passes p s v hpass, hleft]
          rfl
      · exact ⟨result, pursued_of_ends p s v hends⟩
  | succ left ih =>
      intro past h hleft
      rcases Response.passes_or_ends h.id h.asked (p.respond past (.hop h)) with
        hpass | ⟨result, hends⟩
      · have hless := Hop.toward_left hpass hleft
        rcases ih (past ++ [.hop h]) (h.toward (p.respond past (.hop h))) hless with
          ⟨result, n, hsettles, hn, hpassed, hrun⟩
        refine ⟨result, n + 1, Peers.settles_of_passes hleft hpass hsettles, by omega, ?_, ?_⟩
        · cases n with
          | zero => exact fun j hj => by cases hj
          | succ m => exact Peers.passedOn_succ.mpr ⟨hpass, hpassed⟩
        · rw [conduct_of_passes p s v hpass, hleft]
          simp only []
          rw [hrun, Run.after_after, Peers.hops_succ, Hop.toward_purpose, Hop.toward_start,
            List.append_assoc]
          rfl
      · exact ⟨result, pursued_of_ends p s v hends⟩

end Conduct

/-- What a lookup reports. -/
def Outcome.ofFinding : Finding → Outcome
  | .ok owner => .found owner
  | .error f => .failed f

theorem conclude_report (v : View) (result : Finding) :
    Purpose.report.conclude v result = { view := v, next := .finish (.ofFinding result) } := by
  rcases result with f | owner
  · cases f <;> rfl
  · rfl

theorem Outcome.ofFinding_inj {result other : Finding} (h : ofFinding result = ofFinding other) :
    result = other := by
  cases result <;> cases other <;> cases h <;> rfl

-- A lookup that only reports, and that the node's own view has not started, has no
-- business with the view.
theorem resume_of_report {h : Hop} (hstart : h.start = none) (hpurpose : h.purpose = .report)
    (v w : View) (a : Option Reply) :
    (h.resume w a).view = w ∧ (h.resume w a).next = (h.resume v a).next := by
  rcases h with ⟨id, asked, left, start, purpose⟩
  cases hstart
  cases hpurpose
  simp only [Hop.resume, Hop.atStart, Option.filter_none]
  cases judge id asked a with
  | found owner => exact ⟨rfl, rfl⟩
  | onward next => cases left <;> exact ⟨rfl, rfl⟩
  | failed f => cases a <;> exact ⟨rfl, rfl⟩

namespace Peers

/-- What a lookup reports that was started at an endpoint, by its course. It makes at most
    64 requests, each of them to where it was started or to whom the response before names,
    and changes nothing, whatever else becomes of the view in the meantime. It finds an
    owner if some response resolves it after all those before have passed it on; it fails
    with the fault of the first response that does neither; and it gives up if 64 responses
    in a row have passed it on. -/
theorem lookup_among_strangers (s : Settings) (p : Peers) (v : View) (e : Endpoint) (id : Id) :
    let h : Hop := ⟨id, e, hopLimit - 1, none, .report⟩
    let r := ({ view := v, next := .ask (.hop h) } : Turn).conduct s p []
    let asked (k : Nat) : Endpoint := (p.hop [] h k).asked
    let response (k : Nat) : Response := p.response [] h k
    (r.view = v ∧ ∀ k w a, ((p.hop [] h k).resume w a).view = w ∧
      ((p.hop [] h k).resume w a).next = ((p.hop [] h k).resume v a).next) ∧
    (∃ n ≤ 64, r.asked.map (fun q => (q.target, q.body)) =
        (List.range n).map (fun k => (asked k, Body.askOwner id)) ∧ asked 0 = e ∧
          ∀ k, k + 1 < n → ∃ a, response k = .reply a ∧ (response k).Passes (asked k) ∧
            asked (k + 1) = a.node.endpoint) ∧
    (∀ owner, r.outcome = .found owner ↔
      ∃ k < 64, (∀ j < k, (response j).Passes (asked j)) ∧ (response k).Resolves owner) ∧
    (∀ f, r.outcome = .failed f ↔
      (∃ k < 64, (∀ j < k, (response j).Passes (asked j)) ∧ (response k).Breaks id (asked k) f) ∨
        f = .hopLimit id 64 ∧ ∀ j < 64, (response j).Passes (asked j)) ∧
    (r.outcome = .failed (.hopLimit id 64) ↔ ∀ j < 64, (response j).Passes (asked j)) ∧
    r.outcome ≠ .done := by
  intro h r asked response
  rcases conduct_course p s v 63 [] h rfl with ⟨result, n, hsettles, hn, hpassed, hrun⟩
  have hr : r = ⟨v, .ofFinding result, p.hops [] h n⟩ := by
    refine hrun.trans ?_
    rw [View.cleared_none, conclude_report, conduct_finish, Run.after, List.append_nil]
  have hcomes (f : Finding) : r.outcome = .ofFinding f ↔ p.Settles [] h f := by
    rw [hr]
    constructor
    · intro heq
      rwa [← Outcome.ofFinding_inj heq]
    · intro hf
      rw [settles_unique hsettles hf]
  have hasked (k : Nat) : asked (k + 1) = ((p.hop [] h k).toward (response k)).asked :=
    congrArg Hop.asked (p.hop_succ [] h k)
  refine ⟨⟨by rw [hr], fun k w a => ?_⟩, ⟨n, hn, ?_, rfl, fun k hk => ?_⟩,
    fun owner => (hcomes (.ok owner)).trans settles_ok_iff,
    fun f => (hcomes (.error f)).trans settles_error_iff,
    (hcomes (.error (.hopLimit id 64))).trans settles_hopLimit_iff, ?_⟩
  · exact resume_of_report (p.hop_start [] h k) (p.hop_purpose [] h k) v w a
  · rw [hr]
    simp only [hops, List.map_map]
    refine List.map_congr_left fun k _ => ?_
    rw [Function.comp_apply, Question.target, Question.body, p.hop_id]
  · have hpass : (response k).Passes (asked k) := hpassed k (by omega)
    rcases hpass.exists_reply with ⟨a, ha⟩
    exact ⟨a, ha, hpass, by rw [hasked, ha, Hop.toward]⟩
  · rw [hr]
    cases result <;> exact Outcome.noConfusion

end Peers

end RingOverlay
