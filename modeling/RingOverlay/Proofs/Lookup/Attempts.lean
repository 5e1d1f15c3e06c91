import Mathlib.Algebra.Order.BigOperators.Group.List
import Mathlib.Algebra.Order.Group.Nat
import RingOverlay.Proofs.Lookup.Course

/-!
# Attempts to Join a Ring

What somebody has learned who wants to join a ring and has asked one endpoint after the
other. Each attempt is a lookup of its own, and a lookup is seen here from outside: by the
inquiries that were made, each with what came of it. Nothing is said about how those who
were asked decide on their answers, so this is not a course that some peers determine but a
record, and any record may turn out to be one of a lookup or not.

Most findings of an attempt are no reason to stop. What stops is an owner, or a fault that
would meet every further attempt as well; those are the fatal ones. A start that has met
neither goes on until there is nobody left to ask, and only then it counts how many there
were. `Returns` lists the four ways in which it can end, together with the attempts that
lead to each of them.

## Main definitions

* `Inquiry`: Whom a lookup asked, and what came of it.
* `Onward`: Inquiries that pass a lookup on.
* `CameTo`: What the inquiries of a whole lookup come to.
* `Attempt`, `Attempt.Decides`: One lookup on the way into a ring, and when it is the last.
* `Vain`: Attempts none of which decides.
* `Returns`: What a start returns after its attempts.

## Theorems

* `resume_of_answer_ends`, `resume_of_answer_passes`: What an answer does to a lookup.
* `conclude_of_not_fatal`: A fault that is not fatal is a failure like any other.
* `length_of_cameTo`, `length_inquiries_le`: How much is asked.
* `Vain.came`, `Vain.failed`: An attempt more.
* `Returns.ofOwner`, `Returns.ofFatal`, `Returns.ofVain`: What is returned, by the attempts.
-/

namespace RingOverlay

/-- Whom a lookup asked, and what came of it. -/
structure Inquiry where
  asked : Endpoint
  response : Response
deriving DecidableEq, Repr

/-- Where a question went, if the socket did send it. -/
def Inquiry.sent? (x : Inquiry) : Option Endpoint :=
  match x.response with
  | .refused _ => none
  | .silence | .reply _ => some x.asked

/-- What comes of a question that has been sent. -/
def Response.ofAnswer : Option Reply → Response
  | some r => .reply r
  | none => .silence

/-- Inquiries that start at an endpoint and pass a lookup on to another: each of them names
    the endpoint of the one after it, and the last of them that other endpoint. -/
inductive Onward (e : Endpoint) : List Inquiry → Endpoint → Prop where
  | here : Onward e [] e
  | next {xs : List Inquiry} {last : Endpoint} {r : Reply} (h : Onward e xs last)
      (hpass : (Response.reply r).Passes last) :
      Onward e (xs ++ [⟨last, .reply r⟩]) r.node.endpoint

/-- What the inquiries of a lookup that starts at an endpoint come to. The last of them ends
    it, or there have been as many as there may be and it was passed on by all. -/
inductive CameTo (id : Id) (e : Endpoint) : List Inquiry → Finding → Prop where
  | ended {xs : List Inquiry} {last : Endpoint} {a : Response} {finding : Finding}
      (h : Onward e xs last) (hleft : xs.length < hopLimit) (hends : a.Ends id last finding) :
      CameTo id e (xs ++ [⟨last, a⟩]) finding
  | spent {xs : List Inquiry} {last : Endpoint} (h : Onward e xs last)
      (hspent : xs.length = hopLimit) : CameTo id e xs (.error (.hopLimit id hopLimit))

/-- One lookup on the way into a ring. -/
structure Attempt where
  /-- The endpoint through which the ring was to be joined. -/
  through : Endpoint
  inquiries : List Inquiry
  finding : Finding
deriving DecidableEq

/-- No attempt is made after this one: it has found an owner, or a fatal fault. -/
def Attempt.Decides (a : Attempt) : Prop := ∀ f, a.finding = .error f → f.isFatal = true

section Answers

variable {h : Hop} {answer : Option Reply}

/-- Peers that give the same answer to everything. -/
def Peers.saying (answer : Option Reply) : Peers := ⟨fun _ _ => none, fun _ _ => answer⟩

theorem respond_saying (answer : Option Reply) (past : List Question) (q : Question) :
    (Peers.saying answer).respond past q = .ofAnswer answer := by
  cases answer <;> rfl

/-- An answer that ends a lookup. -/
theorem resume_of_answer_ends (v : View) {finding : Finding}
    (hends : (Response.ofAnswer answer).Ends h.id h.asked finding) :
    h.resume v answer = h.purpose.conclude (v.cleared h.start finding) finding := by
  have hsend : (Peers.saying answer).refuses [] h.asked = none := rfl
  refine resume_of_ends (Peers.saying answer) v hsend ?_
  rwa [respond_saying]

/-- An answer that passes it on. -/
theorem resume_of_answer_passes (v : View) {r : Reply} (hpass : (Response.reply r).Passes h.asked) :
    h.resume v (some r) =
      match h.left with
      | 0 => h.purpose.fail v (.hopLimit h.id hopLimit)
      | left + 1 =>
        { view := v, next := .ask (.hop { h with asked := r.node.endpoint, left := left }) } := by
  have hsend : (Peers.saying (some r)).refuses [] h.asked = none := rfl
  refine (resume_of_passes (Peers.saying (some r)) v hsend hpass).trans ?_
  cases hleft : h.left with
  | zero => rfl
  | succ left =>
      rw [respond_saying]
      simp only [Response.ofAnswer, Hop.toward, hleft, Nat.add_sub_cancel]

/-- No answer is fatal, and neither is its absence. -/
theorem isFatal_of_answer_ends {id : Id} {asked : Endpoint} {f : Fault}
    (hends : (Response.ofAnswer answer).Ends id asked (.error f)) : f.isFatal = false := by
  cases answer <;> cases hends <;> rfl

/-- A fault that is not fatal is a failure like any other. -/
theorem conclude_of_not_fatal (p : Purpose) (v : View) {f : Fault} (h : f.isFatal = false) :
    p.conclude v (.error f) = p.fail v f := by
  cases f with
  | send peer reason => cases h
  | _ => rfl

end Answers

section Inquiries

variable {id : Id} {e : Endpoint} {xs : List Inquiry}

theorem length_of_cameTo {finding : Finding} (h : CameTo id e xs finding) :
    xs.length ≤ hopLimit := by
  cases h with
  | ended _ hleft _ =>
      rw [List.length_append]
      exact hleft
  | spent _ hspent => exact Nat.le_of_eq hspent

theorem length_inquiries_le {attempts : List Attempt}
    (h : ∀ a ∈ attempts, CameTo id a.through a.inquiries a.finding) :
    (attempts.flatMap Attempt.inquiries).length ≤ attempts.length * hopLimit := by
  have hsum := List.sum_le_card_nsmul (attempts.map fun a => a.inquiries.length) hopLimit
    (List.forall_mem_map.mpr fun a ha => length_of_cameTo (h a ha))
  rwa [List.length_map, Nat.nsmul_eq_mul, ← List.length_flatMap] at hsum

end Inquiries

namespace Attempt

variable {a : Attempt}

theorem decides_of_ok {c : Contact} (h : a.finding = .ok c) : a.Decides := fun f hf => by
  cases h.symm.trans hf

theorem decides_of_fatal {f : Fault} (h : a.finding = .error f) (hf : f.isFatal = true) :
    a.Decides := fun g hg => by
  cases h.symm.trans hg
  exact hf

theorem not_decides_of_error {f : Fault} (h : a.finding = .error f) (hf : f.isFatal = false) :
    ¬ a.Decides := fun hdecides => by
  cases hf.symm.trans (hdecides f h)

end Attempt

/-- Attempts to find a point that come to what they are said to, none of which decides. -/
structure Vain (id : Id) (attempts : List Attempt) : Prop where
  came : ∀ a ∈ attempts, CameTo id a.through a.inquiries a.finding
  undecided : ∀ a ∈ attempts, ¬ a.Decides

theorem vain_nil (id : Id) : Vain id [] :=
  ⟨fun _ ha => absurd ha List.not_mem_nil, fun _ ha => absurd ha List.not_mem_nil⟩

theorem came_concat {id : Id} {attempts : List Attempt} {a : Attempt}
    (h : ∀ b ∈ attempts, CameTo id b.through b.inquiries b.finding)
    (ha : CameTo id a.through a.inquiries a.finding) :
    ∀ b ∈ attempts ++ [a], CameTo id b.through b.inquiries b.finding :=
  List.forall_mem_append.mpr ⟨h, List.forall_mem_singleton.mpr ha⟩

theorem Vain.concat {id : Id} {attempts : List Attempt} (h : Vain id attempts) {e : Endpoint}
    {xs : List Inquiry} {f : Fault} (hcame : CameTo id e xs (.error f)) (hf : f.isFatal = false) :
    Vain id (attempts ++ [⟨e, xs, .error f⟩]) where
  came := came_concat h.came hcame
  undecided := List.forall_mem_append.mpr
    ⟨h.undecided, List.forall_mem_singleton.mpr (Attempt.not_decides_of_error rfl hf)⟩

-- So the last of them does not decide either.
theorem Vain.not_decides {id : Id} {attempts : List Attempt} (h : Vain id attempts) {a : Attempt}
    (ha : attempts.getLast? = some a) : ¬ a.Decides :=
  h.undecided a (List.mem_of_getLast? ha)

/-- What a start returns after its attempts, and whom the node follows then. -/
inductive Returns (me : Contact) (through : List Endpoint) (alone : Bool) :
    List Attempt → Contact → Outcome → Prop where
  /-- An owner has been found. -/
  | joined {vain : List Attempt} {e : Endpoint} {xs : List Inquiry} {c : Contact}
      (hvain : Vain me.key vain) (hcame : CameTo me.key e xs (.ok c))
      (horder : vain.map Attempt.through ++ [e] <+: through) :
      Returns me through alone (vain ++ [⟨e, xs, .ok c⟩]) c .done
  /-- A fault has been met that is fatal. -/
  | failed {vain : List Attempt} {e : Endpoint} {xs : List Inquiry} {f : Fault}
      (hvain : Vain me.key vain) (hcame : CameTo me.key e xs (.error f))
      (hfatal : f.isFatal = true) (horder : vain.map Attempt.through ++ [e] <+: through) :
      Returns me through alone (vain ++ [⟨e, xs, .error f⟩]) me (.failed f)
  /-- Nobody is left to ask, and the node may be alone. -/
  | founded {vain : List Attempt} (hvain : Vain me.key vain)
      (horder : vain.map Attempt.through = through) (halone : alone = true ∨ through = []) :
      Returns me through alone vain me .done
  /-- Nobody is left to ask, and the node may not. -/
  | gaveUp {vain : List Attempt} (hvain : Vain me.key vain)
      (horder : vain.map Attempt.through = through) (halone : ¬ (alone = true ∨ through = [])) :
      Returns me through alone vain me (.failed (.joinFailed through.length))

namespace Returns

variable {me c : Contact} {through : List Endpoint} {alone : Bool} {attempts : List Attempt}
  {outcome : Outcome}

theorem isPrefix (h : Returns me through alone attempts c outcome) :
    attempts.map Attempt.through <+: through := by
  cases h with
  | joined _ _ horder | failed _ _ _ horder =>
      rw [List.map_append]
      exact horder
  | founded _ horder _ | gaveUp _ horder _ => exact horder ▸ List.prefix_rfl

theorem came (h : Returns me through alone attempts c outcome) :
    ∀ a ∈ attempts, CameTo me.key a.through a.inquiries a.finding := by
  cases h with
  | joined hv hcame _ => exact came_concat hv.came hcame
  | failed hv hcame _ _ => exact came_concat hv.came hcame
  | founded hv _ _ => exact hv.came
  | gaveUp hv _ _ => exact hv.came

theorem undecided (h : Returns me through alone attempts c outcome) :
    ∀ a ∈ attempts.dropLast, ¬ a.Decides := by
  cases h with
  | joined hv _ _ | failed hv _ _ _ =>
      rw [List.dropLast_concat]
      exact hv.undecided
  | founded hv _ _ | gaveUp hv _ _ =>
      exact fun a ha => hv.undecided a (List.dropLast_subset _ ha)

/-- An owner that the last attempt has found is followed. -/
theorem ofOwner (h : Returns me through alone attempts c outcome) {a : Attempt} {d : Contact}
    (hlast : attempts.getLast? = some a) (hd : a.finding = .ok d) : outcome = .done ∧ c = d := by
  cases h with
  | joined _ _ _ | failed _ _ _ _ =>
      rw [List.getLast?_concat] at hlast
      cases hlast
      cases hd <;> exact ⟨rfl, rfl⟩
  | founded hv _ _ | gaveUp hv _ _ =>
      exact absurd (Attempt.decides_of_ok hd) (hv.not_decides hlast)

/-- A fatal fault that the last attempt has met is returned. -/
theorem ofFatal (h : Returns me through alone attempts c outcome) {a : Attempt} {f : Fault}
    (hlast : attempts.getLast? = some a) (hf : a.finding = .error f) (hfatal : f.isFatal = true) :
    outcome = .failed f := by
  cases h with
  | joined _ _ _ | failed _ _ _ _ =>
      rw [List.getLast?_concat] at hlast
      cases hlast
      cases hf <;> rfl
  | founded hv _ _ | gaveUp hv _ _ =>
      exact absurd (Attempt.decides_of_fatal hf hfatal) (hv.not_decides hlast)

/-- If no attempt decides then all have been made, and whether the start fails depends on
    whether the node may be alone. -/
theorem ofVain (h : Returns me through alone attempts c outcome)
    (hnone : ∀ a ∈ attempts, ¬ a.Decides) :
    attempts.map Attempt.through = through ∧
      if alone = true ∨ through = [] then outcome = .done ∧ c = me
      else outcome = .failed (.joinFailed through.length) := by
  cases h with
  | joined _ _ _ => exact absurd (Attempt.decides_of_ok rfl) (hnone _ List.mem_concat_self)
  | failed _ _ hfatal _ =>
      exact absurd (Attempt.decides_of_fatal rfl hfatal) (hnone _ List.mem_concat_self)
  | founded _ horder halone =>
      rw [if_pos halone]
      exact ⟨horder, rfl, rfl⟩
  | gaveUp _ horder halone =>
      rw [if_neg halone]
      exact ⟨horder, rfl⟩

end Returns

end RingOverlay
