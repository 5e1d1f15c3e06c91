import Mathlib.Algebra.Order.Group.Nat
import RingOverlay.Proofs.Overlay

/-!
# Failing Over

What a node does when the nodes after it fall silent. It probes its successor in every
cycle, and counts the probes in a row that went unanswered. When there are enough of
them it gives the successor up for the next one on its list, and begins to count anew.

So the number of cycles says everything. If it takes `limit` misses to give a successor
up, then after `m` silent cycles `m / limit` successors have been given up and the one
after them has missed `m % limit` probes. What is left of the list is the list without
those that were given up; they are gone from the fingers too, and nothing else has
changed.

This holds as long as everybody that was probed was silent. The cycle in which the last
of them is given up ends with a question to the next one, and that one may answer: then
the list is rebuilt, but the successor and the count are what they would have been. And
if a probe is answered before it has come to that, the count begins anew as well, and
the successor stays unless the answer names somebody nearer.

A threshold of zero gives a successor up at the first miss, just as a threshold of one
does.

## Main definitions

* `View.cycle`, `View.cycles`: What a node believes after one cycle, or several.
* `Settings.missLimit`: How many misses it takes to give a successor up.
* `Peers.Mute`: Somebody whom everything reaches and who answers nothing.
* `View.failedOver`: The view once some successors were given up.
* `View.afterMisses`: The view after some probes in a row went unanswered.

## Theorems

* `view_conduct_introduce`: At the end of a cycle only the list may change.
* `cycle_of_answered`, `cycle_of_mute`: What a cycle comes to.
* `promote_failedOver`: One successor more is given up.
* `missed_afterMisses`: One probe more goes unanswered.
* `cycles_afterMisses`: So do several.
* `failover_of_mute`: Which successor is followed after how many cycles.
-/

namespace RingOverlay

section Counting

variable {limit m : Nat}

-- One more, as long as the count is not full.
theorem div_mod_succ_of_lt (h : m % limit + 1 < limit) :
    (m + 1) / limit = m / limit ∧ (m + 1) % limit = m % limit + 1 := by
  have hdiv := Nat.mod_add_div m limit
  exact (Nat.div_mod_unique (by omega)).mpr ⟨by omega, h⟩

-- One more, and the count is full.
theorem div_mod_succ_of_eq (h : m % limit + 1 = limit) :
    (m + 1) / limit = m / limit + 1 ∧ (m + 1) % limit = 0 := by
  have hdiv := Nat.mod_add_div m limit
  refine (Nat.div_mod_unique (by omega)).mpr ⟨?_, by omega⟩
  rw [Nat.mul_add]
  omega

end Counting

/-- How many misses in a row it takes to give a successor up: at least one. -/
def Settings.missLimit (s : Settings) : Nat := max 1 s.failureThreshold

theorem Settings.missLimit_pos (s : Settings) : 0 < s.missLimit := Nat.le_max_left _ _

theorem Settings.missLimit_le_iff (s : Settings) {m : Nat} (hm : 0 < m) :
    s.missLimit ≤ m ↔ s.failureThreshold ≤ m := by
  rw [missLimit]
  omega

/-- Whatever is sent to a contact can be sent, and is never answered in time. -/
structure Peers.Mute (p : Peers) (c : Contact) : Prop where
  sends : ∀ past, p.refuses past c.endpoint = none
  silent : ∀ past q, q.target = c.endpoint → p.answer past q = none

namespace View

/-- What a node believes after it has checked its successor, if nothing else happens in
    the meantime. -/
def cycle (s : Settings) (v : View) (p : Peers) : View :=
  ((Task.stabilize.begin v).conduct s p []).view

/-- What it believes after several cycles. In each of them the others may behave in a
    different way. -/
def cycles (s : Settings) (v : View) (ps : List Peers) : View := ps.foldl (cycle s) v

/-- The successors from a place in the list on. If there are none, the node itself is the
    only one. -/
def successorsFrom (v : View) (given : Nat) : List Contact :=
  match v.successors.drop given with
  | [] => [v.me]
  | c :: rest => c :: rest

/-- The view once the first so many successors were given up, and the one after them has
    missed some probes. -/
def failedOver (v : View) (given misses : Nat) : View :=
  { v with
    successor := (v.successorsFrom given).headD v.me
    successors := v.successorsFrom given
    fingers := v.fingers.map fun f => if f ∈ v.successors.take given then Contact.unset else f
    misses := misses }

/-- The view after so many probes in a row went unanswered, if it takes `limit` of them to
    give a successor up. -/
def afterMisses (v : View) (limit m : Nat) : View := v.failedOver (m / limit) (m % limit)

section Cycle

variable {v : View} {s : Settings} {p : Peers}

/-- At the end of a cycle the node makes itself known and asks for a list. Nothing but its
    own list may change by that, and only if the successor answers. -/
theorem view_conduct_introduce (s : Settings) (p : Peers) (past : List Question) (w : View) :
    ((introduce w).conduct s p past).view = w ∨
      ∃ r, p.answer past (.list w.successor) = some r ∧
        ((introduce w).conduct s p past).view = w.refresh r.nodes s.ceiling := by
  cases hset : w.successor.isSet with
  | false =>
      have hturn : introduce w = { view := w, next := .finish .done } := by
        simp [introduce, askList, hset]
      rw [hturn, conduct_finish]
      exact Or.inl rfl
  | true =>
      have hturn : introduce w =
          { view := w
            claim := some w.successor.endpoint
            next := .ask (.list w.successor) } := by
        simp [introduce, askList, hset]
      rw [hturn, Turn.conduct]
      cases hsend : p.refuses past w.successor.endpoint with
      | some reason =>
          refine Or.inl ?_
          simp only [Option.bind_some, hsend, Option.map_some]
      | none =>
          simp only [Option.bind_some, hsend, Option.map_none, Question.target]
          cases hanswer : p.answer past (.list w.successor) with
          | none =>
              refine Or.inl ?_
              simp only [Question.resume, conduct_finish]
          | some r =>
              refine Or.inr ⟨r, rfl, ?_⟩
              simp only [Question.resume, conduct_finish, reported, if_pos]

/-- A cycle is what becomes of the probe. -/
theorem cycle_eq (hset : v.successor.isSet = true)
    (hsend : p.refuses [] v.successor.endpoint = none) :
    v.cycle s p = (((Question.probe v.successor).resume s v
      (p.answer [] (.probe v.successor))).conduct s p [.probe v.successor]).view := by
  rw [cycle, Task.begin, if_pos hset, conduct_ask _ _ _ _ _ hsend]
  rfl

/-- A probe that is answered without naming anybody nearer ends a series of misses. The
    successor stays, and but for the list so does everything else. -/
theorem cycle_of_answered (hset : v.successor.isSet = true)
    (hsend : p.refuses [] v.successor.endpoint = none) {r : Reply}
    (hanswer : p.answer [] (.probe v.successor) = some r)
    (hfar : (r.node.isRoutable &&
      (Arc.between v.key v.successor.key).contains r.node.key) = false) :
    ∃ list, v.cycle s p = { v with misses := 0, successors := list } := by
  have hprobed : v.probed r.node = { v with misses := 0 } := by
    simp only [probed]
    exact if_neg (Bool.eq_false_iff.mp hfar)
  rw [cycle_eq hset hsend, hanswer, Question.resume, hprobed]
  rcases view_conduct_introduce s p [.probe v.successor] { v with misses := 0 } with
    hview | ⟨r, _, hview⟩
  · exact ⟨v.successors, hview⟩
  · exact ⟨_, hview⟩

/-- A probe of somebody mute is a miss. If the one who is followed then is mute as well,
    nothing else comes of the cycle. -/
theorem cycle_of_mute (hset : v.successor.isSet = true) (hmute : p.Mute v.successor) :
    (∃ list, v.cycle s p = { v.missed s.failureThreshold with successors := list }) ∧
      (p.Mute (v.missed s.failureThreshold).successor →
        v.cycle s p = v.missed s.failureThreshold) := by
  have hsilent := hmute.silent [] (.probe v.successor) rfl
  rw [cycle_eq hset (hmute.sends []), hsilent, Question.resume]
  rcases view_conduct_introduce s p [.probe v.successor] (v.missed s.failureThreshold) with
    hview | ⟨r, hanswer, hview⟩
  · exact ⟨⟨_, hview⟩, fun _ => hview⟩
  · refine ⟨⟨_, hview⟩, fun hnext => ?_⟩
    cases (hnext.silent _ _ rfl).symm.trans hanswer

end Cycle

section Misses

variable {v : View} {s : Settings} {given misses m : Nat}

theorem successorsFrom_of_lt (h : given < v.successors.length) :
    v.successorsFrom given = v.successors[given] :: v.successors.drop (given + 1) := by
  rw [successorsFrom, List.drop_eq_getElem_cons h]

theorem headD_successorsFrom (v : View) (given : Nat) :
    (v.successorsFrom given).headD v.me = v.successors[given]?.getD v.me := by
  rw [← List.head?_drop, successorsFrom]
  cases v.successors.drop given <;> rfl

theorem successor_failedOver (h : given < v.successors.length) :
    (v.failedOver given misses).successor = v.successors[given] := by
  simp only [failedOver, successorsFrom_of_lt h, List.headD_cons]

theorem heirs_failedOver (hset : ∀ c ∈ v.successors, c.isSet = true)
    (h : given < v.successors.length) :
    (v.failedOver given misses).heirs = v.successorsFrom (given + 1) := by
  have hkept : (v.successors.drop (given + 1)).filter Contact.isSet =
      v.successors.drop (given + 1) :=
    List.filter_eq_self.mpr fun c hc => hset c (List.mem_of_mem_drop hc)
  have htail : (v.failedOver given misses).successors.tail = v.successors.drop (given + 1) :=
    congrArg List.tail (successorsFrom_of_lt h)
  rw [heirs, htail, hkept]
  rfl

/-- One successor more is given up. -/
theorem promote_failedOver (hset : ∀ c ∈ v.successors, c.isSet = true)
    (h : given < v.successors.length) :
    (v.failedOver given misses).promote = v.failedOver (given + 1) 0 := by
  -- Who was forgotten before stays forgotten, and the one given up now is forgotten too.
  have hfingers : (v.failedOver given misses).fingers.map
      (fun f => if f = v.successors[given] then Contact.unset else f) =
        (v.failedOver (given + 1) 0).fingers := by
    simp only [failedOver, Vector.map_map]
    refine Vector.map_congr_left fun f _ => ?_
    have hmem : f ∈ v.successors.take (given + 1) ↔
        f ∈ v.successors.take given ∨ f = v.successors[given] := by
      rw [List.take_add_one, List.mem_append, List.getElem?_eq_getElem h, Option.toList_some,
        List.mem_singleton]
    by_cases hold : f ∈ v.successors.take given
    · simp [hold, hmem]
    · simp [hold, hmem]
  rw [promote, heirs_failedOver hset h, successor_failedOver h, forget, hfingers]
  rfl

/-- One probe more goes unanswered. -/
theorem missed_afterMisses (hset : ∀ c ∈ v.successors, c.isSet = true)
    (h : m / s.missLimit < v.successors.length) :
    (v.afterMisses s.missLimit m).missed s.failureThreshold =
      v.afterMisses s.missLimit (m + 1) := by
  have hmod := Nat.mod_lt m s.missLimit_pos
  have hcounted : (v.afterMisses s.missLimit m).missed s.failureThreshold =
      if s.failureThreshold ≤ m % s.missLimit + 1
        then (v.failedOver (m / s.missLimit) (m % s.missLimit + 1)).promote
        else v.failedOver (m / s.missLimit) (m % s.missLimit + 1) := rfl
  have henough := s.missLimit_le_iff (Nat.succ_pos (m % s.missLimit))
  rw [hcounted]
  rcases Nat.lt_or_eq_of_le (Nat.succ_le_of_lt hmod) with hfew | hmany
  · rcases div_mod_succ_of_lt hfew with ⟨hdiv, hrest⟩
    rw [if_neg (mt henough.mpr (Nat.not_le.mpr hfew)), afterMisses, hdiv, hrest]
  · rcases div_mod_succ_of_eq hmany with ⟨hdiv, hrest⟩
    rw [if_pos (henough.mp (Nat.le_of_eq hmany.symm)), promote_failedOver hset h, afterMisses,
      hdiv, hrest]

/-- No probe has gone unanswered yet. -/
theorem afterMisses_zero (hmisses : v.misses = 0)
    (hhead : v.successors.head? = some v.successor) (limit : Nat) :
    v.afterMisses limit 0 = v := by
  have hfrom : v.successorsFrom 0 = v.successors := by
    rw [successorsFrom, List.drop_zero]
    split
    · rename_i hnil
      rw [hnil] at hhead
      cases hhead
    · rename_i hcons
      exact hcons.symm
  have hfingers : v.fingers.map (fun f =>
      if f ∈ v.successors.take 0 then Contact.unset else f) = v.fingers := by
    simp
  rw [afterMisses, Nat.zero_div, Nat.zero_mod, failedOver, hfrom, hfingers,
    List.headD_eq_head?_getD, hhead, Option.getD_some, ← hmisses]

end Misses

section Run

variable {v : View} {s : Settings} {j m : Nat} {p : Peers} {ps : List Peers}

-- As long as not all have been given up, one of them is followed.
theorem given_lt {limit : Nat} (hj : j ≤ v.successors.length) (hm : m < j * limit) :
    m / limit < v.successors.length :=
  Nat.lt_of_lt_of_le (Nat.div_lt_of_lt_mul (by rwa [Nat.mul_comm])) hj

theorem successor_mem {limit : Nat} (hj : j ≤ v.successors.length) (hm : m < j * limit) :
    (v.afterMisses limit m).successor ∈ v.successors.take j := by
  have hlt : m / limit < j := Nat.div_lt_of_lt_mul (by rwa [Nat.mul_comm])
  rw [afterMisses, successor_failedOver (given_lt hj hm)]
  exact List.mem_take_iff_getElem.mpr ⟨m / limit, by omega, rfl⟩

/-- A cycle in which the one who is followed is mute. -/
theorem cycle_afterMisses (hset : ∀ c ∈ v.successors, c.isSet = true)
    (hj : j ≤ v.successors.length) (hmute : ∀ c ∈ v.successors.take j, p.Mute c)
    (hm : m < j * s.missLimit) :
    (∃ list, (v.afterMisses s.missLimit m).cycle s p =
        { v.afterMisses s.missLimit (m + 1) with successors := list }) ∧
      (m + 1 < j * s.missLimit →
        (v.afterMisses s.missLimit m).cycle s p = v.afterMisses s.missLimit (m + 1)) := by
  have hfollowed := successor_mem hj hm
  rcases cycle_of_mute (s := s) (hset _ (List.mem_of_mem_take hfollowed))
    (hmute _ hfollowed) with ⟨hlist, hsame⟩
  rw [missed_afterMisses hset (given_lt hj hm)] at hlist hsame
  exact ⟨hlist, fun hnext => hsame (hmute _ (successor_mem hj hnext))⟩

/-- Several cycles, as long as not all that are mute have been given up. -/
theorem cycles_afterMisses (hset : ∀ c ∈ v.successors, c.isSet = true)
    (hj : j ≤ v.successors.length) (hmute : ∀ p ∈ ps, ∀ c ∈ v.successors.take j, p.Mute c)
    (hm : m + ps.length < j * s.missLimit) :
    (v.afterMisses s.missLimit m).cycles s ps =
      v.afterMisses s.missLimit (m + ps.length) := by
  induction ps generalizing m with
  | nil => rfl
  | cons p ps ih =>
      rw [List.length_cons] at hm
      have hfirst := (cycle_afterMisses (s := s) (m := m) hset hj
        (hmute p List.mem_cons_self) (by omega)).2 (by omega)
      have hrest := ih (m := m + 1)
        (fun p' hp' => hmute p' (List.mem_cons_of_mem p hp')) (by omega)
      rw [cycles, List.foldl_cons, hfirst, List.length_cons, ← Nat.add_assoc m,
        Nat.add_right_comm m]
      exact hrest

theorem cycles_concat (v : View) (s : Settings) (before : List Peers) (p : Peers) :
    v.cycles s (before ++ [p]) = (v.cycles s before).cycle s p := by
  rw [cycles, List.foldl_append]
  rfl

/-- The cycle in which the last of those that are mute is given up. The one who is
    followed then may answer, and report a list. -/
theorem cycles_all (hstart : v.afterMisses s.missLimit 0 = v)
    (hset : ∀ c ∈ v.successors, c.isSet = true) (hj : j ≤ v.successors.length)
    (hmute : ∀ p ∈ ps, ∀ c ∈ v.successors.take j, p.Mute c)
    (hps : ps.length = j * s.missLimit) :
    ∃ list, v.cycles s ps = { v.failedOver j 0 with successors := list } := by
  have hend : v.afterMisses s.missLimit ps.length = v.failedOver j 0 := by
    rw [afterMisses, hps, Nat.mul_div_cancel _ s.missLimit_pos, Nat.mul_mod_left]
  -- The last cycle is taken apart from those before it: only its end may bring a list.
  rcases List.eq_nil_or_concat' ps with rfl | ⟨before, p, rfl⟩
  · refine ⟨v.successors, ?_⟩
    rw [← hend, List.length_nil, hstart]
    rfl
  · rw [List.length_append, List.length_singleton] at hps hend
    have hfirst : ∀ p ∈ before, ∀ c ∈ v.successors.take j, p.Mute c :=
      fun p hp => hmute p (List.mem_append_left _ hp)
    have hbefore := cycles_afterMisses (s := s) (m := 0) hset hj hfirst (by omega)
    rw [hstart, Nat.zero_add] at hbefore
    have hlast := (cycle_afterMisses (s := s) (m := before.length) hset hj
      (hmute p (List.mem_append_right _ (List.mem_singleton_self p))) (by omega)).1
    rwa [hend, ← hbefore, ← cycles_concat] at hlast

/-- A node whose first `j` successors are mute gives them up one after the other, each after
    as many cycles as it takes misses, and at least one. Before the last of them is given up
    the list, the count, the successor and the fingers are those that the number of cycles
    says, and all else is as it was. In the very cycle in which the last is given up the
    next one on the list is followed, or the node itself if there is none; only then may
    the list have been reported by somebody.

    And whatever a node believes, a probe that is answered without naming anybody nearer
    who can be reached ends a series of misses, and leaves the successor. -/
theorem failover_of_mute (hmisses : v.misses = 0)
    (hhead : v.successors.head? = some v.successor)
    (hset : ∀ c ∈ v.successors, c.isSet = true) (hj : j ≤ v.successors.length)
    (hmute : ∀ p ∈ ps, ∀ c ∈ v.successors.take j, p.Mute c) :
    let limit := s.missLimit
    let w := v.cycles s ps
    (ps.length < j * limit →
      v.successors[ps.length / limit]? = some w.successor ∧
        w = { v with
          successor := w.successor
          successors := v.successors.drop (ps.length / limit)
          fingers := v.fingers.map fun f =>
            if f ∈ v.successors.take (ps.length / limit) then Contact.unset else f
          misses := ps.length % limit }) ∧
    (ps.length = j * limit →
      w = { v with
        successor := v.successors[j]?.getD v.me
        successors := w.successors
        fingers := v.fingers.map fun f =>
          if f ∈ v.successors.take j then Contact.unset else f
        misses := 0 }) ∧
    ∀ (u : View) (p : Peers) (r : Reply), u.successor.isSet = true →
      p.refuses [] u.successor.endpoint = none →
        p.answer [] (.probe u.successor) = some r →
          (r.node.isRoutable &&
            (Arc.between u.key u.successor.key).contains r.node.key) = false →
            ∃ list, u.cycle s p = { u with misses := 0, successors := list } := by
  intro limit w
  have hstart : v.afterMisses limit 0 = v := afterMisses_zero hmisses hhead limit
  refine ⟨fun hps => ?_, fun hps => ?_,
    fun u p r hfollows hsend hanswer hfar => cycle_of_answered hfollows hsend hanswer hfar⟩
  · have hlt := given_lt hj hps
    have hw : w = v.afterMisses limit ps.length := by
      have hrun := cycles_afterMisses (s := s) (m := 0) hset hj hmute (by rwa [Nat.zero_add])
      rwa [hstart, Nat.zero_add] at hrun
    have hfrom : v.successorsFrom (ps.length / limit) =
        v.successors.drop (ps.length / limit) := by
      rw [successorsFrom_of_lt hlt, List.drop_eq_getElem_cons hlt]
    refine ⟨?_, ?_⟩
    · rw [hw, afterMisses, successor_failedOver hlt, List.getElem?_eq_getElem hlt]
    · rw [hw, ← hfrom]
      rfl
  · rcases cycles_all hstart hset hj hmute hps with ⟨list, hlist⟩
    rw [← headD_successorsFrom]
    have hw : w = { v.failedOver j 0 with successors := list } := hlist
    rw [hw]
    rfl

end Run

/-- The slot that reaches furthest. -/
def lastSlot : Fin slotCount := ⟨63, by decide⟩

/-- `early` follows `middle`, falls back on `late`, and has `middle` for a finger. -/
def leaning : View :=
  { (View.joined .early .middle).setFinger lastSlot .middle with successors := [.middle, .late] }

/-- Everything can be sent, and nobody answers. -/
def silence : Peers := ⟨fun _ _ => none, fun _ _ => none⟩

/-- With two misses for each successor, `late` has missed one after three cycles, and
    `middle` is forgotten. -/
theorem leaning_follows_late :
    let w := leaning.cycles { failureThreshold := 2 } [silence, silence, silence]
    leaning.misses = 0 ∧ leaning.successors.head? = some leaning.successor ∧
      (∀ c ∈ leaning.successors, c.isSet = true) ∧ 2 ≤ leaning.successors.length ∧
      (∀ p ∈ [silence, silence, silence], ∀ c ∈ leaning.successors.take 2, p.Mute c) ∧
      w.successor = .late ∧ w.successors = [.late] ∧ w.misses = 1 ∧
      w.finger lastSlot = Contact.unset := by
  intro w
  have hset : ∀ c ∈ leaning.successors, c.isSet = true := by decide
  have hmute : ∀ p ∈ [silence, silence, silence], ∀ c ∈ leaning.successors.take 2, p.Mute c := by
    intro p hp c _
    have hsilence : p = silence := by simpa using hp
    rw [hsilence]
    exact ⟨fun _ => rfl, fun _ _ _ => rfl⟩
  have hfailover := failover_of_mute (v := leaning) (s := { failureThreshold := 2 }) (j := 2)
    rfl rfl hset (by decide) hmute
  rcases hfailover.1 (by decide) with ⟨hsucc, hw⟩
  have hlate : w.successor = .late := (Option.some.inj hsucc).symm
  refine ⟨rfl, rfl, hset, by decide, hmute, hlate, ?_, ?_, ?_⟩
  · exact (congrArg View.successors hw).trans (by decide)
  · exact (congrArg View.misses hw).trans (by decide)
  · exact (congrArg (View.finger · lastSlot) hw).trans (by decide +kernel)

end View

end RingOverlay
