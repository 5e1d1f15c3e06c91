import RingOverlay.Network.Session
import RingOverlay.Proofs.Node.Shape
import RingOverlay.Proofs.Node.Trust

/-!
# The Nodes of a Network

A network does many things to its stations: it queues datagrams for them, sets
their timers, gives their endpoints back. To the nodes in them it does nothing that
is not an event. So a node in a network has lived a history, whatever the network
was put through, and what holds after every history holds of every node in every
session.

The argument follows the network function by function. Each of them changes a
station only in what surrounds the node, or puts back the node that an event has
left.

## Main definitions

* `Node.Lived`: A node that has come out of a history.
* `Network.Lives`: All nodes of a network have.

## Theorems

* `Lives.modifyStation`: The one way in which a station changes.
* `Lives.perform`, `Lives.arrive`, `Lives.run`: Work and time keep it so.
* `lives_of_steps`: It is so after every session.
* `sound_of_steps`: So the nodes are in shape and trust nobody unfit.
-/

namespace RingOverlay

/-- A node that has come out of a history. -/
def Node.Lived (n : Node) : Prop :=
  ∃ s me firstSeq events, n = ((Node.bound s me firstSeq).live events).1

theorem Node.lived_bound (s : Settings) (me : Contact) (firstSeq : UInt64) :
    (Node.bound s me firstSeq).Lived := ⟨s, me, firstSeq, [], rfl⟩

/-- One more event makes the history longer. -/
theorem Node.Lived.happen {n : Node} (h : n.Lived) (e : Event) : (n.happen e).1.Lived := by
  rcases h with ⟨s, me, firstSeq, events, rfl⟩
  exact ⟨s, me, firstSeq, events ++ [e], (live_concat _ events e).symm⟩

-- A history starts alone.
theorem Node.Lived.changes {n : Node} (h : n.Lived) :
    ∃ me, View.Changes n.settings (View.alone me) n.view := by
  rcases h with ⟨s, me, firstSeq, events, rfl⟩
  rcases changes_live (bound s me firstSeq) events with ⟨hsettings, hchanges⟩
  exact ⟨me, by rw [hsettings]; exact hchanges⟩

namespace Network

/-- All nodes of a network have come out of a history. -/
def Lives (n : Network) : Prop := ∀ h ∈ n.stations.toList, h.node.Lived

namespace Lives

variable {n : Network} {α : Type}

theorem station (hn : n.Lives) {i : Nat} {h : Station} (hi : n.stations[i]? = some h) :
    h.node.Lived :=
  hn h (List.mem_of_getElem? (by rwa [Array.getElem?_toList]))

theorem foldl (hn : n.Lives) {f : Network → α → Network} (hf : ∀ m a, m.Lives → (f m a).Lives)
    (l : List α) : (l.foldl f n).Lives := by
  induction l generalizing n with
  | nil => exact hn
  | cons a rest ih => exact ih (hf n a hn)

theorem push (hn : n.Lives) (w : Work) : (n.push w).Lives := by
  unfold Network.push
  split_ifs <;> exact hn

theorem pushFront (hn : n.Lives) (w : Work) : (n.pushFront w).Lives := hn

/-- The one way in which a station changes. -/
theorem modifyStation (hn : n.Lives) (i : Nat) {f : Station → Station}
    (hf : ∀ h, h.node.Lived → (f h).node.Lived) : (n.modifyStation i f).Lives := by
  intro h hh
  rcases List.mem_iff_getElem?.mp hh with ⟨k, hk⟩
  simp only [Network.modifyStation, Array.toList_modify, List.getElem?_modify] at hk
  cases hold : n.stations.toList[k]? with
  | none =>
      rw [hold] at hk
      cases hk
  | some g =>
      have hg := hn g (List.mem_of_getElem? hold)
      rw [hold, Option.map_eq_map, Option.map_some, Option.some.injEq] at hk
      rw [← hk]
      split_ifs
      · exact hf g hg
      · exact hg

theorem modifyCall (hn : n.Lives) (k : Nat) (f : Call → Call) : (n.modifyCall k f).Lives := hn

theorem record (hn : n.Lives) (k : Nat) (r : Result) : (n.record k r).Lives := by
  unfold Network.record
  split
  · exact hn
  · simp only []
    split_ifs
    · exact hn.modifyCall k _
    · exact (hn.modifyCall k _).pushFront _

-- What surrounds a node may change as it likes.
theorem keepNode (hn : n.Lives) (i : Nat) {f : Station → Station}
    (hf : ∀ h, (f h).node = h.node := by exact fun _ => rfl) : (n.modifyStation i f).Lives :=
  hn.modifyStation i fun h hh => (hf h).symm ▸ hh

theorem place (hn : n.Lives) (origin : Origin) (dest : Endpoint) (bytes : List UInt8) :
    (n.place origin dest bytes).Lives := by
  unfold Network.place
  split
  · exact hn
  · exact (hn.keepNode _).push _

theorem mailLetter (hn : n.Lives) (peer sender : Endpoint) (asked : UInt64) (l : Letter) :
    (n.mailLetter peer sender asked l).Lives := by
  unfold Network.mailLetter
  simp only []
  split_ifs
  · exact hn.place _ _ _
  · exact hn

theorem react (hn : n.Lives) (peer sender : Endpoint) (m : Message) :
    (n.react peer sender m).Lives := by
  unfold Network.react
  split
  · exact hn
  · refine foldl ?_ (fun k l hk => ?_) _
    · exact hn
    · exact hk.mailLetter peer sender m.seq l

theorem carry (hn : n.Lives) (i : Nat) (dest : Endpoint) (m : Message) :
    (n.carry i dest m).Lives := by
  unfold Network.carry
  split
  · exact hn
  · rename_i h _
    have hsent : ({ n with sent := ⟨i, dest, m⟩ :: n.sent } : Network).Lives := hn
    cases hanswer : m.body.isAnswer with
    | true =>
        simp only [if_true]
        split
        · exact hsent.place _ _ _
        · exact hsent
    | false =>
        simp only [Bool.false_eq_true, if_false]
        split
        · exact (hsent.keepNode i).place _ _ _
        · exact (hsent.keepNode i).react _ _ _

theorem opened (hn : n.Lives) (i : Nat) (outcome : Outcome) : (n.opened i outcome).Lives := by
  unfold Network.opened
  split
  · exact hn
  · split
    · exact (hn.keepNode i).record _ _
    · refine record ?_ _ _
      exact hn.keepNode i
    · exact hn

theorem finished (hn : n.Lives) (i : Nat) (c : Caller) (outcome : Outcome) :
    (n.finished i c outcome).Lives := by
  cases c with
  | holder k => exact hn.record k _
  | starter => exact hn.opened i outcome
  | upkeep => exact hn.keepNode i

theorem apply (hn : n.Lives) (i : Nat) (x : Effect) : (n.apply i x).Lives := by
  cases x with
  | send dest m => exact hn.carry i dest m
  | wake c => exact hn.push _
  | finish c outcome => exact hn.finished i c outcome

/-- A node that an event has left is put back, and its effects are carried out. -/
theorem acted (hn : n.Lives) (i : Nat) (c : Caller) {result : Node × List Effect}
    (hresult : result.1.Lived) : (n.acted i c result).Lives := by
  have hback : (n.modifyStation i fun h => { h with node := result.1 }).Lives :=
    hn.modifyStation i fun _ _ => hresult
  have heffects := hback.foldl (fun m x hm => hm.apply i x) result.2
  simp only [Network.acted]
  split_ifs
  · exact heffects
  · exact heffects

theorem assign (hn : n.Lives) (i : Nat) (c : Caller) (t : Task) : (n.assign i c t).Lives := by
  unfold Network.assign
  split
  · exact hn
  · rename_i h hi
    exact hn.acted i c ((hn.station hi).happen (.begin n.refusals n.now c t))

/-- A station that joins the network with a node that has come out of a history. -/
theorem enroll (hn : n.Lives) {h : Station} (hh : h.node.Lived) :
    ({ n with stations := n.stations.push h } : Network).Lives := by
  intro g hg
  rw [Array.toList_push] at hg
  rcases List.mem_append.mp hg with hold | hnew
  · exact hn g hold
  · rwa [List.mem_singleton.mp hnew]

theorem openNode (hn : n.Lives) (k : Nat) (o : Opening) : (n.openNode k o).Lives := by
  unfold Network.openNode
  split
  · exact hn.record k _
  · split
    · exact hn.record k _
    · extract_lets home m
      have hm : m.Lives := by
        unfold m
        split_ifs <;> exact hn
      split
      · exact hm.record k _
      · exact (hm.enroll (Node.lived_bound _ _ _)).assign _ _ _

theorem closeNode (hn : n.Lives) (k : Nat) (name : String) (i : Nat) :
    (n.closeNode k name i).Lives := by
  refine record ?_ k .done
  exact hn.modifyStation i fun h hh => hh.happen .stop

theorem withStation (hn : n.Lives) (k : Nat) (name : String) {f : Nat → Station → Network}
    (hf : ∀ i h, (f i h).Lives) : (n.withStation k name f).Lives := by
  unfold Network.withStation
  split
  · exact hn.record k .noNode
  · split
    · exact hn.record k .noNode
    · exact hf _ _

theorem startRound (hn : n.Lives) (k : Nat) (j : Job) : (n.startRound k j).Lives := by
  cases j with
  | start o => exact hn.openNode k o
  | stop name => exact hn.withStation k name fun i _ => hn.closeNode k name i
  | run name t => exact hn.withStation k name fun i _ => hn.assign i _ t
  | closest name id => exact hn.withStation k name fun _ _ => hn.record k _
  | identify name => exact hn.withStation k name fun _ _ => hn.record k _
  | describe name => exact hn.withStation k name fun _ _ => hn.record k _
  | look name => exact hn.withStation k name fun _ _ => hn.record k _
  | isRunning name => exact hn.withStation k name fun _ _ => hn.record k _
  | awaitStop name within =>
      refine hn.withStation k name fun i h => ?_
      split_ifs
      · exact hn
      · exact hn.record k _
  | survey => exact hn.record k _
  | sleep duration => exact hn
  | inject dest origin payload count =>
      exact (hn.foldl (fun m bytes hm => hm.place origin dest bytes) _).record k _
  | script place rules =>
      refine record ?_ k _
      exact hn
  | refuseSend dest reason =>
      cases reason <;> refine record ?_ k _ <;> exact hn
  | refuseBind place reason =>
      refine record ?_ k _
      exact hn
  | refuseReceive place reason => exact hn.record k _

theorem listen (hn : n.Lives) (i : Nat) : (n.listen i).Lives := by
  unfold Network.listen
  split
  · exact hn
  · rename_i h hi
    split
    · exact hn
    · rename_i origin bytes rest _
      have hread : (n.modifyStation i fun h => { h with mail := rest }).Lives :=
        hn.keepNode i
      cases origin with
      | foreign => exact hread
      | endpoint sender =>
          refine foldl ?_ (fun m x hm => hm.apply i x) _
          exact hread.modifyStation i fun _ _ =>
            (hn.station hi).happen (.receive _ sender bytes)

theorem tick (hn : n.Lives) (i : Nat) : (n.tick i).Lives := by
  unfold Network.tick
  split
  · exact hn
  · split_ifs
    · exact hn.keepNode i
    · split
      · exact hn
      · exact (hn.keepNode i).assign i _ _

theorem perform (hn : n.Lives) (w : Work) : (n.perform w).Lives := by
  cases w with
  | listen i => exact hn.listen i
  | poll i c =>
      simp only [Network.perform]
      split
      · exact hn
      · rename_i h hi
        exact hn.acted i c ((hn.station hi).happen (.poll _ _ c))
  | call k =>
      simp only [Network.perform]
      split
      · exact hn
      · exact (hn.modifyCall k _).startRound k _
  | tick i => exact hn.tick i

theorem wakeStation (hn : n.Lives) (i : Nat) : (n.wakeStation i).Lives := by
  unfold Network.wakeStation
  split
  · exact hn
  · rename_i h _
    extract_lets m
    have hm : m.Lives := by
      unfold m
      split
      · split_ifs
        · exact hn.push _
        · exact hn
      · exact hn
    split
    · split_ifs
      · exact hm.push _
      · exact hm
    · exact hm

theorem wakeCall (hn : n.Lives) (k : Nat) : (n.wakeCall k).Lives := by
  unfold Network.wakeCall
  split
  · split_ifs
    · exact hn.record k _
    · exact hn
  · split_ifs
    · exact hn.record k _
    · exact hn.record k _
    · exact hn
  · exact hn

theorem arrive (hn : n.Lives) (moment : Nat) : (n.arrive moment).Lives := by
  unfold Network.arrive
  split
  extract_lets m delivered woken
  have hdelivered : delivered.Lives :=
    foldl (n := m) hn (fun k p hk => hk.place p.origin p.dest p.bytes) _
  have hwoken : woken.Lives := hdelivered.foldl (fun k i hk => hk.wakeStation i) _
  exact hwoken.foldl (fun k i hk => hk.wakeCall i) _

/-- Work and time do nothing to a node that is not an event. -/
theorem run (hn : n.Lives) (fuel : Nat) : (n.run fuel).Lives := by
  induction fuel generalizing n with
  | zero => exact hn
  | succ fuel ih =>
      cases hwork : n.work with
      | cons w rest =>
          rw [Network.run, hwork]
          exact ih (perform (n := { n with work := rest }) hn w)
      | nil =>
          simp only [Network.run, hwork]
          split
          · exact hn
          · split_ifs
            · exact ih (hn.arrive _)
            · exact hn

/-- So does a step of a session. -/
theorem step (hn : n.Lives) (s : Step) : (n.step s).1.Lives :=
  run (n := { n with calls := _, sent := [], work := _ }) hn patience

end Lives

/-- Every node of a network has come out of a history, whatever steps were put to the
    network. -/
theorem lives_of_steps {n : Network} (hn : n.Lives) (steps : List Step) :
    (steps.foldl (fun m s => (m.step s).1) n).Lives :=
  hn.foldl (fun _ s hm => hm.step s) steps

/-- So every node of every session is in shape and trusts nobody unfit. -/
theorem sound_of_steps (n : Network) (hstart : n.stations = #[]) (steps : List Step) :
    ∀ h ∈ (steps.foldl (fun m s => (m.step s).1) n).stations.toList,
      h.node.view.InShape h.node.settings ∧ h.node.view.Trusting h.node.view.me := by
  have hn : n.Lives := by
    intro h hh
    rw [hstart] at hh
    cases hh
  intro h hh
  rcases (lives_of_steps hn steps h hh).changes with ⟨me, hchanges⟩
  have htrust := (View.trusting_alone me).changes hchanges
  exact ⟨(View.inShape_alone _ me).changes hchanges, by rwa [htrust.own]⟩

end Network

end RingOverlay
