import RingOverlay.Proofs.Growth.Path
import RingOverlay.Proofs.Growth.System

/-!
# What Holds While a Ring Grows

The successors alone make no invariant. A node adopts whatever its successor
names as predecessor, and that is safe only because a predecessor has always
been led to its node by the successors; and since the name travels, so is
everything that is on its way. `Growth.Behind` is this one property, and
`Growth.Sound` asks for it wherever a contact may be believed in later: of every
predecessor, of every claim, and of every answer to a probe.

Nothing that is led to is ever lost. `Growth.Grows` says so of two states, and
it is what carries those properties from one state to the next: all of them are
about ways that exist, so they only have to be checked where something new is
believed.

What happens in a state is made up of five changes, and each of them is shown
to keep a state sound on its own: a newcomer appears, a node changes its mind,
a node waits, a claim is sent, a node has joined.

## Main definitions

* `Growth.succ`: Whom a node follows.
* `Growth.Behind`: The successors lead from a node that has joined to another.
* `Growth.Sensible`, `Growth.Credible`: What holds of a question under way, and
  of an answer.
* `Growth.Sound`: The invariant.
* `Growth.Grows`: Nobody leaves, and no way is lost.

## Theorems

* `sound_first`: The invariant holds of a first node.
* `Sound.of_grows`: What has to be checked of a new state, in terms of the old.
* `Sound.arrive`, `Sound.revise`, `Sound.wait`, `Sound.post`, `Sound.join`: The
  five changes keep it.
* `Sound.settle`: So does the end of a turn.
-/

namespace RingOverlay

namespace Growth

/-- Whom a node follows. -/
def succ (g : Growth) (x : Contact) : Contact := (g.view x).successor

theorem succ_arrive (g : Growth) (x : Contact) (h : g.Fresh x) :
    (g.arrive x h).succ = Function.update g.succ x x := by
  funext y
  by_cases hyx : y = x
  · rw [hyx, Function.update_self, succ, view_arrive_self]
    rfl
  · rw [Function.update_of_ne hyx, succ, g.view_arrive_other h hyx]
    rfl

theorem succ_revise (g : Growth) (x : Contact) (v : View) (h : v.me = (g.view x).me) :
    (g.revise x v h).succ = Function.update g.succ x v.successor := by
  funext y
  by_cases hyx : y = x
  · rw [hyx, Function.update_self, succ, view_revise_self]
  · rw [Function.update_of_ne hyx, succ, g.view_revise_other v h hyx]
    rfl

/-- One has joined, and the successors lead from it to the other. -/
def Behind (g : Growth) (p s : Contact) : Prop := p ∈ g.joined ∧ Leads g.succ p s

/-- A lookup is for a purpose that its node can have: a newcomer looks for its
    place, and everybody else for anything but that. -/
def Serves (g : Growth) (x : Contact) : Purpose → Prop
  | .enter untried total alone =>
    x ∈ g.members ∧ x ∉ g.joined ∧ alone = false ∧ total ≠ 0 ∧ ∀ e ∈ untried, g.Known e
  | .report | .finger _ => x ∈ g.joined

/-- A question goes to a node that has joined; and a probe goes to the node that
    is still followed when its answer comes. -/
def Sensible (g : Growth) (x s : Contact) : Question → Prop
  | .hop h => g.Known h.asked ∧ g.Serves x h.purpose
  | .probe c => x ∈ g.joined ∧ c = s ∧ c ∈ g.joined
  | .list c | .pulse c => x ∈ g.joined ∧ c ∈ g.joined

/-- An answer names only nodes that have joined; and an answer to a probe names
    one that leads to the node probed. -/
def Credible (g : Growth) (r : Reply) : Question → Prop
  | .hop _ => r.node ∈ g.joined
  | .probe c => r.node.isRoutable = true → g.Behind r.node c
  | .list _ | .pulse _ => True

/-- What holds of what a node waits for. -/
def Upheld (g : Growth) (x s : Contact) : Errand → Prop
  | .asked q => g.Sensible x s q
  | .answered q r => g.Sensible x s q ∧ g.Credible r q

/-- A contact is unset or has joined. -/
def Sincere (g : Growth) (c : Contact) : Prop := c.isSet = false ∨ c ∈ g.joined

/-- The invariant of a growing ring. -/
structure Sound (g : Growth) : Prop where
  joined_mem : ∀ x ∈ g.joined, x ∈ g.members
  succ_joined : ∀ x ∈ g.joined, g.succ x ∈ g.joined
  /-- From one node the successors lead round the circle, and everybody gets
      there. -/
  rooted : ∃ r, g.Behind r r ∧ ∀ x ∈ g.joined, Relation.ReflTransGen g.Behind x r
  predecessor : ∀ y ∈ g.members, ∀ p, (g.view y).predecessor = some p → g.Behind p y
  fingers : ∀ x ∈ g.members, ∀ i : Fin slotCount, g.Sincere ((g.view x).finger i)
  claims : ∀ c e, (c, e) ∈ g.claims → ∃ y ∈ g.joined, y.endpoint = e ∧ g.Behind c y
  errands : ∀ x e, g.errand x = some e → g.Upheld x (g.succ x) e

/-- Nobody leaves, and no way is lost. -/
structure Grows (g g' : Growth) : Prop where
  members : ∀ x ∈ g.members, x ∈ g'.members
  joined : ∀ x ∈ g.joined, x ∈ g'.joined
  behind : ∀ p s, g.Behind p s → g'.Behind p s

namespace Grows

variable {g g' g'' : Growth}

theorem refl (g : Growth) : g.Grows g := ⟨fun _ h => h, fun _ h => h, fun _ _ h => h⟩

theorem trans (h : g.Grows g') (h' : g'.Grows g'') : g.Grows g'' where
  members x hx := h'.members x (h.members x hx)
  joined x hx := h'.joined x (h.joined x hx)
  behind p s hb := h'.behind p s (h.behind p s hb)

theorem wait (g : Growth) (x : Contact) (w : Option Errand) : g.Grows (g.wait x w) :=
  ⟨fun _ h => h, fun _ h => h, fun _ _ h => h⟩

theorem post (g : Growth) (c : Contact) (dest : Option Endpoint) : g.Grows (g.post c dest) :=
  ⟨fun _ h => h, fun _ h => h, fun _ _ h => h⟩

theorem known (h : g.Grows g') {e : Endpoint} (hk : g.Known e) : g'.Known e := by
  rcases hk with ⟨y, hy, he⟩
  exact ⟨y, h.joined y hy, he⟩

theorem sincere (h : g.Grows g') {c : Contact} (hc : g.Sincere c) : g'.Sincere c :=
  hc.imp id (h.joined c)

theorem credible (h : g.Grows g') {r : Reply} {q : Question} (hr : g.Credible r q) :
    g'.Credible r q := by
  cases q with
  | hop q => exact h.joined _ hr
  | probe c => exact fun hrt => h.behind _ _ (hr hrt)
  | list c => trivial
  | pulse c => trivial

-- A question stays sensible unless the node that asked it has joined in the
-- meantime.
theorem sensible (h : g.Grows g') {x s : Contact} (hx : x ∈ g'.joined → x ∈ g.joined)
    {q : Question} (hq : g.Sensible x s q) : g'.Sensible x s q := by
  cases q with
  | hop q =>
      refine ⟨h.known hq.1, ?_⟩
      have hserves := hq.2
      cases hp : q.purpose with
      | report =>
          rw [hp] at hserves
          exact h.joined x hserves
      | finger slot =>
          rw [hp] at hserves
          exact h.joined x hserves
      | enter untried total alone =>
          rw [hp] at hserves
          rcases hserves with ⟨hm, hn, halone, htotal, hknown⟩
          exact ⟨h.members x hm, fun hj => hn (hx hj), halone, htotal,
            fun e he => h.known (hknown e he)⟩
  | probe c => exact ⟨h.joined x hq.1, hq.2.1, h.joined c hq.2.2⟩
  | list c => exact ⟨h.joined x hq.1, h.joined c hq.2⟩
  | pulse c => exact ⟨h.joined x hq.1, h.joined c hq.2⟩

theorem upheld (h : g.Grows g') {x s : Contact} (hx : x ∈ g'.joined → x ∈ g.joined)
    {e : Errand} (he : g.Upheld x s e) : g'.Upheld x s e := by
  cases e with
  | asked q => exact h.sensible hx he
  | answered q r => exact ⟨h.sensible hx he.1, h.credible he.2⟩

end Grows

theorem sound_first (me : Contact) (settings : Contact → Settings) (h : me.isRoutable = true) :
    (first me settings h).Sound where
  joined_mem x hx := hx
  succ_joined x hx := hx
  rooted := by
    have hme : me ∈ (first me settings h).joined := List.mem_singleton.mpr rfl
    refine ⟨me, ⟨hme, Leads.last rfl⟩, fun x hx => ?_⟩
    rw [List.mem_singleton.mp hx]
  predecessor y hy p hp := by cases hp
  fingers x hx i := Or.inl (View.alone_finger i x)
  claims c e hc := by cases hc
  errands x e he := by cases he

namespace Sound

variable {g g' : Growth} {x : Contact}

-- Only members wait for anything.
theorem mem_of_errand (hs : g.Sound) {e : Errand} (he : g.errand x = some e) :
    x ∈ g.members := by
  have hq : ∀ q, g.Sensible x (g.succ x) q → x ∈ g.members := by
    intro q hq
    cases q with
    | hop h =>
        have hserves := hq.2
        cases hp : h.purpose with
        | report => rw [hp] at hserves; exact hs.joined_mem x hserves
        | finger slot => rw [hp] at hserves; exact hs.joined_mem x hserves
        | enter untried total alone => rw [hp] at hserves; exact hserves.1
    | probe c => exact hs.joined_mem x hq.1
    | list c => exact hs.joined_mem x hq.1
    | pulse c => exact hs.joined_mem x hq.1
  have hup := hs.errands x e he
  cases e with
  | asked q => exact hq q hup
  | answered q r => exact hq q hup.1

-- The way from a node that has joined makes no use of the pointers of those
-- that have not.
theorem grows_of_waiting (hs : g.Sound) {s : Contact} (hx : x ∉ g.joined) :
    ∀ a ∈ g.joined, ∀ b, Leads g.succ a b → Leads (Function.update g.succ x s) a b := by
  intro a ha b h
  refine h.congr hs.succ_joined (fun y hy => Function.update_of_ne ?_ _ _) ha
  rintro rfl
  exact hx hy

/-- A state is sound if it comes from a sound one without loss, everybody follows
    somebody who had joined before, and what is believed or on its way was good
    before. -/
theorem of_grows (hs : g.Sound) (h : g.Grows g')
    (hjoined : ∀ y ∈ g'.joined, y ∈ g'.members ∧ g'.succ y ∈ g.joined)
    (hpred : ∀ y ∈ g'.members, ∀ p, (g'.view y).predecessor = some p → g.Behind p y)
    (hfingers : ∀ y ∈ g'.members, ∀ i : Fin slotCount, g.Sincere ((g'.view y).finger i))
    (hclaims : ∀ c e, (c, e) ∈ g'.claims → ∃ y ∈ g.joined, y.endpoint = e ∧ g.Behind c y)
    (herrands : ∀ y e, g'.errand y = some e →
      (y ∈ g'.joined → y ∈ g.joined) ∧ g.Upheld y (g'.succ y) e) : g'.Sound := by
  constructor
  case joined_mem => exact fun y hy => (hjoined y hy).1
  case succ_joined => exact fun y hy => h.joined _ (hjoined y hy).2
  case rooted =>
    -- One step leads to somebody who was there before, and he knows the way.
    rcases hs.rooted with ⟨r, hr, hall⟩
    exact ⟨r, h.behind r r hr, fun y hy => Relation.ReflTransGen.head ⟨hy, Leads.last rfl⟩
      (Relation.ReflTransGen.mono h.behind _ _ (hall _ (hjoined y hy).2))⟩
  case predecessor => exact fun y hy p hp => h.behind p y (hpred y hy p hp)
  case fingers => exact fun y hy i => h.sincere (hfingers y hy i)
  case claims =>
    intro c e hc
    rcases hclaims c e hc with ⟨y, hy, he, hb⟩
    exact ⟨y, h.joined y hy, he, h.behind c y hb⟩
  case errands => exact fun y e he => h.upheld (herrands y e he).1 (herrands y e he).2

-- A newcomer disturbs nobody.
theorem arrive (hs : g.Sound) (h : g.Fresh x) :
    g.Grows (g.arrive x h) ∧ (g.arrive x h).Sound := by
  have hold {y : Contact} (hy : y ∈ g.members) : (g.arrive x h).view y = g.view y := by
    refine g.view_arrive_other h ?_
    rintro rfl
    exact h.not_mem hy
  have hgrows : g.Grows (g.arrive x h) := by
    refine ⟨fun y hy => List.mem_cons_of_mem x hy, fun y hy => hy, fun p s hb => ⟨hb.1, ?_⟩⟩
    rw [succ_arrive]
    exact hs.grows_of_waiting (fun hj => h.not_mem (hs.joined_mem x hj)) p hb.1 s hb.2
  refine ⟨hgrows, hs.of_grows hgrows ?_ ?_ ?_ hs.claims ?_⟩
  · intro y hy
    refine ⟨List.mem_cons_of_mem x (hs.joined_mem y hy), ?_⟩
    rw [succ, hold (hs.joined_mem y hy)]
    exact hs.succ_joined y hy
  · intro y hy p hp
    rcases List.mem_cons.mp hy with rfl | hmem
    · rw [view_arrive_self] at hp
      cases hp
    · rw [hold hmem] at hp
      exact hs.predecessor y hmem p hp
  · intro y hy i
    rcases List.mem_cons.mp hy with rfl | hmem
    · rw [view_arrive_self]
      exact Or.inl (View.alone_finger i y)
    · rw [hold hmem]
      exact hs.fingers y hmem i
  · intro y e he
    refine ⟨id, ?_⟩
    rw [succ, hold (hs.mem_of_errand he)]
    exact hs.errands y e he

/-- A node changes its mind: it loses no way that the nodes that have joined
    had, and believes only in what it should. A node that waits for the answer
    to a probe keeps following the node probed. -/
theorem revise (hs : g.Sound) {v : View} (h : v.me = (g.view x).me)
    (hprobe : v.successor = g.succ x ∨ g.errand x = none)
    (hleads : ∀ a ∈ g.joined, ∀ b, Leads g.succ a b →
      Leads (Function.update g.succ x v.successor) a b)
    (hsucc : x ∈ g.joined → v.successor ∈ g.joined)
    (hpred : ∀ p, v.predecessor = some p → g.Behind p x)
    (hfingers : ∀ i : Fin slotCount, g.Sincere (v.finger i)) :
    g.Grows (g.revise x v h) ∧ (g.revise x v h).Sound := by
  have hself := g.view_revise_self x v h
  have hother {y : Contact} (hy : y ≠ x) := g.view_revise_other v h hy
  have hgrows : g.Grows (g.revise x v h) := by
    refine ⟨fun y hy => hy, fun y hy => hy, fun p s hb => ⟨hb.1, ?_⟩⟩
    rw [succ_revise]
    exact hleads p hb.1 s hb.2
  refine ⟨hgrows, hs.of_grows hgrows ?_ ?_ ?_ hs.claims ?_⟩
  · intro y hy
    refine ⟨hs.joined_mem y hy, ?_⟩
    rw [succ_revise]
    by_cases hyx : y = x
    · rw [hyx, Function.update_self]
      exact hsucc (hyx ▸ hy)
    · rw [Function.update_of_ne hyx]
      exact hs.succ_joined y hy
  · intro y hy p hp
    by_cases hyx : y = x
    · rw [hyx, hself] at hp
      exact hyx ▸ hpred p hp
    · rw [hother hyx] at hp
      exact hs.predecessor y hy p hp
  · intro y hy i
    by_cases hyx : y = x
    · rw [hyx, hself]
      exact hfingers i
    · rw [hother hyx]
      exact hs.fingers y hy i
  · intro y e he
    refine ⟨id, ?_⟩
    rw [succ_revise]
    by_cases hyx : y = x
    · subst hyx
      rw [Function.update_self]
      rcases hprobe with hsame | hidle
      · rw [hsame]
        exact hs.errands y e he
      · exact absurd (hidle.symm.trans he) (Option.some_ne_none e).symm
    · rw [Function.update_of_ne hyx]
      exact hs.errands y e he

-- A node waits for what it may wait for.
theorem wait (hs : g.Sound) {w : Option Errand} (hw : ∀ e, w = some e → g.Upheld x (g.succ x) e) :
    (g.wait x w).Sound :=
  { hs with
    errands := by
      intro y e he
      by_cases hyx : y = x
      · subst hyx
        rw [errand_wait_self] at he
        exact hw e he
      · rw [errand_wait_other g w hyx] at he
        exact hs.errands y e he }

-- A claim is made by one who leads to where it goes.
theorem post (hs : g.Sound) (c : Contact) (dest : Option Endpoint)
    (hdest : ∀ e, dest = some e → ∃ y ∈ g.joined, y.endpoint = e ∧ g.Behind c y) :
    (g.post c dest).Sound :=
  { hs with
    claims := by
      intro d e hd
      rcases List.mem_append.mp hd with hnew | hold
      · cases dest with
        | none => cases hnew
        | some e' =>
            cases List.mem_singleton.mp hnew
            exact hdest e rfl
      · exact hs.claims d e hold }

/-- An idle node has joined once it follows one that has. -/
theorem join (hs : g.Sound) (hx : x ∈ g.members) (hidle : g.errand x = none)
    (hsucc : g.succ x ∈ g.joined) : g.Grows (g.join x) ∧ (g.join x).Sound := by
  have hmem (y : Contact) : y ∈ (g.join x).joined ↔ y = x ∨ y ∈ g.joined := List.mem_insert_iff
  have hgrows : g.Grows (g.join x) :=
    ⟨fun y hy => hy, fun y hy => (hmem y).mpr (Or.inr hy),
      fun p s hb => ⟨(hmem p).mpr (Or.inr hb.1), hb.2⟩⟩
  refine ⟨hgrows, hs.of_grows hgrows ?_ hs.predecessor hs.fingers hs.claims ?_⟩
  · intro y hy
    rcases (hmem y).mp hy with rfl | hold
    · exact ⟨hx, hsucc⟩
    · exact ⟨hs.joined_mem y hold, hs.succ_joined y hold⟩
  · intro y e he
    have hyx : y ≠ x := by
      rintro rfl
      exact absurd (hidle.symm.trans he) (Option.some_ne_none e).symm
    exact ⟨fun hy => ((hmem y).mp hy).resolve_left hyx, hs.errands y e he⟩

/-- An idle node settles down with a question that makes sense, or with a task
    that ended well only if it follows a node that has joined. -/
theorem settle (hs : g.Sound) (next : Next) (hx : x ∈ g.members) (hidle : g.errand x = none)
    (hask : ∀ q, next = .ask q → g.Sensible x (g.succ x) q)
    (hdone : next = .finish .done → g.succ x ∈ g.joined) :
    g.Grows (g.settle x next) ∧ (g.settle x next).Sound := by
  cases next with
  | ask q =>
      refine ⟨Grows.wait g x _, hs.wait fun e he => ?_⟩
      cases he
      exact hask q rfl
  | finish outcome =>
      cases outcome with
      | found c => exact ⟨Grows.refl g, hs⟩
      | done => exact hs.join hx hidle (hdone rfl)
      | failed f => exact ⟨Grows.refl g, hs⟩

end Sound

end Growth

end RingOverlay
