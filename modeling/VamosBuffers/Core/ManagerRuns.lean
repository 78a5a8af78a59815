import Mathlib.Tactic
import VamosBuffers.Core.ManagerSpace
import VamosBuffers.Core.QueueContent
import VamosBuffers.Schemes.Operations

/-! Runs of a stream whose manager is looked at step by step, with any answers of its filters and any
    removals by the reader. Three things about them: an event that was fetched has a slot, and so has
    a hole; holes are spaced; and the ids that `send_dropped_event` checks are right, unless the
    filter of the fetch rejects an event while others are dropped. -/

namespace Vamos
open Schemes

namespace StreamMem

/-! ### Threads -/

/-- What the reader of the arbiter buffer does. -/
inductive Removal where
  | drop (k : ℕ)
  | dropOlderThan (id : ℕ)
  deriving DecidableEq, Repr

def readerClient : Client StreamMem StreamAcc Unit Removal where
  enabled _ _ _ := True
  body _ x := match x with
    | .drop k => do
      let _ ← bufferDrop k
      pure ()
    | .dropOlderThan id => do
      let _ ← dropOlderThan id
      pure ()

/-- Is the filter of the fetch to answer next? -/
def StepAt.atFilter : StepAt → Bool
  | .got _ _ => true
  | _ => false

/-- The filter of the fetch rejects no event while others are dropped. -/
def RejectsInOrder (i : StepAt) (x : Bool) (m : StreamMem) : Prop :=
  i.atFilter = true → x = true ∨ m.drop.droppedNum = 0

instance (i : StepAt) (x : Bool) (m : StreamMem) : Decidable (RejectsInOrder i x m) :=
  inferInstanceAs (Decidable (_ → _ ∨ _))

/-- The manager, with any answers of its filters, or only those where `orderly`. -/
def stepClient (orderly : Prop) : Client StreamMem StreamAcc StepAt Bool where
  enabled i x m := orderly → RejectsInOrder i x m
  body := stepBody

abbrev SpaceAt : Thread → Type
  | .source => SourceAt
  | .manager => StepAt
  | .arbiter => Unit

abbrev SpaceCall : Thread → Type
  | .source => SourceCall
  | .manager => Bool
  | .arbiter => Removal

def spaceClients (orderly : Prop) :
    (t : Thread) → Client StreamMem StreamAcc (SpaceAt t) (SpaceCall t)
  | .source => sourceClient
  | .manager => stepClient orderly
  | .arbiter => readerClient

abbrev SpaceCfg : Type := Cfg StreamMem StreamAcc SpaceAt

/-- A new stream, before its first event. -/
def Setup.begin (s : Setup) : SpaceCfg :=
  ⟨s.mem, fun
    | .source => .ret (.active 0)
    | .manager => .ret .top
    | .arbiter => .ret ()⟩

/-! ### Runs -/

def spaceRole : Thread → Role StreamMem StreamAcc
  | .source => sourceRole
  | .manager => carryRole
  | .arbiter => readerRole

/-- What each thread knows between two calls. -/
def SpaceKnown (orderly : Prop) (n : ℕ) : (t : Thread) → SpaceAt t → StreamMem → Prop
  | .source, .active k, m => Active k m
  | .source, .closed, _ => True
  | .manager, i, m => StepKnows orderly n i m
  | .arbiter, _, _ => True

section Runs

variable {orderly : Prop} {n : ℕ} {m m' : StreamMem}

theorem spaceRole_compat {t u : Thread} (htu : t ≠ u) {l : StreamAcc}
    (hg : (spaceRole t).guar l m m') : (spaceRole u).rely m m' := by
  cases t with
  | source =>
    have hs : SourceStep m m' := hg
    have hd : m.destroyed ≠ true := by rw [hs.alive]; decide
    have ha : Queue.ConsumerMoves m.arb m'.arb := by rw [hs.arb]; exact .refl _
    have hp : Queue.ProducerStep m.arb m'.arb := by rw [hs.arb]; exact .refl _
    cases u with
    | source => exact absurd rfl htu
    | manager => exact ⟨hs.shm, fun h => absurd h hd, ha, hs.drop⟩
    | arbiter => exact hp
  | manager =>
    have hs : CarryStep m m' := hg
    cases u with
    | source => exact ⟨hs.shm, hs.destroyed⟩
    | manager => exact absurd rfl htu
    | arbiter => exact hs.arb
  | arbiter =>
    have hs : ArbiterStep m m' := hg
    cases u with
    | source => exact ⟨by rw [hs.shm]; exact .refl _, hs.destroyed⟩
    | manager =>
      exact ⟨by rw [hs.shm]; exact .refl _, fun h => ⟨hs.destroyed.trans h, hs.shm⟩, hs.arb, hs.drop⟩
    | arbiter => exact absurd rfl htu

/-- What the reader reports, the space does not depend on. -/
theorem report_space_safe (id : ℕ) :
    Safe (SpaceInv n) readerRole (fun _ _ => True) (setLastProcessedId id) m := by
  refine Safe.access_bind fun m1 _ i1 => ⟨.refl m1, i1, Safe.ofChk_bind trivial ?_⟩
  refine Safe.access fun m2 _ i2 => ⟨⟨.refl _, rfl, rfl, rfl⟩, ?_, fun _ _ _ => trivial⟩
  exact ⟨⟨i2.shm, i2.arb, i2.shmSize, i2.arbSize, i2.source, i2.few, i2.threshold⟩, i2.fixed,
    i2.spaced, i2.spare⟩

theorem spaceClients_safe (t : Thread) (i : SpaceAt t) (x : SpaceCall t) (m : StreamMem)
    (hm : SpaceInv n m) (hk : SpaceKnown orderly n t i m)
    (he : (spaceClients orderly t).enabled i x m) :
    Safe (SpaceInv n) (spaceRole t) (SpaceKnown orderly n t) ((spaceClients orderly t).body i x) m := by
  cases t with
  | source =>
    cases i with
    | closed => exact he.elim
    | active k =>
      cases x with
      | push e =>
        obtain ⟨hid, hhole, hlt⟩ := he
        refine Safe.bind hm ((shmPush_safe hk hid hhole hlt).mono fun ok m1 _ ha => ?_)
        exact fun m2 h2 _ => ha.stable h2
      | destroy =>
        exact Safe.bind hm ((shmDestroy_safe hk).mono fun _ m1 _ _ => fun _ _ _ => trivial)
  | manager =>
    refine stepBody_safe hm hk ?_
    rintro p e rfl ho
    exact he ho rfl
  | arbiter =>
    cases x with
    | drop k =>
      exact Safe.bind hm ((bufferDrop_safe reader_removes hm fun e _ _ _ =>
        report_space_safe e.id).mono fun _ m1 _ _ => fun _ _ _ => trivial)
    | dropOlderThan id =>
      exact Safe.bind hm ((dropOlderThan_safe reader_removes hm fun _ _ _ _ =>
        report_space_safe id).mono fun _ m1 _ _ => fun _ _ _ => trivial)

theorem Setup.space (s : Setup) : SpaceInv s.dropSpaceThreshold s.mem := by
  have hok : StreamOk s.mem := (s.inv : StreamInv (fun _ => true) False s.mem).ok
  have ha : s.mem.arb.pushed = [] := rfl
  refine ⟨hok, rfl, ?_, ?_⟩
  · rw [ha]; exact nofun
  · rw [ha]; exact nofun

/-- Every configuration that a run reaches. -/
theorem reach_space (s : Setup) {c : SpaceCfg} (h : Reach (spaceClients orderly) s.begin c) :
    SpaceInv s.dropSpaceThreshold c.mem ∧
      ∀ i, c.prog .manager = .ret i → StepKnows orderly s.dropSpaceThreshold i c.mem := by
  have hstart : ∀ t, Safe (SpaceInv s.dropSpaceThreshold) (spaceRole t)
      (SpaceKnown orderly s.dropSpaceThreshold t) (s.begin.prog t) s.begin.mem := by
    intro t
    cases t with
    | source =>
      have h : Active 0 s.mem := ⟨rfl, rfl⟩
      exact fun m hr _ => h.stable hr
    | manager => exact step_ret s.space (.of_zero rfl)
    | arbiter => exact fun _ _ _ => trivial
  have hpre : ∀ t l m, (spaceClients orderly t).allowed l m → (spaceRole t).pre l m := by
    intro t l m _
    cases t <;> trivial
  obtain ⟨hm, hs⟩ := reach_safe (ρ := spaceRole) (Q := SpaceKnown orderly s.dropSpaceThreshold) hpre
    (fun _ _ htu _ _ _ _ _ hg => spaceRole_compat htu hg) spaceClients_safe s.space hstart h
  exact ⟨hm, fun i hi => (hs .manager).at_ret hm hi⟩

/-- There is a free place in the arbiter buffer. -/
theorem Room.free (h : Room 1 m) (hm : SpaceInv n m) : m.arb.content.length < m.arb.capacity := by
  have hl := hm.arb.content_length
  have hs := hm.arb.slots
  have hle := hm.arb.ring.consumed_le
  unfold Room at h
  omega

end Runs

/-! ### Moves

A run in which each call is made alone: the source pushes its next event, the manager makes a step,
the reader removes items. -/

inductive Move where
  | push
  | step (x : Bool)
  | remove (k : ℕ)
  deriving DecidableEq, Repr

/-- The thread's call runs from beginning to end, if the thread is between two calls. -/
def moved (c : SpaceCfg) : Move → SpaceCfg
  | .push => match (c.prog .source).done with
    | some (.active n) =>
      if n + 1 < 2 ^ 64 then
        (c.begin .source (sourceClient.body (.active n) (.push ⟨9, n + 1, 0⟩))).finish .source
      else c
    | _ => c
  | .step x => match (c.prog .manager).done with
    | some i => (c.begin .manager (stepBody i x)).finish .manager
    | none => c
  | .remove k => match (c.prog .arbiter).done with
    | some () => (c.begin .arbiter (readerClient.body () (.drop k))).finish .arbiter
    | none => c

/-- The filter of the fetch answers in order at this move. -/
def MovesInOrder (c : SpaceCfg) : Move → Prop
  | .step x => ∀ i ∈ (c.prog .manager).done, RejectsInOrder i x c.mem
  | _ => True

instance (c : SpaceCfg) : (mv : Move) → Decidable (MovesInOrder c mv)
  | .push => isTrue trivial
  | .step _ => inferInstanceAs (Decidable (∀ i ∈ _, _))
  | .remove _ => isTrue trivial

theorem reach_moved {orderly : Prop} {c₀ c : SpaceCfg} (h : Reach (spaceClients orderly) c₀ c)
    (mv : Move) (ho : orderly → MovesInOrder c mv) :
    Reach (spaceClients orderly) c₀ (moved c mv) := by
  cases mv with
  | push =>
    simp only [moved]
    split
    case h_1 k hp =>
      split
      case isTrue hlt =>
        exact h.call .source (i := .active k) (.push ⟨9, k + 1, 0⟩) (Prog.done_eq_some.mp hp)
          ⟨rfl, rfl, hlt⟩ fun _ _ => trivial
      case isFalse => exact h
    case h_2 => exact h
  | step x =>
    simp only [moved]
    split
    case h_1 i hp =>
      exact h.call .manager (i := i) x (Prog.done_eq_some.mp hp) (fun hord => ho hord i hp)
        fun _ _ => trivial
    case h_2 => exact h
  | remove k =>
    simp only [moved]
    split
    case h_1 hp =>
      exact h.call .arbiter (i := ()) (.drop k) (Prog.done_eq_some.mp hp) trivial fun _ _ => trivial
    case h_2 => exact h

theorem reach_moves {orderly : Prop} {c₀ c : SpaceCfg} (h : Reach (spaceClients orderly) c₀ c)
    (mvs : List Move) (ho : orderly → Meets moved MovesInOrder c mvs) :
    Reach (spaceClients orderly) c₀ (mvs.foldl moved c) := by
  induction mvs generalizing c with
  | nil => exact h
  | cons mv mvs ih => exact ih (reach_moved h mv fun hord => (ho hord).1) fun hord => (ho hord).2

/-- Three events are forwarded, the fourth is dropped, and two items are removed. -/
def fourthDropped : List Move :=
  List.replicate 4 Move.push ++ List.replicate 12 (Move.step true) ++
    [Move.step true, Move.step true, Move.remove 2]

/-- The hole for the fourth event and the fifth one are written, the sixth is dropped, two items are
    removed, and the next hole is written. -/
def twoHoles : List Move :=
  fourthDropped ++ Move.push :: List.replicate 6 (Move.step true) ++
    [Move.push, Move.step true, Move.step true, Move.remove 2, Move.push] ++
    List.replicate 3 (Move.step true)

/-! ### Room -/

/-- In every run, whatever the filters say and the reader removes: the slot for an event that was
    fetched is there, and the hole is pushed and leaves a free place. -/
theorem fetched_has_room (s : Setup) {c : SpaceCfg} (h : Reach (spaceClients False) s.begin c) :
    (∀ p out, c.prog .manager = .ret (.slot p out) → out ≠ none) ∧
    (∀ p last ok, c.prog .manager = .ret (.sent p last ok) →
      ok = true ∧ c.mem.arb.content.length < c.mem.arb.capacity) ∧
    ∀ last w ok, c.prog .manager = .ret (.endSent last w ok) →
      ok = true ∧ c.mem.arb.content.length < c.mem.arb.capacity := by
  obtain ⟨hm, hk⟩ := reach_space s h
  have hfree : Room s.dropSpaceThreshold c.mem → c.mem.arb.content.length < c.mem.arb.capacity :=
    fun hr => (hr.mono s.threshold.1).free hm
  refine ⟨fun p out hp => ?_, fun p last ok hp => ?_, fun last w ok hp => ?_⟩
  · obtain ⟨-, -, o, rfl, -⟩ := hk _ hp
    exact Option.some_ne_none o
  · obtain ⟨hok, hr, -⟩ := hk _ hp
    exact ⟨hok, hfree hr⟩
  · obtain ⟨hok, hr⟩ := hk _ hp
    exact ⟨hok, hfree hr⟩

theorem reach_twoHoles : Reach (spaceClients False) small.begin (twoHoles.foldl moved small.begin) :=
  reach_moves .start _ False.elim

/-- The second hole has just been pushed. -/
theorem fetched_has_room_hole : ∃ c : SpaceCfg, Reach (spaceClients False) small.begin c ∧
    c.prog .manager = .ret (.sent 24 7 true) ∧ c.mem.arb.content.length < c.mem.arb.capacity := by
  have hp : (twoHoles.foldl moved small.begin).prog .manager = .ret (.sent 24 7 true) :=
    Prog.done_eq_some.mp (by decide +kernel)
  exact ⟨_, reach_twoHoles, hp, ((fetched_has_room small reach_twoHoles).2.1 _ _ _ hp).2⟩

/-! ### Spacing -/

/-- In every run, whatever the filters say and the reader removes: between two holes that follow each
    other there are at least as many events as the threshold says. -/
theorem holes_spaced (s : Setup) {c : SpaceCfg} (h : Reach (spaceClients False) s.begin c)
    {before between after : List Event} {x y : Event}
    (hp : c.mem.arb.pushed = before ++ x :: (between ++ y :: after)) (hx : x.isHole = true)
    (hy : y.isHole = true) (hb : ∀ e ∈ between, e.isHole = false) :
    s.dropSpaceThreshold ≤ (between.filter fun e => !e.isHole).length := by
  obtain ⟨hm, -⟩ := reach_space s h
  have hs := hm.spaced
  have hall : between.filter (fun e => !e.isHole) = between :=
    List.filter_eq_self.mpr fun e he => by rw [hb e he]; rfl
  rw [hp] at hs
  rw [hall]
  exact hs.between hx hy

/-- One event lies between the two holes. -/
theorem holes_spaced_two : ∃ c : SpaceCfg, Reach (spaceClients False) small.begin c ∧
    c.mem.arb.pushed = [⟨9, 1, 0⟩, ⟨9, 2, 0⟩, ⟨9, 3, 0⟩, ⟨1, 4, 1⟩, ⟨9, 5, 0⟩, ⟨1, 6, 1⟩] ∧
    1 ≤ ([⟨9, 5, 0⟩].filter fun e : Event => !e.isHole).length := by
  have hp : (twoHoles.foldl moved small.begin).mem.arb.pushed =
      [⟨9, 1, 0⟩, ⟨9, 2, 0⟩, ⟨9, 3, 0⟩] ++ ⟨1, 4, 1⟩ :: ([⟨9, 5, 0⟩] ++ ⟨1, 6, 1⟩ :: []) := by
    decide +kernel
  exact ⟨_, reach_twoHoles, hp, holes_spaced small reach_twoHoles hp rfl rfl (by decide)⟩

/-! ### Ids -/

/-- In the runs in which the filter of the fetch rejects no event while others are dropped, whatever
    else it says and the reader removes: the ids that `send_dropped_event` checks are right. -/
theorem send_ids_right (s : Setup) {c : SpaceCfg} (h : Reach (spaceClients True) s.begin c) {p : ℕ}
    {e : Event} (hp : c.prog .manager = .ret (.sending p e)) :
    e.id = (c.mem.drop.droppedNum + c.mem.drop.dropBeginId) % 2 ^ 64 := by
  obtain ⟨hm, hk⟩ := reach_space s h
  obtain ⟨hs, hh, h0, -⟩ := hk _ hp
  exact hs.sum hm hh trivial h0

/-- The second event is rejected, three others are forwarded, the fifth is dropped, two items are
    removed, and the sixth event is read. -/
def rejectedBefore : List Move :=
  List.replicate 4 Move.push ++ List.replicate 4 (Move.step true) ++
    [Move.step true, Move.step false, Move.push] ++ List.replicate 10 (Move.step true) ++
    [Move.remove 2, Move.push, Move.step true, Move.step true]

/-- A rejection while nothing is dropped: the hole begins with the event 5 and counts one. -/
theorem send_ids_right_six : ∃ c : SpaceCfg, Reach (spaceClients True) small.begin c ∧
    c.prog .manager = .ret (.sending 0 ⟨9, 6, 0⟩) ∧
    6 = (c.mem.drop.droppedNum + c.mem.drop.dropBeginId) % 2 ^ 64 := by
  have h : Reach (spaceClients True) small.begin (rejectedBefore.foldl moved small.begin) :=
    reach_moves .start _ fun _ => by decide +kernel
  have hp : (rejectedBefore.foldl moved small.begin).prog .manager = .ret (.sending 0 ⟨9, 6, 0⟩) :=
    Prog.done_eq_some.mp (by decide +kernel)
  exact ⟨_, h, hp, send_ids_right small h hp⟩

/-- The fourth event is dropped, the fifth rejected, and the sixth is read. -/
def rejectedWhileDropping : List Move :=
  fourthDropped ++
    [Move.push, Move.step true, Move.step false, Move.push, Move.step true, Move.step true]

/-- A rejection while events are dropped: `send_dropped_event` is called with the id 6, and expects
    1 + 4. -/
theorem send_ids_wrong : ¬ ∀ (c : SpaceCfg) (p : ℕ) (e : Event),
    Reach (spaceClients False) small.begin c → c.prog .manager = .ret (.sending p e) →
    e.id = (c.mem.drop.droppedNum + c.mem.drop.dropBeginId) % 2 ^ 64 := by
  intro hall
  have h : Reach (spaceClients False) small.begin (rejectedWhileDropping.foldl moved small.begin) :=
    reach_moves .start _ False.elim
  have h6 := hall _ 0 ⟨9, 6, 0⟩ h (Prog.done_eq_some.mp (by decide +kernel))
  revert h6
  decide +kernel

end StreamMem

end Vamos
