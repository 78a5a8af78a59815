import Mathlib.Tactic
import VamosBuffers.Core.Monitor

/-! When the monitor may stop. `finished` is final and nothing is written after it, so an empty
    buffer seen after `finished` was set is empty for good. The invariant says just that: once
    `finished` is set, a monitor that has seen the buffer empty is right. The one access that can
    break it is the store to `finished` itself. -/

namespace Vamos
open Schemes

namespace MonitorBuffer

variable {ε : Type}

/-- The monitor has loaded `head` and found the buffer empty, and has not loaded `finished` since. -/
def SawEmpty (m : MonitorBuffer ε) : Prop := m.buffer.ring.atHead = some 0

/-- There is an event that the monitor has not consumed. -/
def Unread (m : MonitorBuffer ε) : Prop := m.buffer.ring.consumed < m.buffer.ring.written

/-- `finished` is not set while the monitor believes a nonempty buffer to be empty. -/
def FinishesInOrder (l : Acc MonitorLoc) (m : MonitorBuffer ε) : Prop :=
  l = .store .finished → ¬ (SawEmpty m ∧ Unread m)

instance (l : Acc MonitorLoc) (m : MonitorBuffer ε) : Decidable (FinishesInOrder l m) := by
  unfold FinishesInOrder SawEmpty Unread; infer_instance

/-- What a step of the arbiter may change: `finished` is final, and final for `written`. -/
structure ArbiterStep (m m' : MonitorBuffer ε) : Prop where
  buffer : Queue.ProducerStep m.buffer m'.buffer
  finished : m.finished = true → m'.finished = true ∧
    m'.buffer.ring.written = m.buffer.ring.written

/-- What a step of the monitor may change: its side of the queue. -/
structure MonitorStep (m m' : MonitorBuffer ε) : Prop where
  buffer : Queue.ConsumerMoves m.buffer m'.buffer
  finished : m'.finished = m.finished

theorem ArbiterStep.refl (m : MonitorBuffer ε) : ArbiterStep m m := ⟨.refl _, fun h => ⟨h, rfl⟩⟩

theorem MonitorStep.refl (m : MonitorBuffer ε) : MonitorStep m m := ⟨.refl _, rfl⟩

theorem ArbiterStep.trans {m m' m'' : MonitorBuffer ε} (h : ArbiterStep m m')
    (h' : ArbiterStep m' m'') : ArbiterStep m m'' := by
  refine ⟨h.buffer.trans h'.buffer, fun hf => ?_⟩
  obtain ⟨hf', hw⟩ := h.finished hf
  obtain ⟨hf'', hw'⟩ := h'.finished hf'
  exact ⟨hf'', hw'.trans hw⟩

theorem MonitorStep.trans {m m' m'' : MonitorBuffer ε} (h : MonitorStep m m')
    (h' : MonitorStep m' m'') : MonitorStep m m'' :=
  ⟨h.buffer.trans h'.buffer, h'.finished.trans h.finished⟩

/-- The arbiter, which sets `finished` in order. -/
def arbiterRole : Role (MonitorBuffer ε) (Acc MonitorLoc) where
  rely := MonitorStep
  guar _ := ArbiterStep
  refl := MonitorStep.refl
  trans := MonitorStep.trans
  pre := FinishesInOrder

/-- The monitor. -/
def monitorRole : Role (MonitorBuffer ε) (Acc MonitorLoc) where
  rely := ArbiterStep
  guar _ := MonitorStep
  refl := ArbiterStep.refl
  trans := ArbiterStep.trans

variable [Slot ε]

/-- Once `finished` is set, a monitor that saw the buffer empty is right. -/
structure MonitorInv (m : MonitorBuffer ε) : Prop where
  buffer : Queue.QueueInv m.buffer
  empty : m.finished = true → SawEmpty m → ¬ Unread m

/-! ### Arbiter -/

/-- A producer's call on the queue, made before `finished` is set. -/
theorem onBuffer_arbiter {α : Type} {p : QueueProg ε α} {Q : α → Queue ε → Prop}
    {m : MonitorBuffer ε} {N : ℕ} (hf : m.finished = false)
    (h : Safe Queue.QueueInv (Queue.producerRole N) Q p m.buffer) :
    Safe MonitorInv arbiterRole (fun a m' => Q a m'.buffer ∧ m'.finished = false)
      (onBuffer p) m := by
  refine Safe.zoom (I := MonitorInv) (ρ := arbiterRole) (L := bufferLens)
    (φ := Acc.map MonitorLoc.buffer) (p := p) (s := m) (fun m' => m'.finished = false)
    (fun m' i => i.buffer) (fun m' m'' _ hr _ => hr.buffer) (fun _ _ _ => trivial) ?_ ?_ id hf h
  · exact fun m' m'' h' hr _ => hr.finished.trans h'
  · rintro l m' q - hf' hi hq ⟨hs, -⟩
    refine ⟨⟨hs, fun h => ?_⟩, ⟨hq, fun h => ?_⟩, hf'⟩
    all_goals exact absurd (hf'.symm.trans h) (by decide)

/-- `assert(!q->finished)` holds before `finished` is set. -/
theorem checkOpen_safe {m : MonitorBuffer ε} (hf : m.finished = false) :
    Safe MonitorInv arbiterRole (fun _ m' => MonitorStep m m') checkOpen m := by
  refine Safe.load_bind ArbiterStep.refl fun m1 h1 i1 => ?_
  rw [Chk.require_eq (h1.finished.trans hf), Prog.ofChk_pure]
  exact fun m2 h2 _ => h1.trans h2

/-- What the arbiter knows between two calls. -/
def ArbiterKnows : ArbiterAt → MonitorBuffer ε → Prop
  | .idle, m => m.finished = false
  | .waiting, m => m.finished = false
  | .writing p, m => m.finished = false ∧ Queue.WriteSlot p m.buffer
  | .filled, m => m.finished = false ∧ ∃ p x, Queue.WriteSlot p m.buffer ∧ Queue.Filled x m.buffer
  | .closed, _ => True

theorem arbiterBody_safe {i : ArbiterAt} {x : ArbiterCall ε} {m : MonitorBuffer ε}
    (hm : MonitorInv m) (hk : ArbiterKnows i m) (hp : i.permits x) :
    Safe MonitorInv arbiterRole ArbiterKnows (arbiterBody i x) m := by
  -- `write_ptr` from the start and from inside its loop
  have ask : m.finished = false → Safe MonitorInv arbiterRole ArbiterKnows
      (arbiterBody i ArbiterCall.writePtr) m := by
    intro hf
    unfold arbiterBody
    refine Safe.bind hm (Safe.bind hm ((checkOpen_safe hf).mono fun _ m1 i1 h1 => ?_))
    have hf1 := h1.finished.trans hf
    refine (onBuffer_arbiter hf1 (Queue.writePtr_safe (N := 0) i1.buffer)).mono ?_
    rintro r m2 i2 ⟨⟨-, -, hsome, -⟩, hf2⟩
    cases r with
    | some p =>
      exact fun m3 h3 _ => ⟨h3.finished.trans hf2, (hsome p rfl).stable h3.buffer⟩
    | none => exact fun m3 h3 _ => h3.finished.trans hf2
  cases x with
  | writePtr =>
    cases i with
    | idle => exact ask hk
    | waiting => exact ask hk
    | writing p => exact hp.elim
    | filled => exact hp.elim
    | closed => exact hp.elim
  | fill x =>
    cases i with
    | writing p =>
      obtain ⟨hf, hw⟩ := hk
      refine Safe.bind hm ((onBuffer_arbiter hf (Queue.fill_safe (N := 0) hw)).mono ?_)
      rintro - m1 i1 ⟨⟨hw1, hx1, -, -⟩, hf1⟩
      exact fun m2 h2 _ =>
        ⟨h2.finished.trans hf1, p, x, hw1.stable h2.buffer, hx1.stable h2.buffer⟩
    | idle => exact hp.elim
    | waiting => exact hp.elim
    | filled => exact hp.elim
    | closed => exact hp.elim
  | writeFinish =>
    cases i with
    | filled =>
      obtain ⟨hf, p, x, hw, hx⟩ := hk
      refine Safe.bind hm (Safe.bind hm ((checkOpen_safe hf).mono fun _ m1 i1 h1 => ?_))
      have hf1 := h1.finished.trans hf
      refine (onBuffer_arbiter hf1 (Queue.writeFinish_safe i1.buffer (hw.stable h1.buffer)
        (hx.stable h1.buffer) le_rfl)).mono ?_
      rintro - m2 i2 ⟨-, hf2⟩
      exact fun m3 h3 _ => h3.finished.trans hf2
    | idle => exact hp.elim
    | waiting => exact hp.elim
    | writing p => exact hp.elim
    | closed => exact hp.elim
  | setFinished =>
    -- the store that has to come in order
    intro m1 h1 i1 hpre
    refine ⟨⟨.refl _, fun _ => ⟨rfl, rfl⟩⟩, ⟨i1.buffer, fun _ hs hu => hpre rfl ⟨hs, hu⟩⟩, ?_⟩
    exact fun m2 _ _ => trivial

/-! ### Monitor -/

/-- A consumer's call on the queue. -/
theorem onBuffer_monitor {α : Type} {p : QueueProg ε α} {Q : α → Queue ε → Prop}
    {m : MonitorBuffer ε} {N : ℕ}
    (h : Safe Queue.QueueInv (Queue.consumerRole N) Q p m.buffer) :
    Safe MonitorInv monitorRole (fun a m' => Q a m'.buffer) (onBuffer p) m := by
  have hz := Safe.zoom (I := MonitorInv) (ρ := monitorRole) (L := bufferLens)
    (φ := Acc.map MonitorLoc.buffer) (p := p) (s := m) (fun _ => True)
    (fun m' i => i.buffer) (fun m' m'' _ hr _ => hr.buffer) (fun _ _ _ => trivial)
    (fun _ _ _ _ _ => trivial) ?_ id trivial h
  · exact hz.mono fun _ _ _ hq => hq.1
  · rintro l m' q - - hi hq ⟨hs, -, hat, -⟩
    refine ⟨⟨hs.toConsumerMoves, rfl⟩, ⟨hq, fun hf he hu => ?_⟩, trivial⟩
    have hw : q.ring.written = m'.buffer.ring.written := hs.ring.written
    have hc : m'.buffer.ring.consumed ≤ q.ring.consumed := hs.ring.consumed
    have hu' : q.ring.consumed < q.ring.written := hu
    have he' : q.ring.atHead = some 0 := he
    -- what the monitor sees at `head` is what there is
    rcases hat with h0 | h0 | h0
    · exact hi.empty hf (h0.symm.trans he') (by unfold Unread; omega)
    · rw [h0] at he'; cases he'
    · rw [h0] at he'
      have h1 : m'.buffer.ring.written - m'.buffer.ring.consumed = 0 := Option.some.inj he'
      omega

/-- What the monitor knows between two calls. -/
def MonitorKnows : MonitorAt → MonitorBuffer ε → Prop
  | .idle, _ => True
  | .fetching _, _ => True
  | .fetched p, m => m.buffer.ring.Avail 1 ∧ p = m.buffer.slotOf m.buffer.ring.consumed
  | .ended, m => m.finished = true ∧ ¬ Unread m

omit [Slot ε] in
theorem MonitorKnows.stable {i : MonitorAt} {m m' : MonitorBuffer ε} (h : MonitorKnows i m)
    (hr : ArbiterStep m m') : MonitorKnows i m' := by
  cases i with
  | idle => trivial
  | fetching w => trivial
  | fetched p =>
    refine ⟨h.1.stable hr.buffer.ring, ?_⟩
    rw [Queue.slotOf_congr hr.buffer.capacity hr.buffer.elemSize, hr.buffer.ring.consumed]
    exact h.2
  | ended =>
    obtain ⟨hf, hu⟩ := h
    obtain ⟨hf', hw⟩ := hr.finished hf
    refine ⟨hf', ?_⟩
    unfold Unread
    rw [hw, hr.buffer.ring.consumed]
    exact hu

/-- A fetch that found nothing and then found `finished` set is right to stop. -/
theorem loadFinished_safe {m : MonitorBuffer ε} (hs : SawEmpty m) :
    Safe MonitorInv monitorRole (fun r m' => r = true → m'.finished = true ∧ ¬ Unread m')
      loadFinished m := by
  refine Safe.access fun m1 h1 i1 => ?_
  have hs1 : SawEmpty m1 := h1.buffer.ring.atHead.trans hs
  have hq : Queue.QueueInv
      { m1.buffer with ring := { m1.buffer.ring with atHead := none } } :=
    ⟨(Ringbuf.recordHead_inv i1.buffer.ring none).2, i1.buffer.slots, i1.buffer.pos, i1.buffer.fits,
      i1.buffer.filled, i1.buffer.data⟩
  refine ⟨⟨⟨(Ringbuf.recordHead_inv i1.buffer.ring none).1, rfl, rfl, rfl, rfl⟩, rfl⟩,
    ⟨hq, fun _ he => by cases he⟩, fun m2 h2 _ hr => ?_⟩
  have hu : MonitorKnows .ended m1 := ⟨hr, i1.empty hr hs1⟩
  have hu' : MonitorKnows .ended
      { m1 with buffer := { m1.buffer with ring := { m1.buffer.ring with atHead := none } } } := hu
  exact hu'.stable h2

theorem monitorClient_safe {i : MonitorAt} {x : MonitorCall} {m : MonitorBuffer ε}
    (hm : MonitorInv m) (hk : MonitorKnows i m) (he : monitorClient.enabled i x m) :
    Safe MonitorInv monitorRole MonitorKnows (monitorClient.body i x) m := by
  cases x with
  | fetch =>
    show Safe MonitorInv monitorRole MonitorKnows (fetchArbiterStream _) m
    unfold fetchArbiterStream
    refine Safe.bind hm ((onBuffer_monitor (Queue.top_safe (N := 0) hm.buffer)).mono ?_)
    rintro r m1 i1 ⟨hsome, hnone⟩
    cases r with
    | some p =>
      have h1 : MonitorKnows (.fetched p) m1 := hsome p rfl
      exact fun m2 h2 _ => h1.stable h2
    | none =>
      refine Safe.bind i1 ((loadFinished_safe (hnone rfl)).mono fun fin m2 i2 hfin => ?_)
      cases fin with
      | true =>
        have h2 : MonitorKnows .ended m2 := hfin rfl
        exact fun m3 h3 _ => h2.stable h3
      | false => exact fun m3 h3 _ => trivial
  | consume =>
    cases i with
    | fetched p =>
      have hmax := hm.buffer.ring.base.max
      refine Safe.bind hm ((onBuffer_monitor (Queue.drop_safe (N := m.buffer.ring.consumed + 1)
        hk.1 Nat.one_pos le_rfl (by omega) le_rfl)).mono fun _ m1 _ _ => ?_)
      exact fun m2 _ _ => trivial
    | idle => exact he.elim
    | fetching w => exact he.elim
    | ended => exact he.elim

/-! ### Runs -/

def role : Thread → Role (MonitorBuffer ε) (Acc MonitorLoc)
  | .arbiter => arbiterRole
  | .monitor => monitorRole

def Known : (t : Thread) → At t → MonitorBuffer ε → Prop
  | .arbiter => ArbiterKnows
  | .monitor => MonitorKnows

/-- Every configuration of every run that sets `finished` in order. -/
theorem reach_inv {eventSize capacity : ℕ} {data : ℕ → ε}
    (hi : (init eventSize capacity data).ok = true) {cfg : MonitorCfg ε}
    (h : Reach (clients FinishesInOrder) (start eventSize capacity data) cfg) :
    MonitorInv cfg.mem ∧
      ∀ t, Safe MonitorInv (role t) (Known t) (cfg.prog t) cfg.mem := by
  have hq : Queue.QueueInv (Queue.init capacity eventSize data).val :=
    (Queue.init_inv ((Chk.bind_ok _ _).mp hi).1).1
  refine reach_safe (ρ := role) (Q := Known) ?_ ?_ ?_ ⟨hq, fun hf => by cases hf⟩ ?_ h
  · intro t l m ha
    cases t with
    | arbiter => exact ha
    | monitor => trivial
  · intro t u htu l m m' _ _ hg
    cases t <;> cases u <;> first | exact absurd rfl htu | exact hg
  · intro t i x m hm hk he
    cases t with
    | arbiter => exact arbiterBody_safe hm hk he
    | monitor => exact monitorClient_safe hm hk he
  · intro t
    cases t with
    | arbiter =>
      intro m hr _
      have hs : MonitorStep (start eventSize capacity data).mem m := hr
      exact hs.finished
    | monitor => exact fun m _ _ => trivial

/-- The monitor misses nothing in a run that sets `finished` in order: a fetch returns `NULL` only
    when `finished` is set and every event written has been consumed, and it returns the oldest
    unread event otherwise. -/
theorem fetch_misses_nothing {eventSize capacity : ℕ} {data : ℕ → ε}
    (hi : (init eventSize capacity data).ok = true) {cfg : MonitorCfg ε}
    (h : Reach (clients FinishesInOrder) (start eventSize capacity data) cfg) :
    (cfg.prog .monitor = .ret .ended → cfg.mem.finished = true ∧
      cfg.mem.buffer.ring.consumed = cfg.mem.buffer.ring.written) ∧
    ∀ p, cfg.prog .monitor = .ret (.fetched p) →
      cfg.mem.buffer.ring.consumed < cfg.mem.buffer.ring.written ∧
      p = cfg.mem.buffer.slotOf cfg.mem.buffer.ring.consumed := by
  obtain ⟨hm, hs⟩ := reach_inv hi h
  refine ⟨fun hp => ?_, fun p hp => ?_⟩
  · have hk : MonitorKnows .ended cfg.mem := (hs .monitor).at_ret hm hp
    have hle := hm.buffer.ring.consumed_le
    have hu := hk.2
    unfold Unread at hu
    exact ⟨hk.1, by omega⟩
  · have hk : MonitorKnows (.fetched p) cfg.mem := (hs .monitor).at_ret hm hp
    have hle := hk.1.le_items
    exact ⟨by omega, hk.2⟩

/-- The event is written and consumed, `finished` is set, and the next fetch returns `NULL`. -/
theorem fetch_misses_nothing_one : ∃ cfg : MonitorCfg Event,
    Reach (clients FinishesInOrder) (start 24 1 fun _ => ⟨0, 0, 0⟩) cfg ∧
    cfg.prog .monitor = .ret .ended ∧ cfg.mem.buffer.ring.written = 1 ∧
    cfg.mem.finished = true ∧ cfg.mem.buffer.ring.consumed = cfg.mem.buffer.ring.written := by
  have h0 : Reach (clients FinishesInOrder) (start 24 1 fun _ => (⟨0, 0, 0⟩ : Event)) _ := .start
  have h1 := h0.callIn .arbiter (i := .idle) .writePtr rfl trivial
    (by show Prog.within FinishesInOrder _ _; decide)
  have h2 := h1.callIn .arbiter (i := .writing 0) (.fill ⟨10, 1, 0⟩) rfl trivial
    (by show Prog.within FinishesInOrder _ _; decide)
  have h3 := h2.callIn .arbiter (i := .filled) .writeFinish rfl trivial
    (by show Prog.within FinishesInOrder _ _; decide)
  have h4 := h3.call .monitor (i := .idle) .fetch rfl trivial fun _ _ => trivial
  have h5 := h4.call .monitor (i := .fetched 0) .consume rfl trivial fun _ _ => trivial
  have h6 := h5.callIn .arbiter (i := .idle) .setFinished rfl trivial
    (by show Prog.within FinishesInOrder _ _; decide)
  have h7 := h6.call .monitor (i := .idle) .fetch rfl trivial fun _ _ => trivial
  exact ⟨_, h7, rfl, rfl, (fetch_misses_nothing (by decide) h7).1 rfl⟩

/-- One event, written and closed off between the two tests of a fetch: the fetch returns `NULL` and
    the event stays in the buffer. -/
theorem fetch_misses_event : ¬ ∀ cfg : MonitorCfg Event,
    Reach (clients fun _ _ => True) (start 24 1 fun _ => ⟨0, 0, 0⟩) cfg →
    cfg.prog .monitor = .ret .ended →
    cfg.mem.buffer.ring.consumed = cfg.mem.buffer.ring.written := by
  intro hall
  have all : ∀ l m, ((clients fun _ _ => True : (t : Thread) →
    Client (MonitorBuffer Event) (Acc MonitorLoc) (At t) (Call Event t)) .arbiter).allowed l m :=
    fun _ _ => trivial
  have h0 : Reach (clients fun _ _ => True) (start 24 1 fun _ => (⟨0, 0, 0⟩ : Event)) _ := .start
  -- the fetch loads `tail`, `seen_head` and `head`, and updates `seen_head`: the buffer is empty
  have h1 := h0.begin .monitor (i := .idle) .fetch rfl trivial
  have h2 := (((((h1.once .monitor fun _ _ => trivial).once .monitor fun _ _ => trivial).once
    .monitor fun _ _ => trivial).once .monitor fun _ _ => trivial).once .monitor fun _ _ => trivial)
  have h3 := h2.call .arbiter (i := .idle) .writePtr rfl trivial all
  have h4 := h3.call .arbiter (i := .writing 0) (.fill ⟨10, 1, 0⟩) rfl trivial all
  have h5 := h4.call .arbiter (i := .filled) .writeFinish rfl trivial all
  have h6 := h5.call .arbiter (i := .idle) .setFinished rfl trivial all
  have h7 := h6.finish .monitor (Prog.within_of_forall (fun _ _ => trivial) _ _)
  exact absurd (hall _ h7 rfl) (by decide)

end MonitorBuffer

end Vamos
