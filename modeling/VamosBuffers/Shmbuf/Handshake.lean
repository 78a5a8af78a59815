import Mathlib.Tactic
import VamosBuffers.Schemes.RelyGuarantee
import VamosBuffers.Shmbuf.Register
import VamosBuffers.Shmbuf.BufferControl
import VamosBuffers.Core.EventCache
import VamosBuffers.Core.Event

/-! How a source learns which kinds its events have. The reader registers events and then says that it
    is ready (`vms_stream_attach`); the source waits until it does (`vms_shm_buffer_wait_for_reader` of
    `src/shmbuf/client.c`) and reads the kinds from the shared control block, with nothing but two bits
    of `info.flags` between the two.

        reader   EVENTS_REGISTERED   kind   kind   kind   READER_IS_READY
        source                                               └─ wait ─── kind kind kind

    The first bit is set before the first kind is stored, so it is the second one that says that the
    kinds are there. -/

namespace Vamos
open Schemes

/-- What the two sides share before the first event. -/
structure HandshakeMem extends EventsBuffer where
  /-- `info.destroyed` -/
  destroyed : Bool
  /-- history: the reader has been ready -/
  announced : Bool
  deriving DecidableEq, Repr

/-- The accesses to the flags, to `destroyed` and to the control block. -/
inductive HandshakeAcc where
  | flags | setFlags | unsetFlags | destroyed | setDestroyed
  | size | name (i : ℕ) | kind (i : ℕ) | setKind (i : ℕ)
  deriving DecidableEq, Repr

abbrev HandshakeProg (α : Type) : Type := Prog HandshakeMem HandshakeAcc α

/-- A call that registers. -/
inductive Registration where
  | event (name : Text) (kind : ℕ)
  | all
  deriving DecidableEq, Repr

/-- A control block with these records. -/
def Control.ofRecords (recs : List EventRecord) : Control :=
  ⟨Control.headBytes + recs.length * EventRecord.bytes, recs.map some⟩

/-- The record of that name. -/
def EventRecord.named (name : Text) (r : EventRecord) : Bool :=
  strncmpEq (EventRecord.maxNameSize + 1) (cString r.name) name

namespace HandshakeMem

/-- `READER_IS_READY`. -/
def readerReady : ℕ := 1

/-- A load. -/
def get {α : Type} (l : HandshakeAcc) (f : HandshakeMem → α) : HandshakeProg α :=
  Prog.access l f fun m => m

/-- `assert(p)`. -/
def check (p : Prop) [Decidable p] : HandshakeProg Unit := Prog.ofChk (Chk.require p)

/-! ### Flags -/

/-- `vms_shm_buffer_get_flags`. -/
def getFlags : HandshakeProg ℕ := get .flags fun m => m.flags

/-- `vms_shm_buffer_set_flags`, an atomic operation. -/
def setFlags (flags : ℕ) : HandshakeProg Unit :=
  Prog.access .setFlags (fun _ => ()) fun m =>
    { m with flags := m.flags ||| flags,
             announced := m.announced || flags == readerReady }

/-- `vms_shm_buffer_unset_flags`, an atomic operation. -/
def unsetFlags (flags : ℕ) : HandshakeProg Unit :=
  Prog.access .unsetFlags (fun _ => ()) fun m =>
    { m with flags := m.flags &&& (2 ^ 64 - 1 - flags) }

/-- `vms_shm_buffer_is_destroyed`. -/
def isDestroyed : HandshakeProg Bool := get .destroyed fun m => m.destroyed

/-- `vms_shm_buffer_set_destroyed`. -/
def setDestroyed : HandshakeProg Unit :=
  Prog.access .setDestroyed (fun _ => ()) fun m => { m with destroyed := true }

/-- `vms_shm_buffer_reader_is_ready`. -/
def readerIsReady : HandshakeProg Bool := do
  let flags ← getFlags
  pure (flags &&& readerReady != 0)

/-- `vms_shm_buffer_set_reader_is_ready`, and `vms_stream_attach`. -/
def setReaderIsReady : HandshakeProg Unit := do
  let flags ← getFlags
  check (flags &&& EventsBuffer.eventsRegistered ≠ 0)
  let destroyed ← isDestroyed
  if destroyed then pure () else setFlags readerReady

/-- `vms_stream_detach`. -/
def detach : HandshakeProg Unit := unsetFlags readerReady

/-! ### Records -/

/-- `vms_source_control_get_records_num`. -/
def getRecordsNum : HandshakeProg ℕ := do
  let n ← get .size fun m => m.control.getRecordsNum
  Prog.ofChk n

/-- The loop of `vms_source_control_get_event`, with `left` records to look at. -/
def getEventFrom (name : Text) : ℕ → ℕ → HandshakeProg (Option ℕ)
  | 0, _ => pure none
  | left + 1, i => do
    match ← get (.name i) fun m => m.control.events[i]? with
    | some (some r) => if r.named name then pure (some i) else getEventFrom name left (i + 1)
    | _ => .fault (pure none)

/-- `recs[i].kind = kind`. -/
def setKind (i kind : ℕ) : HandshakeProg Unit :=
  Prog.access (.setKind i) (fun _ => ()) fun m => { m with control := m.control.setKind i kind }

/-- `vms_shm_buffer_register_event`. -/
def registerEvent (name : Text) (kind : ℕ) : HandshakeProg ℤ := do
  check (Event.lastSpecialKind < kind)
  setFlags EventsBuffer.eventsRegistered
  let num ← getRecordsNum
  match ← getEventFrom name num 0 with
  | none => pure (-1)
  | some i => do
    setKind i kind
    pure 0

/-- The kind that the record at `i` gets. -/
def kindOf (i : ℕ) : ℕ := (1 + i + Event.lastSpecialKind) % 2 ^ 64

/-- The loop of `vms_shm_buffer_register_all_events`. -/
def registerFrom : ℕ → ℕ → HandshakeProg Unit
  | 0, _ => pure ()
  | left + 1, i => do
    setKind i (kindOf i)
    registerFrom left (i + 1)

/-- `vms_shm_buffer_register_all_events`. -/
def registerAllEvents : HandshakeProg ℤ := do
  let num ← getRecordsNum
  setFlags EventsBuffer.eventsRegistered
  registerFrom num 0
  pure 0

def register : Registration → HandshakeProg ℤ
  | .event name kind => registerEvent name kind
  | .all => registerAllEvents

/-- A source reads the kinds of the events it got from `vms_shm_buffer_get_avail_events`. -/
def kindsFrom : ℕ → ℕ → HandshakeProg (List ℕ)
  | 0, _ => pure []
  | left + 1, i => do
    match ← get (.kind i) fun m => m.control.events[i]? with
    | some (some r) => do
      let kinds ← kindsFrom left (i + 1)
      pure (r.kind :: kinds)
    | _ => .fault (pure [])

/-- `vms_shm_buffer_get_avail_events`, and the kinds of the events. -/
def availKinds : HandshakeProg (List ℕ) := do
  let flags ← getFlags
  check (flags &&& EventsBuffer.eventsRegistered ≠ 0)
  let num ← getRecordsNum
  kindsFrom num 0

/-! ### Waiting -/

/-- `EINTR`. -/
def eintr : ℤ := 4

/-- `EOWNERDEAD`. -/
def eownerdead : ℤ := 130

/-- One turn of the loop of `vms_shm_buffer_wait_for_reader`: nothing if it goes on, else what the
    function returns. `sleepErr` is the `errno` of this turn's `sleep_ms`, or 0. -/
def waitTurn (sleepErr : ℕ) (interrupted : Bool) : HandshakeProg (Option ℤ) := do
  let ready ← readerIsReady
  if ready then pure (some (-sleepErr))
  else if sleepErr ≠ 0 then pure (some (-sleepErr))
  else if interrupted then pure (some (-eintr))
  else do
    let destroyed ← isDestroyed
    pure (if destroyed then some (-eownerdead) else none)

/-! ### Threads -/

/-- One reader, and any number of threads of the source. -/
inductive Thread where
  | reader
  | source (t : ℕ)
  deriving DecidableEq, Repr

/-- What the reader has still to register, or that it is done with that. -/
inductive ReaderAt where
  | registering (left : List Registration)
  | attached
  deriving DecidableEq, Repr

inductive ReaderCall where
  | next | attach | detach
  deriving DecidableEq, Repr

/-- A thread of the source: in the loop of `wait_for_reader`, after it, or after reading the kinds. -/
inductive SourceAt where
  | idle
  | waiting
  | returned (err : ℤ)
  | knows (kinds : List ℕ)
  deriving DecidableEq, Repr

inductive SourceCall where
  | wait (sleepErr : ℕ) (interrupted : Bool)
  | avail
  | setDestroyed
  deriving DecidableEq, Repr

abbrev At : Thread → Type
  | .reader => ReaderAt
  | .source _ => SourceAt

abbrev Call : Thread → Type
  | .reader => ReaderCall
  | .source _ => SourceCall

/-- The reader registers everything before it is ready; later it may detach and attach again. -/
def readerClient : Client HandshakeMem HandshakeAcc ReaderAt ReaderCall where
  enabled i x _ := match i, x with
    | .registering _, .next => True
    | .attached, .attach => True
    | .attached, .detach => True
    | _, _ => False
  body i x := match i, x with
    | .registering (r :: left), _ => do
      let _ ← register r
      pure (.registering left)
    | .registering [], _ => do
      setReaderIsReady
      pure .attached
    | .attached, .detach => do
      detach
      pure .attached
    | .attached, _ => do
      setReaderIsReady
      pure .attached

/-- The source reads the kinds when it has waited successfully. -/
def sourceClient : Client HandshakeMem HandshakeAcc SourceAt SourceCall where
  enabled i x _ := match i, x with
    | .idle, .wait _ _ => True
    | .waiting, .wait _ _ => True
    | .returned err, .avail => err = 0
    | .waiting, _ => False
    | _, .setDestroyed => True
    | _, _ => False
  body _ x := match x with
    | .wait sleepErr interrupted => do
      match ← waitTurn sleepErr interrupted with
      | none => pure .waiting
      | some err => pure (.returned err)
    | .avail => do
      let kinds ← availKinds
      pure (.knows kinds)
    | .setDestroyed => do
      setDestroyed
      pure .idle

def clients : (t : Thread) → Client HandshakeMem HandshakeAcc (At t) (Call t)
  | .reader => readerClient
  | .source _ => sourceClient

abbrev HandshakeCfg : Type := Cfg HandshakeMem HandshakeAcc At

/-! ### What registering comes to -/

end HandshakeMem

/-- The records after a call that registers. -/
def Registration.apply (recs : List EventRecord) : Registration → List EventRecord
  | .event name kind =>
    match recs.findIdx? (EventRecord.named name) with
    | none => recs
    | some i => recs.modify i fun r => { r with kind }
  | .all => recs.mapIdx fun i r => { r with kind := HandshakeMem.kindOf i }

/-- The assertion on the kind. -/
def Registration.Ok : Registration → Prop
  | .event _ kind => Event.lastSpecialKind < kind
  | .all => True

namespace HandshakeMem

/-- A new buffer, and what its reader is going to register. -/
structure Setup where
  records : List EventRecord
  fits : Control.headBytes + records.length * EventRecord.bytes < 2 ^ 64
  regs : List Registration
  ok : ∀ r ∈ regs, r.Ok
  /-- the assertion of `vms_shm_buffer_set_reader_is_ready` -/
  some : regs ≠ []

namespace Setup

/-- The records in the end. -/
def registered (s : Setup) : List EventRecord := s.regs.foldl Registration.apply s.records

def mem (s : Setup) : HandshakeMem := ⟨⟨.ofRecords s.records, 0⟩, false, false⟩

def prog (s : Setup) : (t : Thread) → HandshakeProg (At t)
  | .reader => .ret (.registering s.regs)
  | .source _ => .ret .idle

def start (s : Setup) : HandshakeCfg := ⟨s.mem, s.prog⟩

end Setup

end HandshakeMem

/-! ### Records -/

theorem Control.setKind_ofRecords (recs : List EventRecord) (i kind : ℕ) :
    (ofRecords recs).setKind i kind = ofRecords (recs.modify i fun r => { r with kind }) := by
  have hmap : (recs.map some).modify i (Option.map fun r => { r with kind }) =
      (recs.modify i fun r => { r with kind }).map some := by
    refine List.ext_getElem? fun j => ?_
    simp only [List.getElem?_map, List.getElem?_modify, Option.map_eq_map, Option.map_map]
    cases recs[j]? with
    | none => rfl
    | some r => by_cases hij : i = j <;> simp [hij]
  simp only [Control.setKind, ofRecords, List.length_modify]
  exact congrArg _ hmap

theorem Registration.length_apply (recs : List EventRecord) (r : Registration) :
    (r.apply recs).length = recs.length := by
  cases r with
  | all => exact List.length_mapIdx
  | event name kind =>
    simp only [Registration.apply]
    split
    · rfl
    · exact List.length_modify _ _ _

namespace HandshakeMem

/-! ### One call alone

Run alone, registering an event is what `EventsBuffer.registerEvent` says. -/

theorem getEventFrom_run {name : Text} {m : HandshakeMem} : ∀ {left i : ℕ} {r : Option ℕ},
    Control.getEventFrom m.control.events name left i = some r →
    (getEventFrom name left i).run m = (r, m)
  | 0, _, _, h => by
    obtain rfl := Option.some.inj h
    rfl
  | left + 1, i, r, h => by
    simp only [getEventFrom, get, Prog.run_bind, Prog.run_access]
    rw [Control.getEventFrom] at h
    generalize m.control.events[i]? = e at h ⊢
    rcases e with _ | _ | x
    · cases h
    · cases h
    · dsimp only at h ⊢
      split at h
      case isTrue hn =>
        obtain rfl := Option.some.inj h
        rw [if_pos (show x.named name = true from hn)]
        rfl
      case isFalse hn =>
        rw [if_neg (show ¬ x.named name = true from hn)]
        exact getEventFrom_run h

theorem registerEvent_run {name : Text} {kind : ℕ} {m : HandshakeMem} {ret : ℤ} {b : EventsBuffer}
    (h : m.toEventsBuffer.registerEvent name kind = some (ret, b)) :
    (registerEvent name kind).run m = (ret, { m with toEventsBuffer := b }) := by
  simp only [EventsBuffer.registerEvent, Option.bind_eq_bind, Option.bind_eq_some_iff] at h
  obtain ⟨-, -, found, hfound, h⟩ := h
  have hann : (m.announced || EventsBuffer.eventsRegistered == readerReady) = m.announced :=
    Bool.or_false _
  have hloop : (getEventFrom name m.control.getRecordsNum.val 0).run { m with
      flags := m.flags ||| EventsBuffer.eventsRegistered } = (found, _) := getEventFrom_run hfound
  simp only [registerEvent, check, setFlags, getRecordsNum, get, Prog.run_bind, Prog.run_ofChk,
    Prog.run_access, hann]
  rw [hloop]
  cases found with
  | none =>
    obtain ⟨rfl, rfl⟩ := Prod.mk.inj (Option.some.inj h)
    rfl
  | some i =>
    obtain ⟨rfl, rfl⟩ := Prod.mk.inj (Option.some.inj h)
    rfl

/-! ### Roles -/

/-- Once the reader has been ready, the kinds are the registered ones. -/
structure HandshakeInv (s : Setup) (m : HandshakeMem) : Prop where
  ready : m.flags &&& readerReady ≠ 0 → m.announced = true
  registered : m.announced = true → m.control = .ofRecords s.registered
  flagged : m.announced = true → m.flags &&& EventsBuffer.eventsRegistered ≠ 0

/-- What a source can do to the reader: nothing but to set `destroyed`. -/
structure SourceStep (m m' : HandshakeMem) : Prop where
  buffer : m'.toEventsBuffer = m.toEventsBuffer
  announced : m'.announced = m.announced

/-- What the reader can do to a source. -/
def ReaderStep (m m' : HandshakeMem) : Prop :=
  m.announced = true → m'.announced = true ∧ m'.control = m.control

theorem SourceStep.readerStep {m m' : HandshakeMem} (h : SourceStep m m') : ReaderStep m m' :=
  fun ha => ⟨h.announced.trans ha, by rw [h.buffer]⟩

def readerRole : Role HandshakeMem HandshakeAcc where
  rely := SourceStep
  guar _ := ReaderStep
  refl _ := ⟨rfl, rfl⟩
  trans h h' := ⟨h'.buffer.trans h.buffer, h'.announced.trans h.announced⟩

def sourceRole : Role HandshakeMem HandshakeAcc where
  rely := ReaderStep
  guar _ := SourceStep
  refl _ h := ⟨h, rfl⟩
  trans h h' ha :=
    let ⟨h1, h2⟩ := h ha
    let ⟨h3, h4⟩ := h' h1
    ⟨h3, h4.trans h2⟩

/-- The reader before it is ready: these are the records, and something has been registered, if that
    is `flagged`. -/
structure Holds (recs : List EventRecord) (flagged : Prop) (m : HandshakeMem) : Prop where
  control : m.control = .ofRecords recs
  announced : m.announced = false
  flag : flagged → m.flags &&& EventsBuffer.eventsRegistered ≠ 0

theorem Holds.stable {recs : List EventRecord} {flagged : Prop} {m m' : HandshakeMem}
    (h : Holds recs flagged m) (hr : SourceStep m m') : Holds recs flagged m' :=
  ⟨by rw [hr.buffer]; exact h.control, hr.announced.trans h.announced,
    fun hf => by rw [hr.buffer]; exact h.flag hf⟩

/-! ### The reader -/

section Reader

variable {s : Setup} {recs : List EventRecord} {flagged : Prop} {m : HandshakeMem}

/-- A load of the reader. -/
theorem load_safe {α β : Type} {K : HandshakeMem → Prop} {Q : β → HandshakeMem → Prop}
    {l : HandshakeAcc} {f : HandshakeMem → α} {g : α → HandshakeProg β}
    (hK : ∀ m m', K m → SourceStep m m' → K m') (h : K m)
    (hg : ∀ m', K m' → HandshakeInv s m' → Safe (HandshakeInv s) readerRole Q (g (f m')) m') :
    Safe (HandshakeInv s) readerRole Q (get l f >>= g) m :=
  Safe.access_bind fun m' hr hi => ⟨fun ha => ⟨ha, rfl⟩, hi, hg m' (hK m m' h hr) hi⟩

theorem ret_safe {α : Type} {a : α} {Q : α → HandshakeMem → Prop} (h : Holds recs flagged m)
    (hQ : ∀ m', Holds recs flagged m' → Q a m') :
    Safe (HandshakeInv s) readerRole Q (.ret a) m := fun _ hr _ => hQ _ (h.stable hr)

theorem getRecordsNum_safe (h : Holds recs flagged m)
    (hn : Control.headBytes + recs.length * EventRecord.bytes < 2 ^ 64) :
    Safe (HandshakeInv s) readerRole (fun n m' => n = recs.length ∧ Holds recs flagged m')
      getRecordsNum m := by
  refine load_safe (fun _ _ h hr => Holds.stable h hr) h fun m' h' _ => ?_
  rw [h'.control, Control.ofRecords, Control.getRecordsNum_built hn, Prog.ofChk_pure]
  exact ret_safe h' fun _ h'' => ⟨rfl, h''⟩

theorem setFlags_registered_safe (h : Holds recs flagged m) :
    Safe (HandshakeInv s) readerRole (fun _ => Holds recs True)
      (setFlags EventsBuffer.eventsRegistered) m := by
  refine Safe.access fun m1 h1 i1 => ?_
  have h2 := h.stable h1
  have hann : (m1.announced || EventsBuffer.eventsRegistered == readerReady) = false := by
    rw [h2.announced]
    rfl
  have hset : (m1.flags ||| EventsBuffer.eventsRegistered) &&& EventsBuffer.eventsRegistered ≠ 0 := by
    rw [Nat.and_or_distrib_right]
    intro h0
    exact absurd (Nat.or_eq_zero_iff.mp h0).2 (by decide)
  refine ⟨fun ha => absurd (ha.symm.trans h2.announced) (by decide), ⟨fun hr => ?_, ?_, ?_⟩,
    fun m3 h3 _ => Holds.stable (m := { m1 with
      flags := m1.flags ||| EventsBuffer.eventsRegistered
      announced := m1.announced || EventsBuffer.eventsRegistered == readerReady })
      ⟨h2.control, hann, fun _ => hset⟩ h3⟩
  · -- the bit of the reader is as it was
    have hbit : (m1.flags ||| EventsBuffer.eventsRegistered) &&& readerReady =
        m1.flags &&& readerReady := by
      rw [Nat.and_or_distrib_right]
      exact Nat.or_zero _
    rw [i1.ready (hbit ▸ hr)]
    rfl
  · exact fun ha => absurd (ha.symm.trans hann) (by decide)
  · exact fun ha => absurd (ha.symm.trans hann) (by decide)

theorem setKind_safe (h : Holds recs flagged m) (i kind : ℕ) :
    Safe (HandshakeInv s) readerRole
      (fun _ => Holds (recs.modify i fun r => { r with kind }) flagged) (setKind i kind) m := by
  refine Safe.access fun m1 h1 i1 => ?_
  have h2 := h.stable h1
  have hno : m1.announced ≠ true := by
    rw [h2.announced]
    decide
  refine ⟨fun ha => absurd ha hno, ⟨i1.ready, fun ha => absurd ha hno, i1.flagged⟩,
    fun m3 h3 _ => Holds.stable (m := { m1 with control := m1.control.setKind i kind })
      ⟨?_, h2.announced, h2.flag⟩ h3⟩
  rw [h2.control, Control.setKind_ofRecords]

/-- The loop finds the first record of that name. -/
theorem getEventFrom_safe (name : Text) : ∀ (seen rest : List EventRecord) {m : HandshakeMem},
    Holds (seen ++ rest) flagged m →
    Safe (HandshakeInv s) readerRole (fun r m' =>
      r = (rest.findIdx? (EventRecord.named name)).map (· + seen.length) ∧
        Holds (seen ++ rest) flagged m') (getEventFrom name rest.length seen.length) m
  | seen, [], m, h => ret_safe h fun _ h' => ⟨rfl, h'⟩
  | seen, r :: rest, m, h => by
    refine load_safe (fun _ _ h hr => Holds.stable h hr) h fun m1 h1 _ => ?_
    have hr : m1.control.events[seen.length]? = some (some r) := by
      rw [h1.control]
      simp [Control.ofRecords]
    rw [hr]
    by_cases hn : r.named name = true
    · simp only [hn, if_true]
      refine ret_safe h1 fun _ h2 => ⟨?_, h2⟩
      simp [List.findIdx?_cons, hn]
    · simp only [hn]
      have happ : seen ++ r :: rest = (seen ++ [r]) ++ rest := by simp
      have ih := getEventFrom_safe name (seen ++ [r]) rest (m := m1) (happ ▸ h1)
      rw [List.length_append, List.length_singleton] at ih
      refine ih.mono fun found m2 _ h2 => ⟨?_, happ ▸ h2.2⟩
      rw [h2.1, List.findIdx?_cons, if_neg hn, Option.map_map]
      congr 1
      funext k
      simp only [Function.comp_apply]
      omega

theorem registerEvent_safe (h : Holds recs flagged m)
    (hn : Control.headBytes + recs.length * EventRecord.bytes < 2 ^ 64) (hi : HandshakeInv s m)
    (name : Text) {kind : ℕ} (hk : Event.lastSpecialKind < kind) :
    Safe (HandshakeInv s) readerRole
      (fun _ => Holds ((Registration.event name kind).apply recs) True) (registerEvent name kind)
      m := by
  rw [registerEvent, check, Chk.require_eq hk, Prog.ofChk_pure, Prog.ret_bind]
  refine Safe.bind hi ((setFlags_registered_safe h).mono fun _ m1 i1 h1 => ?_)
  refine Safe.bind i1 ((getRecordsNum_safe h1 hn).mono fun n m2 i2 h2 => ?_)
  obtain ⟨rfl, h2⟩ := h2
  refine Safe.bind i2 ((getEventFrom_safe name [] recs h2).mono fun found m3 i3 h3 => ?_)
  obtain ⟨hf, h3⟩ := h3
  rw [List.nil_append] at h3
  rw [List.length_nil, Option.map_congr fun _ _ => Nat.add_zero _, Option.map_id'] at hf
  cases hfound : recs.findIdx? (EventRecord.named name) with
  | none =>
    rw [hf, hfound]
    refine ret_safe h3 fun m4 h4 => ?_
    simpa only [Registration.apply, hfound] using h4
  | some i =>
    rw [hf, hfound]
    refine Safe.bind i3 ((setKind_safe h3 i kind).mono fun _ m4 _ h4 => ?_)
    refine ret_safe h4 fun m5 h5 => ?_
    simpa only [Registration.apply, hfound] using h5

/-- The loop gives each record its kind. -/
theorem registerFrom_safe : ∀ (seen rest : List EventRecord) {m : HandshakeMem},
    HandshakeInv s m → Holds (seen ++ rest) flagged m →
    Safe (HandshakeInv s) readerRole (fun _ => Holds (seen ++ rest.mapIdx fun j r =>
      { r with kind := kindOf (seen.length + j) }) flagged) (registerFrom rest.length seen.length) m
  | seen, [], m, _, h => ret_safe h fun _ h' => h'
  | seen, r :: rest, m, hi, h => by
    refine Safe.bind hi ((setKind_safe h seen.length (kindOf seen.length)).mono
      fun _ m1 i1 h1 => ?_)
    have hmod : ((seen ++ r :: rest).modify seen.length fun r =>
        { r with kind := kindOf seen.length }) =
        (seen ++ [{ r with kind := kindOf seen.length }]) ++ rest := by
      simp [List.modify_eq_take_cons_drop]
    rw [hmod] at h1
    have ih := registerFrom_safe _ rest i1 h1
    rw [List.length_append, List.length_singleton] at ih
    refine ih.mono fun _ m2 _ h2 => ?_
    rw [List.mapIdx_cons]
    simpa [Nat.add_assoc, Nat.add_comm 1] using h2

theorem register_safe (h : Holds recs flagged m)
    (hn : Control.headBytes + recs.length * EventRecord.bytes < 2 ^ 64) (hi : HandshakeInv s m)
    {r : Registration} (hr : r.Ok) :
    Safe (HandshakeInv s) readerRole (fun _ => Holds (r.apply recs) True) (register r) m := by
  cases r with
  | event name kind => exact registerEvent_safe h hn hi name hr
  | all =>
    refine Safe.bind hi ((getRecordsNum_safe h hn).mono fun n m1 i1 h1 => ?_)
    obtain ⟨rfl, h1⟩ := h1
    refine Safe.bind i1 ((setFlags_registered_safe h1).mono fun _ m2 i2 h2 => ?_)
    refine Safe.bind i2 ((registerFrom_safe [] recs i2 h2).mono fun _ m3 _ h3 => ?_)
    refine ret_safe h3 fun m4 h4 => ?_
    simpa [Registration.apply] using h4

/-- The reader after it has registered everything. -/
structure Attached (s : Setup) (m : HandshakeMem) : Prop where
  control : m.control = .ofRecords s.registered
  flag : m.flags &&& EventsBuffer.eventsRegistered ≠ 0

theorem Attached.stable {m m' : HandshakeMem} (h : Attached s m) (hr : SourceStep m m') :
    Attached s m' :=
  ⟨by rw [hr.buffer]; exact h.control, by rw [hr.buffer]; exact h.flag⟩

theorem setReaderIsReady_safe (h : Attached s m) :
    Safe (HandshakeInv s) readerRole (fun _ => Attached s) setReaderIsReady m := by
  refine load_safe (fun _ _ h hr => Attached.stable h hr) h fun m1 h1 _ => ?_
  rw [check, Chk.require_eq h1.flag, Prog.ofChk_pure, Prog.ret_bind]
  refine load_safe (fun _ _ h hr => Attached.stable h hr) h1 fun m2 h2 _ => ?_
  split
  · exact fun m3 h3 _ => h2.stable h3
  refine Safe.access fun m3 h3 i3 => ?_
  have h4 := h2.stable h3
  have hset : (m3.flags ||| readerReady) &&& EventsBuffer.eventsRegistered ≠ 0 := by
    rw [Nat.and_or_distrib_right]
    intro h0
    exact h4.flag (Nat.or_eq_zero_iff.mp h0).1
  have hann : (m3.announced || readerReady == readerReady) = true := by simp
  exact ⟨fun ha => ⟨hann, rfl⟩, ⟨fun _ => hann, fun _ => h4.control, fun _ => hset⟩,
    fun m5 h5 _ => Attached.stable (m := { m3 with
      flags := m3.flags ||| readerReady
      announced := m3.announced || readerReady == readerReady }) ⟨h4.control, hset⟩ h5⟩

theorem detach_safe (h : Attached s m) :
    Safe (HandshakeInv s) readerRole (fun _ => Attached s) detach m := by
  refine Safe.access fun m1 h1 i1 => ?_
  have h2 := h.stable h1
  have hkeep : (m1.flags &&& (2 ^ 64 - 1 - readerReady)) &&& EventsBuffer.eventsRegistered =
      m1.flags &&& EventsBuffer.eventsRegistered := by
    rw [Nat.and_assoc]
    rfl
  have hclear : (m1.flags &&& (2 ^ 64 - 1 - readerReady)) &&& readerReady = 0 := by
    rw [Nat.and_assoc]
    exact Nat.and_zero _
  refine ⟨fun ha => ⟨ha, rfl⟩, ⟨fun hr => absurd hclear hr, i1.registered, fun ha => ?_⟩,
    fun m3 h3 _ => Attached.stable (m := { m1 with
      flags := m1.flags &&& (2 ^ 64 - 1 - readerReady) })
      ⟨h2.control, fun h0 => h2.flag (hkeep ▸ h0)⟩ h3⟩
  exact fun h0 => i1.flagged ha (hkeep ▸ h0)

end Reader

/-! ### A source -/

section Source

variable {s : Setup} {m : HandshakeMem}

/-- A load of a source. -/
theorem get_safe {α β : Type} {Q : β → HandshakeMem → Prop} {l : HandshakeAcc}
    {f : HandshakeMem → α} {g : α → HandshakeProg β}
    (h : ∀ m', ReaderStep m m' → HandshakeInv s m' →
      Safe (HandshakeInv s) sourceRole Q (g (f m')) m') :
    Safe (HandshakeInv s) sourceRole Q (get l f >>= g) m :=
  Safe.access_bind fun m' hr hi => ⟨⟨rfl, rfl⟩, hi, h m' hr hi⟩

/-- The wait ends well only after the reader was ready. -/
theorem waitTurn_safe (sleepErr : ℕ) (interrupted : Bool) :
    Safe (HandshakeInv s) sourceRole (fun r m' => r = some 0 → m'.announced = true)
      (waitTurn sleepErr interrupted) m := by
  refine get_safe fun m1 _ i1 => ?_
  simp only [Prog.pure_eq_ret]
  split
  case isTrue hready =>
    have hann := i1.ready (by simpa using hready)
    exact fun m2 h2 _ _ => (h2 hann).1
  split
  case isTrue hsleep =>
    refine fun m2 _ _ h => absurd (Option.some.inj h) ?_
    omega
  split
  case isTrue => exact fun m2 _ _ h => absurd h (by decide)
  refine get_safe fun m2 _ _ => ?_
  split
  · exact fun m3 _ _ h => absurd h (by decide)
  · exact fun m3 _ _ h => absurd h (by decide)

theorem kindsFrom_safe : ∀ (seen rest : List EventRecord) {m : HandshakeMem},
    s.registered = seen ++ rest → m.announced = true →
    Safe (HandshakeInv s) sourceRole (fun kinds m' => kinds = rest.map EventRecord.kind ∧
      m'.announced = true) (kindsFrom rest.length seen.length) m
  | _, [], _, _, ha => fun _ hr _ => ⟨rfl, (hr ha).1⟩
  | seen, r :: rest, m, hs, ha => by
    refine get_safe fun m1 h1 i1 => ?_
    have ha1 := (h1 ha).1
    have hr : m1.control.events[seen.length]? = some (some r) := by
      rw [i1.registered ha1, hs]
      simp [Control.ofRecords]
    rw [hr]
    have ih := kindsFrom_safe (seen ++ [r]) rest (m := m1) (by simp [hs]) ha1
    rw [List.length_append, List.length_singleton] at ih
    refine Safe.bind i1 (ih.mono fun kinds m2 _ h2 => ?_)
    exact fun m3 h3 _ => ⟨by rw [h2.1, List.map_cons], (h3 h2.2).1⟩

theorem availKinds_safe (hn : Control.headBytes + s.registered.length * EventRecord.bytes < 2 ^ 64)
    (ha : m.announced = true) :
    Safe (HandshakeInv s) sourceRole (fun kinds m' =>
      kinds = s.registered.map EventRecord.kind ∧ m'.announced = true) availKinds m := by
  refine get_safe fun m1 h1 i1 => ?_
  have ha1 := (h1 ha).1
  rw [check, Chk.require_eq (i1.flagged ha1), Prog.ofChk_pure, Prog.ret_bind, getRecordsNum,
    Prog.bind_assoc]
  refine get_safe fun m2 h2 i2 => ?_
  have ha2 := (h2 ha1).1
  rw [i2.registered ha2, Control.ofRecords, Control.getRecordsNum_built hn, Prog.ofChk_pure,
    Prog.ret_bind]
  exact kindsFrom_safe [] s.registered rfl ha2

theorem setDestroyed_safe :
    Safe (HandshakeInv s) sourceRole (fun _ _ => True) setDestroyed m :=
  Safe.access fun _ _ i1 =>
    ⟨⟨rfl, rfl⟩, ⟨i1.ready, i1.registered, i1.flagged⟩, fun _ _ _ => trivial⟩

end Source

/-! ### Runs -/

def role : Thread → Role HandshakeMem HandshakeAcc
  | .reader => readerRole
  | .source _ => sourceRole

/-- What a thread knows between two calls. -/
def Known (s : Setup) : (t : Thread) → At t → HandshakeMem → Prop
  | .reader, .registering left, m => ∃ recs, left.foldl Registration.apply recs = s.registered ∧
      (∀ r ∈ left, r.Ok) ∧ recs.length = s.records.length ∧ Holds recs (left ≠ s.regs) m
  | .reader, .attached, m => Attached s m
  | .source _, .returned err, m => err = 0 → m.announced = true
  | .source _, .knows kinds, m => kinds = s.registered.map EventRecord.kind ∧ m.announced = true
  | .source _, _, _ => True

theorem Setup.length_registered (s : Setup) : s.registered.length = s.records.length := by
  rw [Setup.registered]
  generalize s.records = recs
  induction s.regs generalizing recs with
  | nil => rfl
  | cons r regs ih => rw [List.foldl_cons, ih, Registration.length_apply]

section Clients

variable {s : Setup} {m : HandshakeMem}

theorem readerClient_safe (hm : HandshakeInv s m) {i : ReaderAt} {x : ReaderCall}
    (hk : Known s .reader i m) (he : readerClient.enabled i x m) :
    Safe (HandshakeInv s) readerRole (Known s .reader) (readerClient.body i x) m := by
  have attach : ∀ {m}, HandshakeInv s m → Attached s m →
      Safe (HandshakeInv s) readerRole (Known s .reader)
        (do setReaderIsReady; pure ReaderAt.attached) m := fun hm h =>
    Safe.bind hm ((setReaderIsReady_safe h).mono fun _ m1 _ h1 => fun _ h2 _ => h1.stable h2)
  cases i with
  | registering left =>
    obtain ⟨recs, hrest, hok, hlen, h⟩ := hk
    cases left with
    | nil => exact attach hm ⟨h.control.trans (congrArg _ hrest), h.flag s.some.symm⟩
    | cons r left =>
      have hn := s.fits
      rw [← hlen] at hn
      refine Safe.bind hm ((register_safe h hn hm (hok r List.mem_cons_self)).mono
        fun _ m1 _ h1 => fun m2 h2 _ => ?_)
      refine ⟨r.apply recs, hrest, fun x hx => hok x (List.mem_cons_of_mem _ hx),
        (r.length_apply recs).trans hlen, ?_⟩
      have h3 := h1.stable h2
      exact ⟨h3.control, h3.announced, fun _ => h3.flag trivial⟩
  | attached =>
    cases x with
    | next => exact he.elim
    | attach => exact attach hm hk
    | detach =>
      exact Safe.bind hm ((detach_safe hk).mono fun _ m1 _ h1 => fun _ h2 _ => h1.stable h2)

theorem sourceClient_safe (hm : HandshakeInv s m) {t : ℕ} {i : SourceAt} {x : SourceCall}
    (hk : Known s (.source t) i m) (he : sourceClient.enabled i x m) :
    Safe (HandshakeInv s) sourceRole (Known s (.source t)) (sourceClient.body i x) m := by
  cases x with
  | wait sleepErr interrupted =>
    refine Safe.bind hm ((waitTurn_safe sleepErr interrupted).mono fun r m1 _ h1 => ?_)
    cases r with
    | none => exact fun _ _ _ => trivial
    | some err => exact fun m2 h2 _ herr => (h2 (h1 (congrArg _ herr))).1
  | avail =>
    cases i with
    | returned err =>
      have hn := s.fits
      rw [← s.length_registered] at hn
      exact Safe.bind hm ((availKinds_safe hn (hk he)).mono fun kinds m1 _ h1 =>
        fun m2 h2 _ => ⟨h1.1, (h2 h1.2).1⟩)
    | idle => exact he.elim
    | waiting => exact he.elim
    | knows kinds => exact he.elim
  | setDestroyed =>
    exact Safe.bind hm (setDestroyed_safe.mono fun _ _ _ _ => fun _ _ _ => trivial)

end Clients

theorem role_compat {t u : Thread} (htu : t ≠ u) {l : HandshakeAcc} {m m' : HandshakeMem}
    (hg : (role t).guar l m m') : (role u).rely m m' := by
  cases t with
  | reader =>
    cases u with
    | reader => exact absurd rfl htu
    | source u => exact hg
  | source t =>
    have hs : SourceStep m m' := hg
    cases u with
    | reader => exact hs
    | source u => exact hs.readerStep

theorem clients_safe {s : Setup} (t : Thread) (i : At t) (x : Call t) (m : HandshakeMem)
    (hm : HandshakeInv s m) (hk : Known s t i m) (he : (clients t).enabled i x m) :
    Safe (HandshakeInv s) (role t) (Known s t) ((clients t).body i x) m := by
  cases t with
  | reader => exact readerClient_safe hm hk he
  | source t => exact sourceClient_safe hm hk he

theorem clients_pre (t : Thread) (l : HandshakeAcc) (m : HandshakeMem)
    (_ : (clients t).allowed l m) : (role t).pre l m := by
  cases t <;> trivial

/-- Every configuration that a run reaches. -/
theorem reach_inv (s : Setup) {c : HandshakeCfg} (h : Reach clients s.start c) :
    HandshakeInv s c.mem ∧
      ∀ t, Safe (HandshakeInv s) (role t) (Known s t) (c.prog t) c.mem := by
  refine reach_safe (ρ := role) (Q := Known s) clients_pre
    (fun _ _ htu _ _ _ _ _ hg => role_compat htu hg) clients_safe ?_ ?_ h
  · exact ⟨fun h => absurd (by decide : 0 &&& readerReady = 0) h, nofun, nofun⟩
  · intro t
    cases t with
    | reader =>
      have h0 : Holds s.records (s.regs ≠ s.regs) s.mem := ⟨rfl, rfl, fun h => absurd rfl h⟩
      exact fun m hr _ => ⟨s.records, rfl, s.ok, rfl, h0.stable hr⟩
    | source t => exact fun _ _ _ => trivial

/-- Once the reader has been ready, the control block stays as it is. -/
theorem reach_settled (s : Setup) {c c' : HandshakeCfg} (h : Reach clients s.start c)
    (h' : Reach clients c c') : ReaderStep c.mem c'.mem := by
  obtain ⟨hm, hs⟩ := reach_inv s h
  refine reach_related (ρ := role) (Q := Known s) clients_pre
    (fun _ _ htu _ _ _ _ _ hg => role_compat htu hg) clients_safe sourceRole.refl
    sourceRole.trans (fun t l m m' hg => ?_) hm hs h'
  cases t with
  | reader => exact hg
  | source t => exact SourceStep.readerStep hg

/-- What a source knows of the kinds after it has waited is what the reader registered, call by call
    and in this order, and it stays so for the rest of the run; no assertion fails on either side. -/
theorem kinds_known (s : Setup) {c c' : HandshakeCfg} (h : Reach clients s.start c) {t : ℕ}
    {kinds : List ℕ} (hk : c.prog (.source t) = .ret (.knows kinds)) (h' : Reach clients c c') :
    kinds = s.registered.map EventRecord.kind ∧ c'.mem.control = .ofRecords s.registered ∧
      ∀ u, (c'.prog u).faulty = false := by
  obtain ⟨hm, hs⟩ := reach_inv s h
  obtain ⟨hkinds, hann⟩ : kinds = s.registered.map EventRecord.kind ∧ c.mem.announced = true :=
    (hs (.source t)).at_ret hm hk
  obtain ⟨-, hs'⟩ := reach_inv s (h.trans h')
  refine ⟨hkinds, ?_, fun u => (hs' u).not_faulty ?_⟩
  · rw [(reach_settled s h h' hann).2]
    exact hm.registered hann
  · cases u <;> exact id

/-- Two events; one is registered by its name. -/
def two : Setup where
  records := Control.twoRecords
  fits := by decide
  regs := [.event ['b'] 12]
  ok := by simp [Registration.Ok, Event.lastSpecialKind]
  some := by simp

/-- The reader registers and is ready, and a source waits and reads the kinds. -/
theorem kinds_known_two : ∃ c : HandshakeCfg, Reach clients two.start c ∧
    c.prog (.source 0) = .ret (.knows [0, 12]) ∧
    ([0, 12] = two.registered.map EventRecord.kind ∧
      c.mem.control = .ofRecords two.registered ∧ ∀ u, (c.prog u).faulty = false) := by
  have h0 : Reach clients two.start two.start := .start
  have h1 := h0.call .reader (i := .registering [.event ['b'] 12]) .next rfl trivial
    fun _ _ => trivial
  have h2 := h1.call .reader (i := .registering []) .next rfl trivial fun _ _ => trivial
  have h3 := h2.call (.source 0) (i := .idle) (.wait 0 false) rfl trivial fun _ _ => trivial
  have h4 := h3.call (.source 0) (i := .returned 0) .avail rfl rfl fun _ _ => trivial
  exact ⟨_, h4, rfl, @kinds_known two _ _ h4 0 [0, 12] rfl .start⟩

/-! ### Everything registered

After `register_all_events` the kinds are consecutive numbers, so a kind tells its record. -/

end HandshakeMem

/-- The record `r` at `i` when all events are registered. -/
def EventRecord.numbered (i : ℕ) (r : EventRecord) : EventRecord :=
  { r with kind := HandshakeMem.kindOf i }

/-- Registering everything overwrites what was registered before. -/
theorem Registration.numbered_apply (recs : List EventRecord) (r : Registration) :
    (r.apply recs).mapIdx EventRecord.numbered = recs.mapIdx EventRecord.numbered := by
  refine List.ext_getElem? fun j => ?_
  simp only [List.getElem?_mapIdx]
  cases r with
  | event name kind =>
    simp only [Registration.apply]
    split
    · rfl
    · rw [List.getElem?_modify, Option.map_eq_map, Option.map_map]
      refine Option.map_congr fun r _ => ?_
      simp only [Function.comp_apply]
      split <;> rfl
  | all =>
    simp only [Registration.apply, List.getElem?_mapIdx, Option.map_map]
    rfl

namespace HandshakeMem

theorem Setup.registered_all {s : Setup} {regs : List Registration} (h : s.regs = regs ++ [.all]) :
    s.registered = s.records.mapIdx EventRecord.numbered := by
  rw [Setup.registered, h, List.foldl_append, List.foldl_cons, List.foldl_nil]
  clear h
  generalize s.records = recs
  induction regs generalizing recs with
  | nil => rfl
  | cons r regs ih => rw [List.foldl_cons, ih, Registration.numbered_apply]

theorem kindOf_inj {i j : ℕ} (hi : i < 2 ^ 63) (hj : j < 2 ^ 63) (h : kindOf i = kindOf j) :
    i = j := by
  simp only [kindOf, Event.lastSpecialKind] at h
  omega

end HandshakeMem

/-- A record that is alone with its kind is found from either end. -/
theorem find_alone {recs : List EventRecord} {r : EventRecord} (hr : r ∈ recs)
    (h : ∀ x ∈ recs, x.kind = r.kind → x = r) :
    recs.find? (·.kind == r.kind) = some r ∧ SameEnds recs r.kind := by
  have hfind : ∀ l : List EventRecord, (∀ x, x ∈ l ↔ x ∈ recs) →
      l.find? (·.kind == r.kind) = some r := by
    intro l hl
    cases hx : l.find? (·.kind == r.kind) with
    | none =>
      have hno := List.find?_eq_none.mp hx r ((hl r).mpr hr)
      exact absurd (beq_self_eq_true r.kind) hno
    | some x =>
      have hk : x.kind = r.kind := by simpa using List.find?_some hx
      rw [h x ((hl x).mp (List.mem_of_find?_eq_some hx)) hk]
  have hfirst := hfind recs fun _ => Iff.rfl
  refine ⟨hfirst, ?_⟩
  rw [SameEnds, lastOf, hfirst, hfind recs.reverse fun _ => List.mem_reverse]

/-- Whatever was asked before, a query of such a record's kind is answered with the record. -/
theorem lookups_alone {recs rs : List EventRecord} (h : ∀ r ∈ rs, r ∈ recs ∧
    ∀ x ∈ recs, x.kind = r.kind → x = r) :
    lookups recs none (rs.map EventRecord.kind) = rs.map .record := by
  have hsearch : ∀ r ∈ rs, getEventRecordNoCache recs r.kind = .record r := by
    intro r hr
    rw [getEventRecordNoCache, (find_alone (h r hr).1 (h r hr).2).1]
    rfl
  cases rs with
  | nil => rfl
  | cons r rs =>
    have hfirst := find_alone (h r List.mem_cons_self).1 (h r List.mem_cons_self).2
    have hlater : lookups recs (some (EventsCache.fill (EventsCache.cacheSz recs) r.kind recs).1)
        (rs.map EventRecord.kind) = (rs.map EventRecord.kind).map (getEventRecordNoCache recs) := by
      refine (later_queries recs r.kind _).mpr fun k hk _ => ?_
      obtain ⟨x, hx, rfl⟩ := List.mem_map.mp hk
      have hx' := h x (List.mem_cons_of_mem _ hx)
      exact ⟨⟨x, hx'.1, rfl⟩, (find_alone hx'.1 hx'.2).2⟩
    have hcache : (getEventRecord recs none r.kind).val.2 =
        some (EventsCache.fill (EventsCache.cacheSz recs) r.kind recs).1 := rfl
    have hanswer : (getEventRecord recs none r.kind).val.1 = .record r :=
      ((first_query recs r.kind).mpr hfirst.2).trans (hsearch r List.mem_cons_self)
    simp only [List.map_cons, lookups, hcache, hanswer, hlater, List.map_map]
    exact congrArg _ (List.map_congr_left fun x hx => hsearch x (List.mem_cons_of_mem _ hx))

namespace HandshakeMem

/-- Source and monitor agree: if the monitor registers everything last, then the source finds a kind
    for each record, and whenever and in whatever order the monitor looks these kinds up in its cache
    later, it is told the very records that the source means, with nothing but the kinds changed. -/
theorem kinds_tell (s : Setup) {regs : List Registration} (hregs : s.regs = regs ++ [.all])
    {c c' : HandshakeCfg} (h : Reach clients s.start c) {t : ℕ} {kinds : List ℕ}
    (hk : c.prog (.source t) = .ret (.knows kinds)) (h' : Reach clients c c') :
    ∃ recs, c'.mem.control = .ofRecords recs ∧
      recs = s.records.mapIdx EventRecord.numbered ∧ kinds = recs.map EventRecord.kind ∧
      ∀ rs : List EventRecord, (∀ r ∈ rs, r ∈ recs) → lookups recs none (rs.map EventRecord.kind) = rs.map .record := by
  obtain ⟨hm, hs⟩ := reach_inv s h
  obtain ⟨hkinds, hann⟩ : kinds = s.registered.map EventRecord.kind ∧ c.mem.announced = true :=
    (hs (.source t)).at_ret hm hk
  refine ⟨s.registered, ?_, s.registered_all hregs, hkinds, fun rs hrs => lookups_alone fun r hr => ?_⟩
  · rw [(reach_settled s h h' hann).2]
    exact hm.registered hann
  refine ⟨hrs r hr, fun x hx hxr => ?_⟩
  have hmem := hrs r hr
  rw [s.registered_all hregs] at hx hmem
  have hfits := s.fits
  simp only [EventRecord.bytes] at hfits
  obtain ⟨i, hi, rfl⟩ := List.mem_mapIdx.mp hx
  obtain ⟨j, hj, rfl⟩ := List.mem_mapIdx.mp hmem
  obtain rfl : i = j := kindOf_inj (by omega) (by omega) hxr
  rfl

/-- The events of `two`, all of them registered. -/
def twoAll : Setup where
  records := Control.twoRecords
  fits := by decide
  regs := [.event ['b'] 12, .all]
  ok := by simp [Registration.Ok, Event.lastSpecialKind]
  some := by simp

theorem kinds_tell_two : ∃ c : HandshakeCfg, Reach clients twoAll.start c ∧
    c.prog (.source 3) = .ret (.knows [10, 11]) ∧
    ∃ recs, c.mem.control = .ofRecords recs ∧
      recs = twoAll.records.mapIdx EventRecord.numbered ∧ [10, 11] = recs.map EventRecord.kind ∧
      ∀ rs : List EventRecord, (∀ r ∈ rs, r ∈ recs) →
        lookups recs none (rs.map EventRecord.kind) = rs.map .record := by
  have h0 : Reach clients twoAll.start twoAll.start := .start
  have h1 := h0.call .reader (i := .registering [.event ['b'] 12, .all]) .next rfl trivial
    fun _ _ => trivial
  have h2 := h1.call .reader (i := .registering [.all]) .next rfl trivial fun _ _ => trivial
  have h3 := h2.call .reader (i := .registering []) .next rfl trivial fun _ _ => trivial
  have h4 := h3.call (.source 3) (i := .idle) (.wait 0 false) rfl trivial fun _ _ => trivial
  have h5 := h4.call (.source 3) (i := .returned 0) .avail rfl rfl fun _ _ => trivial
  exact ⟨_, h5, rfl, @kinds_tell twoAll [.event ['b'] 12] rfl _ _ h5 3 [10, 11] rfl .start⟩

end HandshakeMem

end Vamos
