import Mathlib.Tactic
import VamosBuffers.Core.Event
import VamosBuffers.Core.Source

/-! Registering events: `vms_stream_register_event`, `vms_stream_register_events` of
    `src/core/stream.c` and what they call in `src/shmbuf/buffer.c`. The events of one call are passed
    as a variable argument list.

        vms_stream_register_events(s, 2, "a", 10, "b", 11)        name  kind  name  kind
          └─ vms_shm_buffer_register_events(b, 2, ap)             the list itself

    The inner function has a variable argument list, too, and finds one argument in it. -/

namespace Vamos
open Schemes

/-- The fields of `vms_shm_buffer` that registering reads and writes. -/
structure EventsBuffer where
  control : Control
  /-- `info.flags` -/
  flags : ℕ
  deriving DecidableEq, Repr

/-- A value in a variable argument list. -/
inductive VaArg where
  | name (name : Text)
  | kind (kind : ℕ)
  /-- a `va_list` -/
  | list (args : List VaArg)

namespace VaArg

/-- `va_arg(ap, const char *)`. Where there is no next argument, or it has another type, the behaviour
    is undefined. -/
def takeName : List VaArg → Option (Text × List VaArg)
  | name n :: args => some (n, args)
  | _ => none

/-- `va_arg(ap, vms_kind)`. -/
def takeKind : List VaArg → Option (ℕ × List VaArg)
  | kind k :: args => some (k, args)
  | _ => none

/-- The arguments for some events. -/
def ofEvents : List (Text × ℕ) → List VaArg
  | [] => []
  | (n, k) :: events => name n :: kind k :: ofEvents events

end VaArg

namespace EventsBuffer

/-- `EVENTS_REGISTERED`. -/
def eventsRegistered : ℕ := 4

/-- `vms_shm_buffer_set_flags`. -/
def setFlags (b : EventsBuffer) (flags : ℕ) : EventsBuffer := { b with flags := b.flags ||| flags }

/-- `vms_shm_buffer_register_event`: what it returns and the buffer it leaves, nothing where an
    assertion fails or the behaviour is undefined. The flag is set before the name is looked up. -/
def registerEvent (b : EventsBuffer) (name : Text) (kind : ℕ) : Option (ℤ × EventsBuffer) := do
  guard (Event.lastSpecialKind < kind)
  let b := b.setFlags eventsRegistered
  match ← b.control.getEvent name with
  | none => pure (-1, b)
  | some i => pure (0, { b with control := b.control.setKind i kind })

/-- The loop of `vms_shm_buffer_register_events`, with `left` events to come. -/
def registerFrom : ℕ → EventsBuffer → List VaArg → Option (ℤ × EventsBuffer)
  | 0, b, _ => pure (0, b)
  | left + 1, b, ap => do
    let (name, ap) ← VaArg.takeName ap
    let (kind, ap) ← VaArg.takeKind ap
    guard (Event.lastSpecialKind < kind)
    let (ret, b) ← b.registerEvent name kind
    if ret < 0 then pure (-1, b) else registerFrom left b ap

/-- `vms_shm_buffer_register_events`; `args` are the values passed after `ev_nums`. -/
def registerEvents (b : EventsBuffer) (evNums : ℕ) (args : List VaArg) :
    Option (ℤ × EventsBuffer) := registerFrom evNums b args

/-- `vms_stream_register_event`. -/
def streamRegisterEvent (b : EventsBuffer) (name : Text) (kind : ℕ) : Option (ℤ × EventsBuffer) := do
  guard (Event.lastSpecialKind < kind)
  b.registerEvent name kind

/-- `vms_stream_register_events`: its own `va_list` is what it passes on. -/
def streamRegisterEvents (b : EventsBuffer) (evNums : ℕ) (args : List VaArg) :
    Option (ℤ × EventsBuffer) :=
  let ap := VaArg.list args
  b.registerEvents evNums [ap]

/-- One call of `vms_stream_register_event` for each event, up to the first failure. -/
def registerEach : EventsBuffer → List (Text × ℕ) → Option (ℤ × EventsBuffer)
  | b, [] => pure (0, b)
  | b, (name, kind) :: events => do
    let (ret, b) ← b.streamRegisterEvent name kind
    if ret < 0 then pure (ret, b) else registerEach b events

/-- Registering the events together returns something and leaves some buffer, and registering them
    one by one does the same. -/
def SameAsEach (b : EventsBuffer) (events : List (Text × ℕ)) : Prop :=
  ∃ r, b.streamRegisterEvents events.length (VaArg.ofEvents events) = some r ∧
    b.registerEach events = some r

/-! ### The inner loop -/

/-- What a registration returns is 0 or -1. -/
theorem registerEvent_ret {b b' : EventsBuffer} {name : Text} {kind : ℕ} {ret : ℤ}
    (h : b.registerEvent name kind = some (ret, b')) : ret = 0 ∨ ret = -1 := by
  simp only [registerEvent, Option.bind_eq_bind, Option.bind_eq_some_iff] at h
  obtain ⟨-, -, found, -, h⟩ := h
  cases found with
  | none => exact .inr (Prod.mk.inj (Option.some.inj h)).1.symm
  | some i => exact .inl (Prod.mk.inj (Option.some.inj h)).1.symm

/-- Given the events themselves, the loop registers them as single calls do. -/
theorem registerEvents_ofEvents (b : EventsBuffer) (events : List (Text × ℕ)) :
    b.registerEvents events.length (VaArg.ofEvents events) = b.registerEach events := by
  rw [registerEvents]
  induction events generalizing b with
  | nil => rfl
  | cons e events ih =>
    obtain ⟨name, kind⟩ := e
    rw [List.length_cons, VaArg.ofEvents, registerFrom, registerEach, streamRegisterEvent]
    simp only [VaArg.takeName, VaArg.takeKind, Option.bind_eq_bind, Option.bind_some,
      Option.bind_assoc]
    congr 1
    funext _
    refine Option.bind_congr fun ⟨ret, b'⟩ hr => ?_
    rcases registerEvent_ret hr with rfl | rfl
    · exact ih b'
    · rfl

/-! ### The outer function -/

/-- Registering together is registering one by one if and only if there is nothing to register. -/
theorem sameAsEach_iff (b : EventsBuffer) (events : List (Text × ℕ)) :
    b.SameAsEach events ↔ events = [] := by
  constructor
  · rintro ⟨r, hr, -⟩
    cases events with
    | nil => rfl
    | cons e events =>
      -- the one argument is a list, and no name
      have hnone : b.streamRegisterEvents (e :: events).length (VaArg.ofEvents (e :: events)) = none :=
        rfl
      rw [hnone] at hr
      cases hr
  · rintro rfl
    exact ⟨(0, b), rfl, rfl⟩

/-- A buffer for the events `a` and `b`. -/
def twoEvents : EventsBuffer where
  control :=
    { size := Control.headBytes + 2 * EventRecord.bytes
      events := [some ⟨strncpy 63 ['a'] ++ ['\x00'], 0, 24, strncpy 31 ['l'] ++ ['\x00']⟩,
        some ⟨strncpy 63 ['b'] ++ ['\x00'], 0, 20, strncpy 31 ['i'] ++ ['\x00']⟩] }
  flags := 0

/-- A call for `b` with the kind 10 registers it; passed as one of a number of events, it is lost. -/
theorem not_sameAsEach_one :
    twoEvents.registerEach [(['b'], 10)] =
      some (0, ⟨twoEvents.control.setKind 1 10, eventsRegistered⟩) ∧
    twoEvents.streamRegisterEvents 1 (VaArg.ofEvents [(['b'], 10)]) = none ∧
    ¬ twoEvents.SameAsEach [(['b'], 10)] := by
  refine ⟨by decide, rfl, ?_⟩
  rintro ⟨r, hr, -⟩
  cases hr

end EventsBuffer

end Vamos
