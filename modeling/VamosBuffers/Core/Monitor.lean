import Mathlib.Tactic
import VamosBuffers.Core.Event
import VamosBuffers.Core.QueueRoles

/-! `src/core/monitor.c`: the buffer between the arbiter and the monitor. The arbiter writes events
    and at the end sets `finished`; the monitor fetches and consumes them until a fetch returns
    `NULL`.

        arbiter   idle ── write_ptr ──▶ writing ── fill ──▶ filled ── write_finish ──▶ idle
                  idle ── set_finished ──▶ closed
        monitor   idle ── fetch ──▶ fetched ── consume(1) ──▶ idle        fetch ──▶ ended (NULL)

    A fetch tests `top` first and `finished` second. Between the two it knows that the buffer was
    empty, and nothing more: an event written and `finished` set in that window are both unseen, and
    the fetch returns `NULL` with the event in the buffer. Outside that window nothing is missed. -/

namespace Vamos
open Schemes

/-- `vms_monitor_buffer`. -/
structure MonitorBuffer (ε : Type) where
  buffer : Queue ε
  finished : Bool

/-- The shared locations of a monitor buffer. -/
inductive MonitorLoc where
  | buffer (x : QueueLoc)
  | finished
  deriving DecidableEq, Repr

abbrev MonitorProg (ε α : Type) : Type := Prog (MonitorBuffer ε) (Acc MonitorLoc) α

namespace MonitorBuffer

variable {ε : Type}

/-- `vms_monitor_buffer_init`. -/
def init (eventSize capacity : ℕ) (data : ℕ → ε) : Chk (MonitorBuffer ε) := do
  let q ← Queue.init capacity eventSize data
  pure ⟨q, false⟩

/-- The queue inside the buffer. -/
def bufferLens : Lens (MonitorBuffer ε) (Queue ε) where
  get m := m.buffer
  set q m := { m with buffer := q }
  get_set _ _ := rfl
  set_get _ := rfl

/-- A call on the queue inside the buffer. -/
def onBuffer {α : Type} (p : QueueProg ε α) : MonitorProg ε α :=
  p.zoom bufferLens (Acc.map .buffer)

/-! ### Arbiter -/

/-- `assert(!q->finished)`. -/
def checkOpen : MonitorProg ε Unit := do
  let finished ← Prog.load .finished (·.finished)
  Prog.ofChk (Chk.require (finished = false))

section Arbiter

variable [Slot ε]

/-- One attempt of `vms_monitor_buffer_write_ptr`, which repeats it until it gives a slot. -/
def writePtr : MonitorProg ε (Option ℕ) := do
  checkOpen
  onBuffer Queue.writePtr

/-- `vms_monitor_buffer_write_finish`. -/
def writeFinish : MonitorProg ε Unit := do
  checkOpen
  onBuffer Queue.writeFinish

end Arbiter

/-- `vms_monitor_set_finished`. -/
def setFinished : MonitorProg ε Unit := Prog.store .finished fun m => { m with finished := true }

/-! ### Monitor -/

/-- `vms_monitor_buffer_top`. -/
def top : MonitorProg ε (Option ℕ) := onBuffer Queue.top

/-- `vms_monitor_buffer_consume`. -/
def consume (k : ℕ) : MonitorProg ε Unit := onBuffer (Queue.drop k)

/-- `if (buffer->finished)` in a fetch. What the fetch saw at `head` is of no use after it. -/
def loadFinished : MonitorProg ε Bool :=
  Prog.access (.load .finished) (·.finished) fun m =>
    { m with buffer := { m.buffer with ring := { m.buffer.ring with atHead := none } } }

/-- Where a monitor thread is between two calls, or in the loop of a fetch. -/
inductive MonitorAt where
  | idle
  | fetching (w : Spin)
  | fetched (p : ℕ)
  | ended
  deriving DecidableEq, Repr

/-- One turn of the loop in `fetch_arbiter_stream`. -/
def fetchArbiterStream (w : Spin) : MonitorProg ε MonitorAt := do
  match ← top with
  | some p => pure (.fetched p)
  | none => do
    let finished ← loadFinished
    if finished then pure .ended
    else
      let w := w.tick
      pure (.fetching (if w.tired && w.short sleepTimeThresNs then w.longer else w))

/-! ### The two threads -/

inductive Thread where
  | arbiter | monitor
  deriving DecidableEq, Repr

/-- Where an arbiter thread is between two calls; `waiting` is inside the loop of `write_ptr`. -/
inductive ArbiterAt where
  | idle | waiting
  | writing (p : ℕ)
  | filled
  | closed
  deriving DecidableEq, Repr

inductive ArbiterCall (ε : Type) where
  | writePtr
  | fill (x : ε)
  | writeFinish
  | setFinished

inductive MonitorCall where
  | fetch | consume
  deriving DecidableEq, Repr

abbrev At : Thread → Type
  | .arbiter => ArbiterAt
  | .monitor => MonitorAt

abbrev Call (ε : Type) : Thread → Type
  | .arbiter => ArbiterCall ε
  | .monitor => MonitorCall

variable [Slot ε]

/-- Which calls a place permits: each event is filled once between `write_ptr` and `write_finish`,
    and nothing is written after `set_finished`. -/
def ArbiterAt.permits : ArbiterAt → ArbiterCall ε → Prop
  | .idle, .writePtr => True
  | .waiting, .writePtr => True
  | .writing _, .fill _ => True
  | .filled, .writeFinish => True
  | .idle, .setFinished => True
  | _, _ => False

/-- The program of a call; the pointer is the one the place holds. -/
def arbiterBody : ArbiterAt → ArbiterCall ε → MonitorProg ε ArbiterAt
  | _, .writePtr => do
    match ← writePtr with
    | some p => pure (.writing p)
    | none => pure .waiting
  | .writing p, .fill x => do
    onBuffer (Queue.fill p x)
    pure .filled
  | i, .fill _ => pure i
  | _, .writeFinish => do
    writeFinish
    pure .idle
  | _, .setFinished => do
    setFinished
    pure .closed

/-- The arbiter, in runs that make its accesses only where `allowed` admits them. -/
def arbiterClient (allowed : Acc MonitorLoc → MonitorBuffer ε → Prop) :
    Client (MonitorBuffer ε) (Acc MonitorLoc) ArbiterAt (ArbiterCall ε) where
  enabled i x _ := i.permits x
  body := arbiterBody
  allowed := allowed

/-- The monitor alternates fetch and `consume(1)`. -/
def monitorClient : Client (MonitorBuffer ε) (Acc MonitorLoc) MonitorAt MonitorCall where
  enabled i x _ := match i, x with
    | .idle, .fetch => True
    | .fetching _, .fetch => True
    | .fetched _, .consume => True
    | _, _ => False
  body i x := match x with
    | .fetch => fetchArbiterStream (match i with | .fetching w => w | _ => Spin.start)
    | .consume => do
      consume 1
      pure .idle

def clients (allowed : Acc MonitorLoc → MonitorBuffer ε → Prop) :
    (t : Thread) → Client (MonitorBuffer ε) (Acc MonitorLoc) (At t) (Call ε t)
  | .arbiter => arbiterClient allowed
  | .monitor => monitorClient

abbrev MonitorCfg (ε : Type) : Type := Cfg (MonitorBuffer ε) (Acc MonitorLoc) At

/-- A fresh buffer; nothing has been called. -/
def start (eventSize capacity : ℕ) (data : ℕ → ε) : MonitorCfg ε :=
  ⟨(init eventSize capacity data).val, fun
    | .arbiter => .ret .idle
    | .monitor => .ret .idle⟩

end MonitorBuffer

end Vamos
