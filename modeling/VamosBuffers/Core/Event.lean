import Mathlib.Tactic
import VamosBuffers.Core.ParQueue

/-! Events, and how a thread waits for one. `include/.../core/event.h` and the default hole handling
    of `src/core/stream.c`; the waiting constants are the build's own (`CMakeLists.txt`). -/

namespace Vamos

/-- `vms_event` and the word after it: the count `n` of a `vms_event_default_hole`, the beginning of
    the payload of any other event. -/
structure Event where
  kind : ℕ
  id : ℕ
  n : ℕ
  deriving DecidableEq, Repr

namespace Event

/-- `VMS_EVENT_HOLE_KIND`. -/
def holeKind : ℕ := 1

/-- `VMS_EVENT_LAST_SPECIAL_KIND`. -/
def lastSpecialKind : ℕ := 9

/-- `vms_event_is_hole`. -/
def isHole (e : Event) : Bool := e.kind == holeKind

/-- `default_hole_init`. -/
def holeInit (hole : Event) : Event := { hole with kind := holeKind, n := 0 }

/-- `default_hole_update`. -/
def holeUpdate (hole : Event) : Event := { hole with n := (hole.n + 1) % 2 ^ 64 }

/-- A slot is large enough for every event and for the hole. -/
instance : Slot Event where
  put _ x := x
  size _ := 24
  Holds x s := x = s
  put_holds _ _ := rfl

end Event

/-! ### Waiting -/

/-- `BUSY_WAIT_FOR_EVENTS`. -/
def busyWaitForEvents : ℕ := 1000

/-- `SLEEP_TIME_INIT_NS`. -/
def sleepTimeInitNs : ℕ := 10

/-- `SLEEP_TIME_THRES_NS`. -/
def sleepTimeThresNs : ℕ := 30000

/-- The counters of a waiting loop. -/
structure Spin where
  spinned : ℕ
  sleepTime : ℕ
  deriving DecidableEq, Repr

namespace Spin

def start : Spin := ⟨0, sleepTimeInitNs⟩

/-- `++spinned`. -/
def tick (w : Spin) : Spin := { w with spinned := (w.spinned + 1) % 2 ^ 64 }

/-- Has the thread waited long enough to sleep? -/
def tired (w : Spin) : Bool := decide (busyWaitForEvents < w.spinned)

/-- Is the sleeping time still below `thres`? -/
def short (w : Spin) (thres : ℕ) : Bool := decide (w.sleepTime < thres)

/-- `sleep_time *= 2`. -/
def longer (w : Spin) : Spin := { w with sleepTime := w.sleepTime * 2 % 2 ^ 64 }

end Spin

end Vamos
