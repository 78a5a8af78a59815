import Mathlib.Tactic
import VamosBuffers.Core.SpscRingbuf

/-! `src/core/par_queue.c`: a queue of equally sized slots over the ring of indices. The ring counts;
    the queue owns the memory. A pointer into `q->data` is its byte offset, and the memory is seen
    slot by slot: `data p` is what lies in the `elem_size` bytes from `p` on.

        data:  | slot 0 | slot 1 | ... | slot capacity |      one slot more than elements
                  p = off * elem_size

    The producer asks for a slot (`write_ptr`), fills it, and only then moves `head`; the consumer
    looks at the slot at `tail` and only then moves `tail`. Two auxiliary lists record what was
    filled into the slots, in order, and what `pop` copied out of them. -/

namespace Vamos
open Schemes

/-- What a slot can hold. Copying `x` into a slot may leave the end of the slot as it was. -/
class Slot (ε : Type) where
  /-- the slot after `x` is copied into it -/
  put : ε → ε → ε
  /-- the number of bytes that `x` takes -/
  size : ε → ℕ
  /-- the slot begins with `x` -/
  Holds : ε → ε → Prop
  put_holds : ∀ old x, Holds x (put old x)

abbrev Bytes : Type := List UInt8

/-- `memcpy` of `x` into a slot of plain bytes. -/
instance : Slot Bytes where
  put old x := x ++ old.drop x.length
  size x := x.length
  Holds x s := x <+: s
  put_holds _ x := List.prefix_append x _

/-- The shared locations of a queue. -/
inductive QueueLoc where
  | ring (x : RingLoc)
  | elemSize
  | data (p : ℕ)
  deriving DecidableEq, Repr

/-- `vms_par_queue`, with the auxiliary lists. -/
structure Queue (ε : Type) where
  ring : Ringbuf
  capacity : ℕ
  elemSize : ℕ
  data : ℕ → ε
  /-- what was filled into the slots, one entry for each element written (and for the next one) -/
  filled : List ε
  /-- what `pop` copied out -/
  popped : List ε

abbrev QueueProg (ε α : Type) : Type := Prog (Queue ε) (Acc QueueLoc) α

namespace Queue

variable {ε : Type}

/-- `vms_par_queue_init`; `malloc` leaves the slots as they are. -/
def init (capacity elemSize : ℕ) (data : ℕ → ε) : Chk (Queue ε) := do
  Chk.require (0 < capacity)
  Chk.require (0 < elemSize)
  let n ← Chk.add capacity 1
  let ring ← Ringbuf.init n
  let _ ← Chk.mul n elemSize
  pure ⟨ring, capacity, elemSize, data, [], []⟩

/-- The ring inside the queue. -/
def ringLens : Lens (Queue ε) Ringbuf where
  get q := q.ring
  set b q := { q with ring := b }
  get_set _ _ := rfl
  set_get _ := rfl

/-- A call on the ring inside the queue. -/
def onRing {α : Type} (p : RingProg α) : QueueProg ε α := p.zoom ringLens (Acc.map .ring)

/-- `q->data + (off * q->elem_size)`. -/
def slotPtr (off : ℕ) : QueueProg ε ℕ := do
  let size ← Prog.load .elemSize (·.elemSize)
  Prog.ofChk (Chk.mul off size)

/-! ### Producer -/

section Producer

variable [Slot ε]

/-- `vms_par_queue_write_ptr`: the next slot to write, or `NULL`. -/
def writePtr : QueueProg ε (Option ℕ) := do
  let (off, n) ← onRing Ringbuf.writeOffNowrap
  if 0 < n then do
    let p ← slotPtr off
    pure (some p)
  else pure none

/-- What a caller does with the pointer: copy `x` into the slot. -/
def fill (p : ℕ) (x : ε) : QueueProg ε Unit :=
  Prog.store (.data p) fun q =>
    { q with data := Function.update q.data p (Slot.put (q.data p) x),
             filled := q.filled.take q.ring.written ++ [x] }

/-- `vms_par_queue_write_finish`. -/
def writeFinish : QueueProg ε Unit := onRing (Ringbuf.writeFinish 1)

/-- `vms_par_queue_push`. -/
def push (x : ε) : QueueProg ε Bool := do
  let elemSize ← Prog.load .elemSize (·.elemSize)
  Prog.ofChk (Chk.require (Slot.size x ≤ elemSize))
  match ← writePtr with
  | some p => do
    fill p x
    writeFinish
    pure true
  | none => pure false

/-- `vms_par_queue_free_num`. -/
def freeNum : QueueProg ε ℕ := onRing Ringbuf.freeNum

end Producer

/-! ### Consumer -/

/-- The load of a slot. -/
def readSlot (p : ℕ) : QueueProg ε ε := Prog.load (.data p) (·.data p)

/-- `memcpy(buff, slot, elem_size)` in `pop`. -/
def takeSlot (p : ℕ) : QueueProg ε ε :=
  Prog.access (.load (.data p)) (·.data p) fun q => { q with popped := q.popped ++ [q.data p] }

/-- `vms_par_queue_pop`: what was copied to `buff`, or nothing and `false`. -/
def pop : QueueProg ε (Option ε) := do
  let (off, n) ← onRing Ringbuf.readOffNowrap
  if 0 < n then do
    let p ← slotPtr off
    let x ← takeSlot p
    onRing (Ringbuf.consume 1)
    pure (some x)
  else pure none

/-- `vms_par_queue_drop`. -/
def drop (k : ℕ) : QueueProg ε Unit := onRing (Ringbuf.consume k)

/-- `vms_par_queue_size`. -/
def size : QueueProg ε ℕ := onRing Ringbuf.size

/-- `vms_par_queue_peek1`: the number of elements and the first one's slot. -/
def peek1 : QueueProg ε (ℕ × Option ℕ) := do
  let (off, n) ← onRing Ringbuf.readOffNowrap
  if 0 < n then do
    let p ← slotPtr off
    pure (n, some p)
  else pure (n, none)

/-- `vms_par_queue_top`. -/
def top : QueueProg ε (Option ℕ) := do
  let (_, p) ← peek1
  pure p

/-- `vms_par_queue_peek`: the number of elements, and `(*ptr1, *len1, *len2)`. The second run, when
    there is one, begins at `q->data`. -/
def peek (n : ℕ) : QueueProg ε (ℕ × Option (ℕ × ℕ × ℕ)) := do
  let (cur, r) ← onRing (Ringbuf.peek (if n = 0 then 2 ^ 64 - 1 else n))
  match r with
  | some (off, len1, len2) => do
    let p ← slotPtr off
    pure (cur, some (p, len1, len2))
  | none => pure (cur, none)

/-- The slot of the `k`-th element, which lies in the first run or in the second. -/
def runPtr (p len1 len2 k : ℕ) : QueueProg ε ℕ := do
  let elemSize ← Prog.load .elemSize (·.elemSize)
  Prog.ofChk (
    if k < len1 then do
      let d ← Chk.mul k elemSize
      Chk.add p d
    else do
      let k ← Chk.sub k len1
      Chk.require (k < len2)
      Chk.mul k elemSize)

/-- `k == ~0 ? k : k + 1`. -/
def wantNum (k : ℕ) : ℕ := if k = 2 ^ 64 - 1 then k else k + 1

/-- `vms_par_queue_peek_at`. -/
def peekAt (k : ℕ) : QueueProg ε (Option ℕ) := do
  let (n, r) ← peek (wantNum k)
  match r with
  | some (p, len1, len2) =>
    if n ≤ k then pure none
    else do
      let ptr ← runPtr p len1 len2 k
      pure (some ptr)
  | none => pure none

/-- `vms_par_queue_peek_atmost_at`: `*want_k` and the slot. -/
def peekAtmostAt (k : ℕ) : QueueProg ε (ℕ × Option ℕ) := do
  let (n, r) ← peek (wantNum k)
  match r with
  | some (p, len1, len2) =>
    let k := if n ≤ k then n - 1 else k
    do
      let ptr ← runPtr p len1 len2 k
      pure (k, some ptr)
  | none => pure (0, none)

end Queue

end Vamos
