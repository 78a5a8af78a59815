import Mathlib.Tactic
import VamosBuffers.Schemes.Prog
import VamosBuffers.Schemes.RingIndex

/-! `src/core/queue_spsc.c`: a queue of offsets that counts its elements. The owner of the queue keeps
    the elements in an array of `capacity` slots; the queue says which slot to write next and which
    ones are unread.

        tail ── elem_num unread ──▶ head          every slot may be used: the queue is full
                                                  when elem_num = capacity

    `elem_num` is the only field that both sides use. It is a `size_t`, but it is counted up and down
    through helpers that take an `int`. Two auxiliary fields record the offsets at which elements were
    written, in order, and how many have been consumed; one more what the reader's last call loaded
    from `elem_num`. -/

namespace Vamos
open Schemes

/-- The fields of `vms_queue_spsc`. -/
inductive SpscLoc where
  | elemNum | head | tail | partialHead | writingKElems
  deriving DecidableEq, Repr

/-- What an access is. The load of `elem_num` that `consume(k)` goes by says what `k` is. -/
inductive SpscAcc where
  | load (x : SpscLoc)
  | store (x : SpscLoc)
  | count (k : ℕ)
  deriving DecidableEq, Repr

/-- `vms_queue_spsc`, with the auxiliary fields. -/
structure QueueSpsc where
  capacity : ℕ
  elemNum : ℕ
  head : ℕ
  tail : ℕ
  partialHead : ℕ
  writingKElems : ℕ
  /-- the offsets of the elements written, in order -/
  offsets : List ℕ
  /-- how many elements were consumed -/
  consumed : ℕ
  /-- `elem_num` as the reader's last `consume` loaded it -/
  counted : ℕ
  deriving DecidableEq, Repr

abbrev SpscProg (α : Type) : Type := Prog QueueSpsc SpscAcc α

/-- What a `size_t` is after it was passed as an `int` and made a `size_t` again: its low 32 bits,
    with the sign. -/
def throughInt (k : ℕ) : ℕ :=
  if k % 2 ^ 32 < 2 ^ 31 then k % 2 ^ 32 else k % 2 ^ 32 + (2 ^ 64 - 2 ^ 32)

theorem throughInt_eq_iff {k : ℕ} (hk : k < 2 ^ 64) :
    throughInt k = k ↔ k < 2 ^ 31 ∨ 2 ^ 64 - 2 ^ 31 ≤ k := by
  unfold throughInt
  split <;> omega

theorem throughInt_lt (k : ℕ) : throughInt k < 2 ^ 64 := by
  unfold throughInt
  split <;> omega

/-- The index `n` past `i` on a ring of `c`, as the machine computes it: the sum wraps with the word
    before it is compared with `c`. -/
def machineIndex (i n c : ℕ) : ℕ :=
  if c ≤ (i + n) % 2 ^ 64 then ((i + n) % 2 ^ 64 + (2 ^ 64 - c)) % 2 ^ 64 else (i + n) % 2 ^ 64

/-- It is the right one exactly when the sum does not wrap. -/
theorem machineIndex_eq_iff {i n c : ℕ} (hi : i < c) (hn : n ≤ c) (hc : c < 2 ^ 64) :
    machineIndex i n c = (if c ≤ i + n then i + n - c else i + n) ↔ i + n < 2 ^ 64 := by
  unfold machineIndex
  constructor
  · intro h
    by_contra hwrap
    split at h <;> split at h <;> omega
  · intro h
    rw [Nat.mod_eq_of_lt h]
    split <;> omega

namespace QueueSpsc

def get {α : Type} (x : SpscLoc) (f : QueueSpsc → α) : SpscProg α := Prog.access (.load x) f id

def set (x : SpscLoc) (f : QueueSpsc → QueueSpsc) : SpscProg Unit :=
  Prog.access (.store x) (fun _ => ()) f

def check (p : Prop) [Decidable p] : SpscProg Unit := Prog.ofChk (Chk.require p)

/-- `elem_num_inc`. The elements written are those from `partial_head` on. -/
def elemNumInc (k : ℕ) : SpscProg Unit :=
  set .elemNum fun q => { q with elemNum := (q.elemNum + throughInt k) % 2 ^ 64,
                                 offsets := q.offsets ++ List.range' q.partialHead k }

/-- `elem_num_dec`. -/
def elemNumDec (k : ℕ) : SpscProg Unit :=
  set .elemNum fun q => { q with elemNum := (q.elemNum + (2 ^ 64 - throughInt k)) % 2 ^ 64,
                                 consumed := q.consumed + k }

/-- `vms_queue_spsc_init`. -/
def init (capacity : ℕ) : Chk QueueSpsc := do
  Chk.require (0 < capacity)
  pure ⟨capacity, 0, 0, 0, 0, 0, [], 0, 0⟩

/-! ### Writer -/

/-- `vms_queue_spsc_write_offset`: the next offset, or `false`. -/
def writeOffset : SpscProg (Option ℕ) := do
  let (num, c) ← get .elemNum fun q => (q.elemNum, q.capacity)
  if num = c then pure none
  else do
    let offset ← get .head (·.head)
    let head ← get .head (·.head)
    set .partialHead fun q => { q with partialHead := head }
    set .writingKElems fun q => { q with writingKElems := 1 }
    pure (some offset)

/-- `if (q->head == q->capacity) q->head = 0`. -/
def rotateHead : SpscProg Unit := do
  let (head, c) ← get .head fun q => (q.head, q.capacity)
  if head = c then set .head fun q => { q with head := 0 } else pure ()

/-- `vms_queue_spsc_writes_finish`. -/
def writesFinish (writtenNum : ℕ) : SpscProg Unit := do
  let partialHead ← get .partialHead (·.partialHead)
  let head ← get .head (·.head)
  check (partialHead = head)
  let writingKElems ← get .writingKElems (·.writingKElems)
  check (writtenNum ≤ writingKElems)
  let (head, c) ← get .head fun q => (q.head, q.capacity)
  let sum ← Prog.ofChk (Chk.add head writtenNum)
  check (sum ≤ c)
  let head ← get .head (·.head)
  let head ← Prog.ofChk (Chk.add head writtenNum)
  set .head fun q => { q with head := head }
  rotateHead
  elemNumInc writtenNum

/-- `vms_queue_spsc_write_finish`. -/
def writeFinish : SpscProg Unit := writesFinish 1

/-! ### Reader -/

/-- `if (q->tail >= q->capacity) q->tail -= q->capacity`. -/
def rotateTail : SpscProg Unit := do
  let (tail, c) ← get .tail fun q => (q.tail, q.capacity)
  if c ≤ tail then do
    let tail ← Prog.ofChk (Chk.sub tail c)
    set .tail fun q => { q with tail := tail }
  else pure ()

/-- The end of `consume`: `k` elements, which are there, are consumed. -/
def consumeNum (k : ℕ) : SpscProg ℕ := do
  let tail ← get .tail (·.tail)
  let tail ← Prog.ofChk (Chk.add tail k)
  set .tail fun q => { q with tail := tail }
  rotateTail
  let num ← get .elemNum (·.elemNum)
  check (k ≤ num)
  elemNumDec k
  pure k

/-- `vms_queue_spsc_consume`. -/
def consume (k : ℕ) : SpscProg ℕ := do
  check (0 < k)
  let num ← Prog.access (.count k) (·.elemNum) fun q => { q with counted := q.elemNum }
  consumeNum (if num < k then num else k)

/-- How `n` elements from `tail` on lie: `*off1`, `*len1`, `*off2` when it is set, and `*len2`. -/
def segments (n tail c : ℕ) : Chk (ℕ × ℕ × Option ℕ × ℕ) := do
  let stop ← Chk.add n tail
  let r ← if c ≤ stop then do
      let len1 ← Chk.sub c tail
      let len2 ← Chk.sub stop c
      pure (tail, len1, some 0, len2)
    else pure (tail, n, none, 0)
  let sum ← Chk.add r.2.1 r.2.2.2
  Chk.require (sum = n)
  pure r

/-- `vms_queue_spsc_peek`: the number of elements, and `(*off1, *len1, *off2, *len2)`. -/
def peek (n : ℕ) : SpscProg (ℕ × ℕ × ℕ × Option ℕ × ℕ) := do
  let curElemNum ← get .elemNum (·.elemNum)
  let n := if curElemNum < n then curElemNum else n
  let (tail, c) ← get .tail fun q => (q.tail, q.capacity)
  let r ← Prog.ofChk (segments n tail c)
  pure (curElemNum, r)

/-- The offset of the `k`-th element from `tail` on. -/
def offsetAt (k tail c : ℕ) : Chk ℕ := do
  let stop ← Chk.add k tail
  if c ≤ stop then Chk.sub stop c else pure stop

/-- `vms_queue_spsc_peek_atmost_at`: what it returns, `*want_k`, and `*offset` when it is set. -/
def peekAtmostAt (wantK : ℕ) : SpscProg (ℕ × ℕ × Option ℕ) := do
  let num ← get .elemNum (·.elemNum)
  if num = 0 then pure (0, wantK, none)
  else do
    -- `*want_k = --num` counts `num` down too
    let (num, wantK) ← Prog.ofChk (
      if num ≤ wantK then do
        let num ← Chk.sub num 1
        pure (num, num)
      else pure (num, wantK))
    let (tail, c) ← get .tail fun q => (q.tail, q.capacity)
    let offset ← Prog.ofChk (offsetAt wantK tail c)
    pure (num, wantK, some offset)

end QueueSpsc

end Vamos
