import Mathlib.Tactic
import VamosBuffers.Schemes.Prog
import VamosBuffers.Schemes.RingIndex

/-! `src/core/spsc_ringbuf.c`: the lock-free ring of indices under every buffer of the library. The
    writer owns `head`, the reader owns `tail`; each keeps a stale copy of the other's index
    (`seen_tail`, `seen_head`) and loads the real one only when the copy leaves too little. One slot
    stays empty, so `head == tail` means empty and `head + 1 == tail` means full.

        tail ──▶ unread items ──▶ head ──▶ free slots ──▶ tail - 1
               seen_head is a past head          seen_tail is a past tail

    Every load and store of the four indices is an access of its own. `capacity` never changes after
    `init` and is read along with the first access of a call. Four auxiliary fields record what the
    code does not store: how many items were ever written and consumed, and how many there were when
    the writer last loaded `tail`, the reader last loaded `head`. They are updated together with the
    access they describe and nothing branches on them. -/

namespace Vamos
open Schemes

/-- The shared locations of a ring. -/
inductive RingLoc where
  | head | tail | seenHead | seenTail | capacity | wip
  deriving DecidableEq, Repr

/-- `vms_spsc_ringbuf`, with `write_in_progress` of the debug build and the auxiliary fields. -/
structure Ringbuf where
  capacity : ℕ
  tail : ℕ
  seenHead : ℕ
  seenTail : ℕ
  head : ℕ
  wipHead : ℕ
  wipN : ℕ
  /-- items ever written, the total that `head` has moved -/
  written : ℕ
  /-- items ever consumed, the total that `tail` has moved -/
  consumed : ℕ
  /-- items in the ring when the writer's current call loaded `tail` -/
  atTail : Option ℕ
  /-- items in the ring when the reader's current call loaded `head` -/
  atHead : Option ℕ
  deriving DecidableEq, Repr

abbrev RingProg (α : Type) : Type := Prog Ringbuf (Acc RingLoc) α

namespace Ringbuf

/-- `vms_spsc_ringbuf_init`. -/
def init (capacity : ℕ) : Chk Ringbuf := do
  Chk.require (0 < capacity)
  Chk.require (capacity < 2 ^ 64 - 1 - 1)
  pure ⟨capacity, 0, 0, 0, 0, 0, 0, 0, 0, none, none⟩

/-- `_is_empty`. -/
def isEmpty (head tail : ℕ) : Bool := head == tail

/-- `_is_full`. -/
def isFull (head tail capacity : ℕ) : Chk Bool := do
  let h1 ← Chk.add head 1
  let c1 ← Chk.sub capacity 1
  pure (h1 == tail || (head == c1 && tail == 0))

/-- `_get_written_num`. -/
def writtenNumRaw (head tail capacity : ℕ) : Chk ℕ :=
  if tail < head then Chk.sub head tail
  else if tail = head then pure 0
  else do
    let d ← Chk.sub capacity tail
    Chk.add d head

/-- `_get_free_num`. -/
def freeNumRaw (head tail capacity : ℕ) : Chk ℕ := do
  Chk.require (head < capacity)
  Chk.require (tail < capacity)
  if tail < head then do
    let d ← Chk.sub capacity head
    let d ← Chk.sub d 1
    Chk.add d tail
  else if head = tail then Chk.sub capacity 1
  else do
    let d ← Chk.sub tail head
    Chk.sub d 1

/-- `CHECK_IFF`. -/
def checkIff (c t : Bool) : Chk Unit := Chk.require (c = t)

/-- `get_written_num`, with its pre- and postconditions. -/
def getWrittenNum (head tail capacity : ℕ) : Chk ℕ := do
  Chk.require (head < capacity)
  Chk.require (tail < capacity)
  let ret ← writtenNumRaw head tail capacity
  let c1 ← Chk.sub capacity 1
  Chk.require (ret < capacity)
  checkIff (isEmpty head tail) (ret == 0)
  let full ← isFull head tail capacity
  checkIff full (ret == c1)
  Chk.require (tail < head → ret = head - tail)
  Chk.require (head < tail → ret = head + (capacity - tail))
  let free ← freeNumRaw head tail capacity
  let d ← Chk.sub c1 free
  Chk.require (ret = d)
  pure ret

/-- `get_free_num`, with its pre- and postconditions. -/
def getFreeNum (head tail capacity : ℕ) : Chk ℕ := do
  Chk.require (head < capacity)
  Chk.require (tail < capacity)
  let ret ← freeNumRaw head tail capacity
  let c1 ← Chk.sub capacity 1
  Chk.require (ret < capacity)
  checkIff (isEmpty head tail) (ret == c1)
  let full ← isFull head tail capacity
  checkIff full (ret == 0)
  let w ← writtenNumRaw head tail capacity
  let d ← Chk.sub c1 w
  Chk.require (ret = d)
  pure ret

/-- `get_write_off`: the number of free elements, and the two out-parameters `*n`, `*wrap_n`. -/
def getWriteOff (head tail capacity : ℕ) : Chk (ℕ × ℕ × ℕ) :=
  if tail < head then
    if tail = 0 then do
      let d ← Chk.sub capacity head
      let n ← Chk.sub d 1
      pure (n, n, 0)
    else do
      let n ← Chk.sub capacity head
      let wrapN ← Chk.sub tail 1
      let d ← Chk.add n tail
      let free ← Chk.sub d 1
      pure (free, n, wrapN)
  else if tail = head then do
    let n ← Chk.sub capacity 1
    pure (n, n, 0)
  else do
    let d ← Chk.sub tail head
    let n ← Chk.sub d 1
    pure (n, n, 0)

/-! ### Writer -/

/-- The beginning that the writer's calls share: `head = atomic_load(&b->head)`, then
    `b->seen_tail`. Returns `(head, capacity, seen_tail)`. -/
def beginWrite : RingProg (ℕ × ℕ × ℕ) := do
  let (head, c) ← Prog.access (.load .head) (fun b => (b.head, b.capacity))
    fun b => { b with atTail := none }
  let seenTail ← Prog.load .seenTail (·.seenTail)
  pure (head, c, seenTail)

/-- `b->seen_tail = atomic_load(&b->tail)` and the second `get_write_off`. -/
def refreshTail (head c : ℕ) : RingProg (ℕ × ℕ × ℕ) := do
  let tail ← Prog.access (.load .tail) (·.tail)
    fun b => { b with atTail := some (b.written - b.consumed) }
  Prog.store .seenTail fun b => { b with seenTail := tail }
  let seenTail ← Prog.load .seenTail (·.seenTail)
  Prog.ofChk (getWriteOff head seenTail c)

/-- `if (stale) { b->seen_tail = ...; get_write_off(...); }` after a first `get_write_off`. -/
def refreshTailIf (stale : Bool) (head c : ℕ) (r : ℕ × ℕ × ℕ) : RingProg (ℕ × ℕ × ℕ) :=
  if stale then refreshTail head c else pure r

/-- `b->write_in_progress = { head, n }`. -/
def setWip (head n : ℕ) : RingProg Unit :=
  Prog.store .wip fun b => { b with wipHead := head, wipN := n }

/-- The body that `write_off` and `acquire` share: go by `seen_tail` unless it leaves fewer than
    `req` elements. Returns `(off, *n, *wrap_n)`. -/
def writeOffAtLeast (req : ℕ) : RingProg (ℕ × ℕ × ℕ) := do
  let (head, c, seenTail) ← beginWrite
  let r ← Prog.ofChk (getWriteOff head seenTail c)
  let r ← refreshTailIf (r.1 < req) head c r
  let total ← Prog.ofChk (Chk.add r.2.1 r.2.2)
  setWip head total
  pure (head, r.2.1, r.2.2)

/-- `vms_spsc_ringbuf_write_off`: refresh when the cached tail leaves nothing. -/
def writeOff : RingProg (ℕ × ℕ × ℕ) := writeOffAtLeast 1

/-- `vms_spsc_ringbuf_acquire` for at least `req` elements. -/
def acquire (req : ℕ) : RingProg (ℕ × ℕ × ℕ) := writeOffAtLeast req

/-- `b->seen_tail == 0 || get_write_off(...) == 0` and the refresh it guards. -/
def nowrapNum (head c seenTail : ℕ) : RingProg (ℕ × ℕ × ℕ) :=
  if seenTail = 0 then refreshTail head c else do
    let seenTail ← Prog.load .seenTail (·.seenTail)
    let r ← Prog.ofChk (getWriteOff head seenTail c)
    refreshTailIf (r.1 == 0) head c r

/-- `vms_spsc_ringbuf_write_off_nowrap`: refresh also when `seen_tail` is `0`. Returns
    `(off, *n)`. -/
def writeOffNowrap : RingProg (ℕ × ℕ) := do
  let (head, c, seenTail) ← beginWrite
  let r ← nowrapNum head c seenTail
  setWip head r.2.1
  pure (head, r.2.1)

/-- `vms_spsc_ringbuf_acquire_nowrap` for at least `req` elements. -/
def acquireNowrap (req : ℕ) : RingProg (ℕ × ℕ) := do
  let (head, c, seenTail) ← beginWrite
  let r ← Prog.ofChk (getWriteOff head seenTail c)
  let r ← refreshTailIf (r.1 < req) head c r
  setWip head r.2.1
  pure (head, r.2.1)

/-- `i + n`, turned back by `c` when it runs past the end. -/
def moveIndex (i n c : ℕ) : Chk ℕ := do
  let j ← Chk.add i n
  if c ≤ j then Chk.sub j c else pure j

/-- `assert(n <= capacity)` and `assert(capacity < ~0 - n)`. -/
def checkCount (n c : ℕ) : Chk Unit := do
  Chk.require (n ≤ c)
  let m ← Chk.sub (2 ^ 64 - 1) n
  Chk.require (c < m)

/-- `vms_spsc_ringbuf_write_finish`. -/
def writeFinish (n : ℕ) : RingProg Unit := do
  let c ← Prog.load .capacity (·.capacity)
  Prog.ofChk (checkCount n c)
  let (wipHead, wipN) ← Prog.load .wip fun b => (b.wipHead, b.wipN)
  let head ← Prog.load .head (·.head)
  Prog.ofChk (Chk.require (wipHead = head))
  Prog.ofChk (Chk.require (n ≤ wipN))
  let head ← Prog.load .head (·.head)
  let newHead ← Prog.ofChk (moveIndex head n c)
  let tail ← Prog.load .tail (·.tail)
  Prog.ofChk (Chk.require (newHead ≠ tail))
  Prog.store .head fun b => { b with head := newHead, written := b.written + n }

/-! ### Reader -/

/-- The beginning that the reader's calls share: `tail = atomic_load(&b->tail)`, then
    `b->seen_head`. Returns `(tail, capacity, seen_head)`. -/
def beginRead : RingProg (ℕ × ℕ × ℕ) := do
  let (tail, c) ← Prog.access (.load .tail) (fun b => (b.tail, b.capacity))
    fun b => { b with atHead := none }
  let seenHead ← Prog.load .seenHead (·.seenHead)
  pure (tail, c, seenHead)

/-- `atomic_load(&b->head)` by the reader. -/
def loadHeadR : RingProg ℕ :=
  Prog.access (.load .head) (·.head) fun b => { b with atHead := some (b.written - b.consumed) }

/-- `b->seen_head = atomic_load(&b->head)` and the second `get_written_num`. -/
def refreshHead (tail c : ℕ) : RingProg ℕ := do
  let head ← loadHeadR
  Prog.store .seenHead fun b => { b with seenHead := head }
  let seenHead ← Prog.load .seenHead (·.seenHead)
  Prog.ofChk (getWrittenNum seenHead tail c)

/-- `if (stale) { b->seen_head = ...; tmp = get_written_num(...); }` after a first one. -/
def refreshHeadIf (stale : Bool) (tail c tmp : ℕ) : RingProg ℕ :=
  if stale then refreshHead tail c else pure tmp

/-- The body that `read_off_nowrap`, `read_acquire` and `consume_upto` share: go by `seen_head`
    unless the number it gives is `stale`. Returns `(tail, number)`. -/
def readNum (stale : ℕ → Bool) : RingProg (ℕ × ℕ) := do
  let (tail, c, seenHead) ← beginRead
  let tmp ← Prog.ofChk (getWrittenNum seenHead tail c)
  let tmp ← refreshHeadIf (stale tmp) tail c tmp
  pure (tail, tmp)

/-- `vms_spsc_ringbuf_read_off_nowrap`. -/
def readOffNowrap : RingProg (ℕ × ℕ) := readNum fun tmp => tmp == 0

/-- `vms_spsc_ringbuf_read_acquire`. -/
def readAcquire (n : ℕ) : RingProg (ℕ × ℕ) := readNum fun tmp => decide (tmp < n)

/-- `vms_spsc_ringbuf_consume`. -/
def consume (n : ℕ) : RingProg Unit := do
  Prog.ofChk (Chk.require (0 < n))
  let c ← Prog.load .capacity (·.capacity)
  Prog.ofChk (checkCount n c)
  let tail ← Prog.load .tail (·.tail)
  let newTail ← Prog.ofChk (moveIndex tail n c)
  Prog.store .tail fun b => { b with tail := newTail, consumed := b.consumed + n }

/-- `vms_spsc_ringbuf_consume_upto`. -/
def consumeUpto (n : ℕ) : RingProg ℕ := do
  let c ← Prog.load .capacity (·.capacity)
  Prog.ofChk (checkCount n c)
  let (_, k) ← readNum fun tmp => decide (tmp < n)
  let n := if k < n then k else n
  if 0 < n then do
    consume n
    pure n
  else pure n

/-- How `n` items from `tail` on split at the end of the ring: `*len1` and `*len2`. -/
def peekSplit (n head tail c : ℕ) : Chk (ℕ × ℕ) :=
  if tail < head then pure (n, 0)
  else do
    Chk.require (tail ≠ head)
    let d ← Chk.sub c tail
    let l1 := if n < d then n else d
    let rest ← Chk.sub n l1
    pure (l1, if head < rest then head else rest)

/-- The refresh of `peek`, which goes on with its own copy of the head. -/
def peekNum (n tail c head cur : ℕ) : RingProg (ℕ × ℕ) :=
  if cur < n ∨ n = 0 then do
    let head ← loadHeadR
    Prog.store .seenHead fun b => { b with seenHead := head }
    let cur ← Prog.ofChk (getWrittenNum head tail c)
    pure (head, cur)
  else pure (head, cur)

/-- `vms_spsc_ringbuf_peek`: the number of items, and `(*off, *len1, *len2)` when they are set. -/
def peek (n : ℕ) : RingProg (ℕ × Option (ℕ × ℕ × ℕ)) := do
  let (tail, c, head) ← beginRead
  let cur ← Prog.ofChk (getWrittenNum head tail c)
  let (head, cur) ← peekNum n tail c head cur
  if n = 0 then pure (cur, none)
  else if cur = 0 then pure (0, none)
  else do
    let n := if cur < n then cur else n
    Prog.ofChk (Chk.require (n ≤ cur))
    let (len1, len2) ← Prog.ofChk (peekSplit n head tail c)
    Prog.ofChk (Chk.require (len1 + len2 = n))
    pure (cur, some (tail, len1, len2))

/-! ### Queries by either side -/

/-- `vms_spsc_ringbuf_size`. -/
def size : RingProg ℕ := do
  let (head, c) ← Prog.load .head fun b => (b.head, b.capacity)
  let tail ← Prog.load .tail (·.tail)
  Prog.ofChk (getWrittenNum head tail c)

/-- `vms_spsc_ringbuf_free_num`. -/
def freeNum : RingProg ℕ := do
  let (head, c) ← Prog.load .head fun b => (b.head, b.capacity)
  let tail ← Prog.load .tail (·.tail)
  Prog.ofChk (getFreeNum head tail c)

/-- `vms_spsc_ringbuf_full`. -/
def full : RingProg Bool := do
  let head ← Prog.load .head (·.head)
  let (tail, c) ← Prog.load .tail fun b => (b.tail, b.capacity)
  Prog.ofChk (isFull head tail c)

/-! ### What the index arithmetic computes -/

theorem isEmpty_eq {head tail c : ℕ} (ht : tail < c) :
    isEmpty head tail = decide (ringDist head tail c = 0) := by
  unfold isEmpty ringDist
  rw [Bool.eq_iff_iff]
  simp only [beq_iff_eq, decide_eq_true_eq]
  split <;> omega

/-- How the free slots of a ring lie: `n` of them from `head` on and `wrapN` after the turn. When head
    and tail meet, all of them are said to lie after `head`. -/
structure Split (head tail c n wrapN : ℕ) : Prop where
  total : n + wrapN = c - 1 - ringDist head tail c
  first : n = 0 → wrapN = 0
  turn : 0 < wrapN → head + n = c ∧ wrapN < head
  fits : tail ≠ head → head + n ≤ c
  meet : tail = head → n = c - 1

section Arithmetic

variable {head tail c : ℕ} (hh : head < c) (ht : tail < c) (hc : c < 2 ^ 64)
include hh ht hc

theorem writtenNumRaw_eq : writtenNumRaw head tail c = pure (ringDist head tail c) := by
  unfold writtenNumRaw ringDist
  by_cases h1 : tail < head
  · rw [if_pos h1, if_pos h1.le, Chk.sub_eq h1.le (by omega)]
  · rw [if_neg h1]
    by_cases h2 : tail = head
    · rw [if_pos h2, if_pos (by omega), h2, Nat.sub_self]
    · rw [if_neg h2, if_neg (by omega), Chk.sub_eq ht.le hc, pure_bind, Chk.add_eq (by omega)]

theorem freeNumRaw_eq : freeNumRaw head tail c = pure (c - 1 - ringDist head tail c) := by
  unfold freeNumRaw ringDist
  simp only [Chk.require_eq hh, Chk.require_eq ht, pure_bind]
  by_cases h1 : tail < head
  · rw [if_pos h1, if_pos h1.le, Chk.sub_eq hh.le hc, pure_bind, Chk.sub_eq (by omega) (by omega),
      pure_bind, Chk.add_eq (by omega)]
    congr 1; omega
  · rw [if_neg h1]
    by_cases h2 : head = tail
    · rw [if_pos h2, if_pos (by omega), Chk.sub_eq (by omega) hc, h2, Nat.sub_self, Nat.sub_zero]
    · rw [if_neg h2, if_neg (by omega), Chk.sub_eq (by omega) (by omega), pure_bind,
        Chk.sub_eq (by omega) (by omega)]
      congr 1; omega

theorem isFull_eq : isFull head tail c = pure (decide (ringDist head tail c = c - 1)) := by
  unfold isFull ringDist
  rw [Chk.add_eq (by omega), pure_bind, Chk.sub_eq (by omega) hc, pure_bind]
  congr 1
  rw [Bool.eq_iff_iff]
  simp only [Bool.or_eq_true, Bool.and_eq_true, beq_iff_eq, decide_eq_true_eq]
  split <;> omega

/-- The number of items; every pre- and postcondition holds. -/
theorem getWrittenNum_eq : getWrittenNum head tail c = pure (ringDist head tail c) := by
  have hd := ringDist_lt hh ht
  have hlt : tail < head → ringDist head tail c = head - tail := by unfold ringDist; split <;> omega
  have hgt : head < tail → ringDist head tail c = head + (c - tail) := by
    unfold ringDist; split <;> omega
  unfold getWrittenNum checkIff
  simp only [Chk.require_eq hh, Chk.require_eq ht, writtenNumRaw_eq hh ht hc, pure_bind,
    Chk.sub_eq (show 1 ≤ c by omega) hc, Chk.require_eq hd, isEmpty_eq ht,
    isFull_eq hh ht hc, freeNumRaw_eq hh ht hc, Chk.require_eq hlt, Chk.require_eq hgt]
  rw [Chk.require_eq (by rw [Bool.eq_iff_iff]; simp), pure_bind,
    Chk.require_eq (by rw [Bool.eq_iff_iff]; simp), pure_bind,
    Chk.sub_eq (by omega) (by omega), pure_bind, Chk.require_eq (by omega), pure_bind]

/-- The number of free slots; every pre- and postcondition holds. -/
theorem getFreeNum_eq : getFreeNum head tail c = pure (c - 1 - ringDist head tail c) := by
  have hd := ringDist_lt hh ht
  unfold getFreeNum checkIff
  simp only [Chk.require_eq hh, Chk.require_eq ht, writtenNumRaw_eq hh ht hc, pure_bind,
    Chk.sub_eq (show 1 ≤ c by omega) hc, isEmpty_eq ht, isFull_eq hh ht hc,
    freeNumRaw_eq hh ht hc]
  rw [Chk.require_eq (by omega), pure_bind,
    Chk.require_eq (by rw [Bool.eq_iff_iff]; simp; omega), pure_bind,
    Chk.require_eq (by rw [Bool.eq_iff_iff]; simp; omega), pure_bind,
    Chk.sub_eq (by omega) (by omega), pure_bind, Chk.require_eq rfl, pure_bind]

/-- `get_write_off` never wraps: the free slots in all, those up to the end of the ring, and those
    after the turn. -/
theorem getWriteOff_eq : ∃ n wrapN, getWriteOff head tail c = pure (n + wrapN, n, wrapN) ∧
    Split head tail c n wrapN := by
  unfold getWriteOff
  by_cases h1 : tail < head
  · have hd : ringDist head tail c = head - tail := if_pos h1.le
    rw [if_pos h1]
    by_cases h0 : tail = 0
    · refine ⟨c - head - 1, 0, ?_, by omega, by omega, by omega, by omega, by omega⟩
      rw [if_pos h0, Chk.sub_eq hh.le hc, pure_bind, Chk.sub_eq (by omega) (by omega), pure_bind]
      rfl
    · refine ⟨c - head, tail - 1, ?_, by omega, by omega, by omega, by omega, by omega⟩
      rw [if_neg h0, Chk.sub_eq hh.le hc, pure_bind, Chk.sub_eq (by omega) (by omega), pure_bind,
        Chk.add_eq (by omega), pure_bind, Chk.sub_eq (by omega) (by omega), pure_bind]
      congr 2; omega
  · rw [if_neg h1]
    by_cases h2 : tail = head
    · have hd : ringDist head tail c = 0 := (if_pos h2.le).trans (by omega)
      refine ⟨c - 1, 0, ?_, by omega, by omega, by omega, by omega, by omega⟩
      rw [if_pos h2, Chk.sub_eq (by omega) hc, pure_bind]
      rfl
    · have hd : ringDist head tail c = c - tail + head := if_neg (by omega)
      refine ⟨tail - head - 1, 0, ?_, by omega, by omega, by omega, by omega, by omega⟩
      rw [if_neg h2, Chk.sub_eq (by omega) (by omega), pure_bind,
        Chk.sub_eq (by omega) (by omega), pure_bind]
      rfl

theorem getWriteOff_split {m n wrapN : ℕ} (h : getWriteOff head tail c = pure (m, n, wrapN)) :
    Split head tail c n wrapN := by
  obtain ⟨n', w', he, hs⟩ := getWriteOff_eq hh ht hc
  have hv := congrArg Chk.val (he.symm.trans h)
  simp only [Chk.pure_val, Prod.mk.injEq] at hv
  obtain ⟨-, rfl, rfl⟩ := hv
  exact hs

end Arithmetic

theorem checkCount_eq {n c : ℕ} (hn : n ≤ c) (h : c + n < 2 ^ 64 - 1) : checkCount n c = pure () := by
  unfold checkCount
  rw [Chk.require_eq hn, pure_bind, Chk.sub_eq (by omega) (by omega), pure_bind,
    Chk.require_eq (by omega)]

/-- Moving the index of counter `w` by `n` gives the index of `w + n`. -/
theorem moveIndex_eq {w n c : ℕ} (hc : 0 < c) (hn : n ≤ c) (h : c + n < 2 ^ 64) :
    moveIndex (w % c) n c = pure ((w + n) % c) := by
  have hw := Nat.mod_lt w hc
  unfold moveIndex
  rw [Chk.add_eq (by omega), pure_bind, add_mod_wrap hc hn]
  split
  · rw [Chk.sub_eq (by assumption) (by omega)]
  · rfl

/-- `peek` splits `0 < n ≤ cur` items into the runs they lie in. -/
theorem peekSplit_eq {n head tail c : ℕ} (hh : head < c) (ht : tail < c) (hc : c < 2 ^ 64)
    (h0 : 0 < n) (hn : n ≤ ringDist head tail c) :
    ∃ len1 len2, peekSplit n head tail c = pure (len1, len2) ∧ Runs tail c n len1 len2 := by
  unfold ringDist at hn
  unfold peekSplit
  by_cases h1 : tail < head
  · rw [if_pos h1.le] at hn
    exact ⟨n, 0, by rw [if_pos h1], ⟨rfl, h0, by omega, nofun⟩⟩
  · have hlt : head < tail := by split at hn <;> omega
    have hl : (if n < c - tail then n else c - tail) ≤ n := by split <;> omega
    rw [if_neg (by omega)] at hn
    rw [if_neg h1, Chk.require_eq (by omega), pure_bind, Chk.sub_eq ht.le hc, pure_bind]
    dsimp only
    refine ⟨_, _, by rw [Chk.sub_eq hl (by omega), pure_bind], ?_, ?_, ?_, fun h => ⟨?_, by omega⟩⟩
    · split_ifs <;> omega
    · split_ifs <;> omega
    · split_ifs <;> omega
    · split_ifs at h ⊢ <;> omega

end Ringbuf

end Vamos
