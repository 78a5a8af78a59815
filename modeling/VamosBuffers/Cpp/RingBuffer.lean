import Mathlib.Tactic
import VamosBuffers.Core.SpscRingbuf
import VamosBuffers.Schemes.Agree

/-! `include/vamos-buffers/cpp/ring_buffer.h`: the ring once more, as C++ templates. The capacity is a
    template parameter, `RingBuffer` holds only the two real indices, and each side keeps its stale
    copy of the other's index in an accessor object of its own.

        C    vms_spsc_ringbuf   head   tail       seen_tail               seen_head
        C++  RingBuffer         _head  _tail      RingBufferWriter::seen  RingBufferReader::seen

    The header warns that the two are not kept in sync. They are: step by step every call gives the
    same answer and leaves the same indices, whatever was called before. Neither a failed assertion
    nor a wrapped operation makes a difference, so nothing is assumed about the arguments. -/

namespace Vamos
open Schemes

namespace Cpp

/-- `RingBuffer`. -/
structure RingBuffer where
  tail : ℕ
  head : ℕ
  deriving DecidableEq, Repr

/-- `RingBufferAccessor`, the base of the writer and of the reader. -/
structure RingBufferAccessor where
  seen : ℕ
  deriving DecidableEq, Repr

/-- A ring with its one writer and its one reader. -/
structure Ring where
  rb : RingBuffer
  writer : RingBufferAccessor
  reader : RingBufferAccessor
  deriving DecidableEq, Repr

/-- The locations. -/
inductive Loc where
  | head | tail | writerSeen | readerSeen
  deriving DecidableEq, Repr

abbrev CppProg (α : Type) : Type := Prog Ring (Acc Loc) α

/-- The constructors. -/
def Ring.fresh : Ring := ⟨⟨0, 0⟩, ⟨0⟩, ⟨0⟩⟩

/-! ### Index arithmetic -/

/-- `_is_empty`. -/
def isEmpty (head tail : ℕ) : Bool := head == tail

/-- `_is_full`. -/
def isFull (capacity head tail : ℕ) : Chk Bool := do
  let h1 ← Chk.add head 1
  let c1 ← Chk.sub capacity 1
  pure (h1 == tail || (head == c1 && tail == 0))

/-- `__written_num`. -/
def writtenNumRaw (capacity head tail : ℕ) : Chk ℕ :=
  if tail < head then Chk.sub head tail
  else if tail = head then pure 0
  else do
    let d ← Chk.sub capacity tail
    Chk.add d head

/-- `__free_num`. -/
def freeNumRaw (capacity head tail : ℕ) : Chk ℕ := do
  Chk.require (head < capacity)
  Chk.require (tail < capacity)
  if tail < head then do
    let d ← Chk.sub capacity head
    let d ← Chk.sub d 1
    Chk.add d tail
  else if head = tail then Chk.sub capacity 1
  else do
    let d ← Chk.sub tail head
    Chk.sub d 1

/-- `_written_num`. -/
def writtenNum (capacity head tail : ℕ) : Chk ℕ := do
  Chk.require (head < capacity)
  Chk.require (tail < capacity)
  let ret ← writtenNumRaw capacity head tail
  let c1 ← Chk.sub capacity 1
  Chk.require (ret < capacity)
  Chk.require (isEmpty head tail = (ret == 0))
  let full ← isFull capacity head tail
  Chk.require (full = (ret == c1))
  Chk.require (tail < head → ret = head - tail)
  Chk.require (head < tail → ret = head + (capacity - tail))
  let free ← freeNumRaw capacity head tail
  let d ← Chk.sub c1 free
  Chk.require (ret = d)
  pure ret

/-- `_free_num`. -/
def freeNumOf (capacity head tail : ℕ) : Chk ℕ := do
  Chk.require (head < capacity)
  Chk.require (tail < capacity)
  let ret ← freeNumRaw capacity head tail
  let c1 ← Chk.sub capacity 1
  Chk.require (ret < capacity)
  Chk.require (isEmpty head tail = (ret == c1))
  let full ← isFull capacity head tail
  Chk.require (full = (ret == 0))
  let w ← writtenNumRaw capacity head tail
  let d ← Chk.sub c1 w
  Chk.require (ret = d)
  pure ret

/-- `_write_off`: the number of free elements, `n` and `*wrap_n`. -/
def writeOffOf (capacity head tail : ℕ) : Chk (ℕ × ℕ × ℕ) :=
  if tail < head then
    if tail = 0 then do
      let d ← Chk.sub capacity head
      let n ← Chk.sub d 1
      pure (n, n, 0)
    else do
      let n ← Chk.sub capacity head
      let wrapN ← Chk.sub tail 1
      let d ← Chk.add n tail
      let free ← Chk.sub d 1
      pure (free, n, wrapN)
  else if tail = head then do
    let n ← Chk.sub capacity 1
    pure (n, n, 0)
  else do
    let d ← Chk.sub tail head
    let n ← Chk.sub d 1
    pure (n, n, 0)

/-! ### Objects -/

section Objects

variable (capacity : ℕ)

/-- `load_head`. -/
def loadHead : CppProg ℕ := Prog.load .head (·.rb.head)

/-- `load_tail`. -/
def loadTail : CppProg ℕ := Prog.load .tail (·.rb.tail)

/-- `set_head`. -/
def setHead (newHead : ℕ) : CppProg Unit :=
  Prog.store .head fun r => { r with rb := { r.rb with head := newHead } }

/-- `set_tail`. -/
def setTail (newTail : ℕ) : CppProg Unit :=
  Prog.store .tail fun r => { r with rb := { r.rb with tail := newTail } }

/-- `this->seen` of the writer. -/
def writerSeen : CppProg ℕ := Prog.load .writerSeen (·.writer.seen)

/-- `this->seen` of the reader. -/
def readerSeen : CppProg ℕ := Prog.load .readerSeen (·.reader.seen)

/-- `RingBuffer::is_full`. -/
def full : CppProg Bool := do
  let head ← loadHead
  let tail ← loadTail
  Prog.ofChk (isFull capacity head tail)

/-- `RingBufferAccessor::size`. -/
def size : CppProg ℕ := do
  let head ← loadHead
  let tail ← loadTail
  Prog.ofChk (writtenNum capacity head tail)

/-- `RingBufferAccessor::free_num`. -/
def freeNum : CppProg ℕ := do
  let head ← loadHead
  let tail ← loadTail
  Prog.ofChk (freeNumOf capacity head tail)

/-- `this->seen = load_tail(); _write_off(head, this->seen, n, wrap_n)`. -/
def reloadTail (head : ℕ) : CppProg (ℕ × ℕ × ℕ) := do
  let tail ← loadTail
  Prog.store .writerSeen fun r => { r with writer := ⟨tail⟩ }
  let seen ← writerSeen
  Prog.ofChk (writeOffOf capacity head seen)

/-- The reload, when the first `_write_off` left too little. -/
def reloadTailIf (stale : Bool) (head : ℕ) (r : ℕ × ℕ × ℕ) : CppProg (ℕ × ℕ × ℕ) :=
  if stale then reloadTail capacity head else pure r

/-- `RingBufferWriter::write_off(n, wrap_n)`. -/
def writeOff : CppProg (ℕ × ℕ × ℕ) := do
  let head ← loadHead
  let seen ← writerSeen
  let r ← Prog.ofChk (writeOffOf capacity head seen)
  let r ← reloadTailIf capacity (r.1 == 0) head r
  pure (head, r.2.1, r.2.2)

/-- `this->seen == 0 || _write_off(...) == 0` and the reload it guards. -/
def nowrapNum (head seen : ℕ) : CppProg (ℕ × ℕ × ℕ) :=
  if seen = 0 then reloadTail capacity head else do
    let seen ← writerSeen
    let r ← Prog.ofChk (writeOffOf capacity head seen)
    reloadTailIf capacity (r.1 == 0) head r

/-- `RingBufferWriter::write_off(n)`. -/
def writeOffNowrap : CppProg (ℕ × ℕ) := do
  let head ← loadHead
  let seen ← writerSeen
  let r ← nowrapNum capacity head seen
  pure (head, r.2.1)

/-- `RingBufferWriter::acquire(n, wrap_n)`. -/
def acquire (req : ℕ) : CppProg (ℕ × ℕ × ℕ) := do
  let head ← loadHead
  let seen ← writerSeen
  let r ← Prog.ofChk (writeOffOf capacity head seen)
  let r ← reloadTailIf capacity (r.1 < req) head r
  pure (head, r.2.1, r.2.2)

/-- `RingBufferWriter::acquire(n)`. -/
def acquireNowrap (req : ℕ) : CppProg (ℕ × ℕ) := do
  let head ← loadHead
  let seen ← writerSeen
  let r ← Prog.ofChk (writeOffOf capacity head seen)
  let r ← reloadTailIf capacity (r.1 < req) head r
  pure (head, r.2.1)

/-- `assert(n <= c)` and `assert(c < ~0 - n)`. -/
def checkCount (n : ℕ) : Chk Unit := do
  Chk.require (n ≤ capacity)
  let m ← Chk.sub (2 ^ 64 - 1) n
  Chk.require (capacity < m)

/-- `i + n`, less `c` when that is not below `c`. -/
def moveIndex (i n : ℕ) : Chk ℕ := do
  let j ← Chk.add i n
  if capacity ≤ j then Chk.sub j capacity else pure j

/-- `RingBufferWriter::write_finish`. -/
def writeFinish (n : ℕ) : CppProg Unit := do
  Prog.ofChk (checkCount capacity n)
  let head ← loadHead
  let newHead ← Prog.ofChk (moveIndex capacity head n)
  let tail ← loadTail
  Prog.ofChk (Chk.require (newHead ≠ tail))
  setHead newHead

/-- `this->seen = load_head(); tmp = _written_num(this->seen, tail)`. -/
def reloadHead (tail : ℕ) : CppProg ℕ := do
  let head ← loadHead
  Prog.store .readerSeen fun r => { r with reader := ⟨head⟩ }
  let seen ← readerSeen
  Prog.ofChk (writtenNum capacity seen tail)

/-- The reload, when the first `_written_num` gave too little. -/
def reloadHeadIf (stale : Bool) (tail tmp : ℕ) : CppProg ℕ :=
  if stale then reloadHead capacity tail else pure tmp

/-- `RingBufferReader::read_off`. -/
def readOff : CppProg (ℕ × ℕ) := do
  let tail ← loadTail
  let seen ← readerSeen
  let tmp ← Prog.ofChk (writtenNum capacity seen tail)
  let tmp ← reloadHeadIf capacity (tmp == 0) tail tmp
  pure (tail, tmp)

/-- `RingBufferReader::acquire`. -/
def readAcquire (n : ℕ) : CppProg (ℕ × ℕ) := do
  let tail ← loadTail
  let seen ← readerSeen
  let tmp ← Prog.ofChk (writtenNum capacity seen tail)
  let tmp ← reloadHeadIf capacity (tmp < n) tail tmp
  pure (tail, tmp)

/-- `RingBufferReader::consume`. -/
def consume (n : ℕ) : CppProg Unit := do
  Prog.ofChk (Chk.require (0 < n))
  Prog.ofChk (checkCount capacity n)
  let tail ← loadTail
  let newTail ← Prog.ofChk (moveIndex capacity tail n)
  setTail newTail

/-- `len1` and `len2` of `peek`. -/
def peekSplit (n head tail : ℕ) : Chk (ℕ × ℕ) :=
  if tail < head then pure (n, 0)
  else do
    Chk.require (tail ≠ head)
    let d ← Chk.sub capacity tail
    let l1 := if n < d then n else d
    let rest ← Chk.sub n l1
    pure (l1, if head < rest then head else rest)

/-- The refresh of `peek`, which goes on with the head just loaded. -/
def peekNum (n tail head cur : ℕ) : CppProg (ℕ × ℕ) :=
  if cur < n ∨ n = 0 then do
    let head ← loadHead
    Prog.store .readerSeen fun r => { r with reader := ⟨head⟩ }
    let cur ← Prog.ofChk (writtenNum capacity head tail)
    pure (head, cur)
  else pure (head, cur)

/-- `RingBufferReader::peek`: the number of items, and `(off, len1, len2)` when they are set. -/
def peek (n : ℕ) : CppProg (ℕ × Option (ℕ × ℕ × ℕ)) := do
  let tail ← loadTail
  let head ← readerSeen
  let cur ← Prog.ofChk (writtenNum capacity head tail)
  let (head, cur) ← peekNum capacity n tail head cur
  if n = 0 then pure (cur, none)
  else if cur = 0 then pure (0, none)
  else do
    let n := if cur < n then cur else n
    Prog.ofChk (Chk.require (n ≤ cur))
    let (len1, len2) ← Prog.ofChk (peekSplit capacity n head tail)
    Prog.ofChk (Chk.require (len1 + len2 = n))
    pure (cur, some (tail, len1, len2))

end Objects

end Cpp

/-! ### The same ring -/

/-- The operations that both rings have. -/
inductive RingOp where
  | writeOff | writeOffNowrap
  | acquire (req : ℕ) | acquireNowrap (req : ℕ)
  | writeFinish (n : ℕ)
  | readOff | readAcquire (req : ℕ) | consume (n : ℕ) | peek (n : ℕ)
  | size | freeNum | isFull
  deriving DecidableEq, Repr

/-- What an operation hands back. -/
inductive RingAnswer where
  | wrapped (off n wrapN : ℕ)
  | range (off n : ℕ)
  | done
  | peeked (n : ℕ) (runs : Option (ℕ × ℕ × ℕ))
  | number (n : ℕ)
  | flag (b : Bool)
  deriving DecidableEq, Repr

/-- An operation on the C ring. -/
def Ringbuf.perform : RingOp → RingProg RingAnswer
  | .writeOff => do let r ← writeOff; pure (.wrapped r.1 r.2.1 r.2.2)
  | .writeOffNowrap => do let r ← writeOffNowrap; pure (.range r.1 r.2)
  | .acquire req => do let r ← acquire req; pure (.wrapped r.1 r.2.1 r.2.2)
  | .acquireNowrap req => do let r ← acquireNowrap req; pure (.range r.1 r.2)
  | .writeFinish n => do writeFinish n; pure .done
  | .readOff => do let r ← readOffNowrap; pure (.range r.1 r.2)
  | .readAcquire req => do let r ← readAcquire req; pure (.range r.1 r.2)
  | .consume n => do consume n; pure .done
  | .peek n => do let r ← peek n; pure (.peeked r.1 r.2)
  | .size => do let n ← size; pure (.number n)
  | .freeNum => do let n ← freeNum; pure (.number n)
  | .isFull => do let b ← full; pure (.flag b)

/-- The same operation on the C++ ring. -/
def Cpp.perform (capacity : ℕ) : RingOp → Cpp.CppProg RingAnswer
  | .writeOff => do let r ← writeOff capacity; pure (.wrapped r.1 r.2.1 r.2.2)
  | .writeOffNowrap => do let r ← writeOffNowrap capacity; pure (.range r.1 r.2)
  | .acquire req => do let r ← acquire capacity req; pure (.wrapped r.1 r.2.1 r.2.2)
  | .acquireNowrap req => do let r ← acquireNowrap capacity req; pure (.range r.1 r.2)
  | .writeFinish n => do writeFinish capacity n; pure .done
  | .readOff => do let r ← readOff capacity; pure (.range r.1 r.2)
  | .readAcquire req => do let r ← readAcquire capacity req; pure (.range r.1 r.2)
  | .consume n => do consume capacity n; pure .done
  | .peek n => do let r ← peek capacity n; pure (.peeked r.1 r.2)
  | .size => do let n ← size capacity; pure (.number n)
  | .freeNum => do let n ← freeNum capacity; pure (.number n)
  | .isFull => do let b ← full capacity; pure (.flag b)

/-- Every answer of a sequence of operations, and the ring they leave. -/
def performAll {σ Λ : Type} (perform : RingOp → Prog σ Λ RingAnswer) :
    List RingOp → σ → List RingAnswer × σ
  | [], s => ([], s)
  | op :: ops, s =>
    let r := (perform op).run s
    let rs := performAll perform ops r.2
    (r.1 :: rs.1, rs.2)

namespace Cpp

variable {c : ℕ}

/-- The C++ objects stand where the C ring stands. -/
structure Same (c : ℕ) (b : Ringbuf) (r : Ring) : Prop where
  capacity : b.capacity = c
  head : b.head = r.rb.head
  tail : b.tail = r.rb.tail
  seenTail : b.seenTail = r.writer.seen
  seenHead : b.seenHead = r.reader.seen

theorem moveIndex_eq (i n : ℕ) : moveIndex c i n = Ringbuf.moveIndex i n c := rfl

/-! ### Writer -/

/-- Both begin a writer's call with the same head and the same stale tail. -/
theorem beginWrite_agree {β : Type} {g : ℕ × ℕ × ℕ → RingProg β} {g' : ℕ → ℕ → CppProg β}
    (h : ∀ head seen, Agree (Same c) (g (head, c, seen)) (g' head seen)) :
    Agree (Same c) (Ringbuf.beginWrite >>= g)
      (do let head ← loadHead; let seen ← writerSeen; g' head seen) := by
  intro b r hs
  have hb : Same c { b with atTail := none } r := ⟨hs.1, hs.2, hs.3, hs.4, hs.5⟩
  have hg := h b.head b.seenTail _ _ hb
  obtain rfl := hs.capacity
  simp only [Ringbuf.beginWrite, loadHead, writerSeen, Prog.run_bind, Prog.run_access,
    Prog.run_load, Prog.pure_eq_ret, Prog.run_ret]
  rw [← hs.head, ← hs.seenTail]
  exact hg

theorem reloadTail_agree (head : ℕ) :
    Agree (Same c) (Ringbuf.refreshTail head c) (reloadTail c head) := by
  refine Agree.bind (Agree.access fun b r hs => ⟨hs.tail, hs.1, hs.2, hs.3, hs.4, hs.5⟩) fun tail => ?_
  refine Agree.bind (Agree.access fun b r hs => ⟨rfl, hs.1, hs.2, hs.3, rfl, hs.5⟩) fun _ => ?_
  exact Agree.bind (Agree.access fun b r hs => ⟨hs.seenTail, hs⟩) fun seen => Agree.ofChk _

theorem reloadTailIf_agree (stale : Bool) (head : ℕ) (r : ℕ × ℕ × ℕ) :
    Agree (Same c) (Ringbuf.refreshTailIf stale head c r) (reloadTailIf c stale head r) :=
  Agree.ite (reloadTail_agree head) (Agree.ret r)

/-- The store to `write_in_progress`, which C++ does not have. -/
theorem setWip_agree {α : Type} (head n : ℕ) (a : α) :
    Agree (Same c) (do Ringbuf.setWip head n; pure a) (pure a : CppProg α) :=
  Agree.skip (fun _ _ hs => ⟨hs.1, hs.2, hs.3, hs.4, hs.5⟩) fun _ => Agree.ret a

theorem acquire_agree (req : ℕ) : Agree (Same c) (Ringbuf.acquire req) (acquire c req) := by
  refine beginWrite_agree fun head seen => Agree.bind (Agree.ofChk _) fun r => ?_
  refine Agree.bind (reloadTailIf_agree _ head r) fun r => ?_
  exact Agree.skip_chk (setWip_agree _ _ _)

/-- `== 0` is `< 1`. -/
theorem writeOff_eq : writeOff c = acquire c 1 := by
  have hz : ∀ n : ℕ, (n == 0) = decide (n < 1) := fun n => by rw [Bool.eq_iff_iff]; simp
  unfold writeOff acquire
  simp only [hz]

theorem writeOff_agree : Agree (Same c) Ringbuf.writeOff (writeOff c) := by
  rw [writeOff_eq]
  exact acquire_agree 1

theorem nowrapNum_agree (head seen : ℕ) :
    Agree (Same c) (Ringbuf.nowrapNum head c seen) (nowrapNum c head seen) := by
  refine Agree.ite (reloadTail_agree head) ?_
  refine Agree.bind (Agree.access fun b r hs => ⟨hs.seenTail, hs⟩) fun seen => ?_
  exact Agree.bind (Agree.ofChk _) fun r => reloadTailIf_agree _ head r

theorem writeOffNowrap_agree : Agree (Same c) Ringbuf.writeOffNowrap (writeOffNowrap c) :=
  beginWrite_agree fun head seen =>
    Agree.bind (nowrapNum_agree head seen) fun _ => setWip_agree _ _ _

theorem acquireNowrap_agree (req : ℕ) :
    Agree (Same c) (Ringbuf.acquireNowrap req) (acquireNowrap c req) :=
  beginWrite_agree fun head _ => Agree.bind (Agree.ofChk _) fun r =>
    Agree.bind (reloadTailIf_agree _ head r) fun _ => setWip_agree _ _ _

/-- The C ring checks `write_in_progress` as well. -/
theorem writeFinish_agree (n : ℕ) : Agree (Same c) (Ringbuf.writeFinish n) (writeFinish c n) := by
  intro b r hs
  obtain rfl := hs.capacity
  simp only [Ringbuf.writeFinish, writeFinish, loadHead, loadTail, setHead, Prog.run_bind,
    Prog.run_load, Prog.run_store, Prog.run_ofChk, moveIndex_eq, ← hs.head]
  exact ⟨trivial, rfl, rfl, hs.tail, hs.seenTail, hs.seenHead⟩

/-! ### Reader -/

/-- Both begin a reader's call with the same tail and the same stale head. -/
theorem beginRead_agree {β : Type} {g : ℕ × ℕ × ℕ → RingProg β} {g' : ℕ → ℕ → CppProg β}
    (h : ∀ tail seen, Agree (Same c) (g (tail, c, seen)) (g' tail seen)) :
    Agree (Same c) (Ringbuf.beginRead >>= g)
      (do let tail ← loadTail; let seen ← readerSeen; g' tail seen) := by
  intro b r hs
  have hb : Same c { b with atHead := none } r := ⟨hs.1, hs.2, hs.3, hs.4, hs.5⟩
  have hg := h b.tail b.seenHead _ _ hb
  obtain rfl := hs.capacity
  simp only [Ringbuf.beginRead, loadTail, readerSeen, Prog.run_bind, Prog.run_access,
    Prog.run_load, Prog.pure_eq_ret, Prog.run_ret]
  rw [← hs.tail, ← hs.seenHead]
  exact hg

/-- The load of `head` and the store of the stale copy. -/
theorem storeSeenHead_agree {α : Type} {g : ℕ → RingProg α} {g' : ℕ → CppProg α}
    (h : ∀ head, Agree (Same c) (g head) (g' head)) :
    Agree (Same c)
      (do
        let head ← Ringbuf.loadHeadR
        Prog.store .seenHead fun b => { b with seenHead := head }
        g head)
      (do
        let head ← loadHead
        Prog.store .readerSeen fun r => { r with reader := ⟨head⟩ }
        g' head) := by
  refine Agree.bind (Agree.access fun b r hs => ⟨hs.head, hs.1, hs.2, hs.3, hs.4, hs.5⟩) fun head => ?_
  exact Agree.bind (Agree.access fun b r hs => ⟨rfl, hs.1, hs.2, hs.3, hs.4, rfl⟩) fun _ => h head

theorem reloadHead_agree (tail : ℕ) :
    Agree (Same c) (Ringbuf.refreshHead tail c) (reloadHead c tail) :=
  storeSeenHead_agree fun _ =>
    Agree.bind (Agree.access fun _ _ hs => ⟨hs.seenHead, hs⟩) fun _ => Agree.ofChk _

theorem reloadHeadIf_agree (stale : Bool) (tail tmp : ℕ) :
    Agree (Same c) (Ringbuf.refreshHeadIf stale tail c tmp) (reloadHeadIf c stale tail tmp) :=
  Agree.ite (reloadHead_agree tail) (Agree.ret tmp)

theorem readOff_agree : Agree (Same c) Ringbuf.readOffNowrap (readOff c) :=
  beginRead_agree fun tail _ => Agree.bind (Agree.ofChk _) fun tmp =>
    Agree.bind (reloadHeadIf_agree _ tail tmp) fun _ => Agree.ret _

theorem readAcquire_agree (n : ℕ) : Agree (Same c) (Ringbuf.readAcquire n) (readAcquire c n) :=
  beginRead_agree fun tail _ => Agree.bind (Agree.ofChk _) fun tmp =>
    Agree.bind (reloadHeadIf_agree _ tail tmp) fun _ => Agree.ret _

theorem consume_agree (n : ℕ) : Agree (Same c) (Ringbuf.consume n) (consume c n) := by
  intro b r hs
  obtain rfl := hs.capacity
  simp only [Ringbuf.consume, consume, loadTail, setTail, Prog.run_bind, Prog.run_load,
    Prog.run_store, Prog.run_ofChk, moveIndex_eq, ← hs.tail]
  exact ⟨trivial, rfl, hs.head, rfl, hs.seenTail, hs.seenHead⟩

theorem peekNum_agree (n tail head cur : ℕ) :
    Agree (Same c) (Ringbuf.peekNum n tail c head cur) (peekNum c n tail head cur) :=
  Agree.ite (storeSeenHead_agree fun _ => Agree.bind (Agree.ofChk _) fun _ => Agree.ret _)
    (Agree.ret _)

theorem peek_agree (n : ℕ) : Agree (Same c) (Ringbuf.peek n) (peek c n) := by
  refine beginRead_agree fun tail head => Agree.bind (Agree.ofChk _) fun cur => ?_
  refine Agree.bind (peekNum_agree n tail head cur) fun r => ?_
  refine Agree.ite (Agree.ret _) (Agree.ite (Agree.ret _) ?_)
  refine Agree.bind (Agree.ofChk _) fun _ => Agree.bind (Agree.ofChk _) fun l => ?_
  exact Agree.bind (Agree.ofChk _) fun _ => Agree.ret _

/-! ### Queries -/

/-- A query loads both indices and computes on them. -/
theorem query_agree {α : Type} (f : ℕ → ℕ → ℕ → Chk α) :
    Agree (Same c)
      (do
        let (head, c) ← Prog.load RingLoc.head fun b : Ringbuf => (b.head, b.capacity)
        let tail ← Prog.load RingLoc.tail fun b : Ringbuf => b.tail
        Prog.ofChk (f head tail c))
      (do
        let head ← loadHead
        let tail ← loadTail
        Prog.ofChk (f head tail c)) := by
  intro b r hs
  obtain rfl := hs.capacity
  simp only [loadHead, loadTail, Prog.run_bind, Prog.run_load, Prog.run_ofChk, ← hs.head, ← hs.tail]
  exact ⟨trivial, hs⟩

theorem full_agree : Agree (Same c) Ringbuf.full (full c) := by
  intro b r hs
  obtain rfl := hs.capacity
  simp only [Ringbuf.full, full, loadHead, loadTail, Prog.run_bind, Prog.run_load, Prog.run_ofChk,
    ← hs.head, ← hs.tail]
  exact ⟨rfl, hs⟩

/-! ### Runs -/

/-- One operation: the same answer, and the rings stay the same. -/
theorem perform_agree (op : RingOp) : Agree (Same c) (Ringbuf.perform op) (perform c op) := by
  cases op with
  | writeOff => exact Agree.bind writeOff_agree fun _ => Agree.ret _
  | writeOffNowrap => exact Agree.bind writeOffNowrap_agree fun _ => Agree.ret _
  | acquire req => exact Agree.bind (acquire_agree req) fun _ => Agree.ret _
  | acquireNowrap req => exact Agree.bind (acquireNowrap_agree req) fun _ => Agree.ret _
  | writeFinish n => exact Agree.bind (writeFinish_agree n) fun _ => Agree.ret _
  | readOff => exact Agree.bind readOff_agree fun _ => Agree.ret _
  | readAcquire req => exact Agree.bind (readAcquire_agree req) fun _ => Agree.ret _
  | consume n => exact Agree.bind (consume_agree n) fun _ => Agree.ret _
  | peek n => exact Agree.bind (peek_agree n) fun _ => Agree.ret _
  | size => exact Agree.bind (query_agree Ringbuf.getWrittenNum) fun _ => Agree.ret _
  | freeNum => exact Agree.bind (query_agree Ringbuf.getFreeNum) fun _ => Agree.ret _
  | isFull => exact Agree.bind full_agree fun _ => Agree.ret _

theorem performAll_same (ops : List RingOp) :
    ∀ {b : Ringbuf} {r : Ring}, Same c b r →
      (performAll Ringbuf.perform ops b).1 = (performAll (perform c) ops r).1 ∧
        Same c (performAll Ringbuf.perform ops b).2 (performAll (perform c) ops r).2 := by
  induction ops with
  | nil => exact fun hs => ⟨rfl, hs⟩
  | cons op ops ih =>
    intro b r hs
    obtain ⟨h1, h2⟩ := perform_agree op b r hs
    obtain ⟨h3, h4⟩ := ih h2
    exact ⟨congrArg₂ List.cons h1 h3, h4⟩

/-- The C++ ring is the C ring: over every sequence of operations on fresh rings, of whatever
    capacity and with whatever arguments, the same answers and the same indices. -/
theorem rings_agree (c : ℕ) (ops : List RingOp) :
    let run := performAll Ringbuf.perform ops (Ringbuf.init c).val
    let run' := performAll (perform c) ops Ring.fresh
    run.1 = run'.1 ∧ run.2.head = run'.2.rb.head ∧ run.2.tail = run'.2.rb.tail ∧
      run.2.seenTail = run'.2.writer.seen ∧ run.2.seenHead = run'.2.reader.seen := by
  intro run run'
  obtain ⟨h, hs⟩ := performAll_same ops (c := c) (b := (Ringbuf.init c).val) (r := Ring.fresh)
    ⟨rfl, rfl, rfl, rfl, rfl⟩
  exact ⟨h, hs.head, hs.tail, hs.seenTail, hs.seenHead⟩

end Cpp

end Vamos
