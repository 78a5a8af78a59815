import Mathlib.Tactic
import VamosBuffers.Core.ParQueue
import VamosBuffers.Core.RingbufRoles
import VamosBuffers.Schemes.Blocks

/-! A push in pieces: `vms_shm_buffer_start_push`, `_partial_push` and `_finish_push` of
    `src/shmbuf/buffer.c`, on the bytes of the buffer.

        start_push ──▶ p ──partial_push──▶ p + |c₁| ──partial_push──▶ ... ──▶ finish_push
                       │                                                       head moves
                       c₁ c₂ ... one after the other, all in the slot at head

    The reader may pop between any two of these calls. A pop reads the slot at `tail` and moves only
    indices, a piece writes only bytes of the slot at `head`, so the two commute, and the pieces come
    to one copy of all their bytes. -/

namespace Vamos
open Schemes

/-- The shared locations of a buffer. -/
inductive BufferLoc where
  | ring (x : RingLoc)
  | capacity | elemSize | destroyed | data
  deriving DecidableEq, Repr

/-- What a push and a pop use of `struct shmbuffer`; `data` are the bytes from `BUFF_START` on. -/
structure ByteBuffer where
  ring : Ringbuf
  capacity : ℕ
  elemSize : ℕ
  destroyed : Bool
  data : Bytes
  deriving DecidableEq, Repr

abbrev BufferProg (α : Type) : Type := Prog ByteBuffer (Acc BufferLoc) α

namespace ByteBuffer

/-- The ring inside the buffer. -/
def ringLens : Lens ByteBuffer Ringbuf where
  get m := m.ring
  set b m := { m with ring := b }
  get_set _ _ := rfl
  set_get _ := rfl

/-- A call on the ring inside the buffer. -/
def onRing {α : Type} (p : RingProg α) : BufferProg α := p.zoom ringLens (Acc.map .ring)

/-- `assert(!destroyed)`. -/
def checkAlive : BufferProg Unit := do
  let destroyed ← Prog.load .destroyed (·.destroyed)
  Prog.ofChk (Chk.require (destroyed = false))

/-- `BUFF_END`, as an offset from `BUFF_START`. -/
def buffEnd : BufferProg ℕ := do
  let elemSize ← Prog.load .elemSize (·.elemSize)
  let capacity ← Prog.load .capacity (·.capacity)
  Prog.ofChk (Chk.mul elemSize ((capacity + 1) % 2 ^ 64))

/-- `data + off * elem_size`. -/
def slotPtr (off : ℕ) : BufferProg ℕ := do
  let elemSize ← Prog.load .elemSize (·.elemSize)
  Prog.ofChk (Chk.mul off elemSize)

/-- `memcpy` to offset `p` of the data. -/
def copyTo (p : ℕ) (s : Bytes) : BufferProg Unit :=
  Prog.store .data fun m => { m with data := overwrite m.data p s }

/-! ### Writer -/

/-- `vms_shm_buffer_start_push`: the slot at `head`, or `NULL`. -/
def startPush : BufferProg (Option ℕ) := do
  checkAlive
  let (off, n) ← onRing Ringbuf.writeOffNowrap
  if n = 0 then pure none
  else do
    let p ← slotPtr off
    let last ← buffEnd
    Prog.ofChk (Chk.require (p < last))
    pure (some p)

/-- `vms_shm_buffer_partial_push`: the pointer behind what was copied. -/
def partialPush (prev : ℕ) (elem : Bytes) : BufferProg ℕ := do
  checkAlive
  let last ← buffEnd
  Prog.ofChk (Chk.require (prev < last))
  Prog.ofChk (Chk.require (prev + elem.length ≤ last))
  copyTo prev elem
  pure (prev + elem.length)

/-- `vms_shm_buffer_finish_push`. -/
def finishPush : BufferProg Unit := do
  checkAlive
  onRing (Ringbuf.writeFinish 1)

/-- `vms_shm_buffer_push`. -/
def push (elem : Bytes) : BufferProg Bool := do
  checkAlive
  let elemSize ← Prog.load .elemSize (·.elemSize)
  Prog.ofChk (Chk.require (elem.length ≤ elemSize))
  match ← startPush with
  | none => pure false
  | some dst => do
    copyTo dst elem
    finishPush
    pure true

/-! ### Reader -/

/-- `vms_shm_buffer_read_pointer`: `*size` and the slot at `tail`. -/
def readPointer : BufferProg (ℕ × Option ℕ) := do
  let (tail, size) ← onRing Ringbuf.readOffNowrap
  if size = 0 then pure (size, none)
  else do
    let p ← slotPtr tail
    pure (size, some p)

/-- `vms_shm_buffer_pop`: what was copied to `dst`, or nothing and `false`. -/
def pop : BufferProg (Option Bytes) := do
  checkAlive
  let (_, pos) ← readPointer
  match pos with
  | none => pure none
  | some pos => do
    let elemSize ← Prog.load .elemSize (·.elemSize)
    let x ← Prog.load .data fun m => (m.data.drop pos).take elemSize
    onRing (Ringbuf.consume 1)
    pure (some x)

/-! ### Pieces -/

/-- What happens between `start_push` and `finish_push`. -/
inductive Piece where
  | chunk (bytes : Bytes)
  | pop
  deriving DecidableEq, Repr

/-- The buffer, the pointer that the last piece returned, and what the reader's pops gave. -/
structure Writing where
  mem : ByteBuffer
  ptr : ℕ
  popped : List (Option Bytes)
  deriving DecidableEq, Repr

namespace Writing

def piece (w : Writing) : Piece → Writing
  | .chunk c =>
    let r := (partialPush w.ptr c).run w.mem
    { w with mem := r.2, ptr := r.1 }
  | .pop =>
    let r := pop.run w.mem
    { w with mem := r.2, popped := w.popped ++ [r.1] }

def pieces (w : Writing) (acts : List Piece) : Writing := acts.foldl piece w

end Writing

/-- The bytes of all chunks. -/
def chunks : List Piece → Bytes
  | [] => []
  | .chunk c :: acts => c ++ chunks acts
  | .pop :: acts => chunks acts

/-- The number of pops. -/
def pops : List Piece → ℕ
  | [] => 0
  | .chunk _ :: acts => pops acts
  | .pop :: acts => pops acts + 1

/-! ### What is in the buffer -/

/-- The slots between `tail` and `head`, oldest first. -/
def content (m : ByteBuffer) : List Bytes :=
  (List.range (m.ring.written - m.ring.consumed)).map fun i =>
    block m.elemSize m.data ((m.ring.consumed + i) % m.ring.capacity)

/-- The buffer between two calls: the ring has a slot more than the capacity, and all slots lie in the
    data. -/
structure Ok (m : ByteBuffer) : Prop where
  ring : Ringbuf.RingInv m.ring
  slots : m.ring.capacity = m.capacity + 1
  elems : 0 < m.elemSize
  inside : m.ring.capacity * m.elemSize ≤ m.data.length
  word : m.ring.capacity * m.elemSize < 2 ^ 64

/-! ### Calls run alone -/

theorem run_onRing {α : Type} (p : RingProg α) (m : ByteBuffer) :
    (onRing p).run m = ((p.run m.ring).1, { m with ring := (p.run m.ring).2 }) :=
  Prog.run_zoom (fun _ _ _ => rfl) _ p m

theorem run_checkAlive (m : ByteBuffer) : checkAlive.run m = ((), m) := by
  simp [checkAlive]

theorem run_startPush (m : ByteBuffer) : startPush.run m =
    (if (Ringbuf.writeOffNowrap.run m.ring).1.2 = 0 then none
      else some ((Ringbuf.writeOffNowrap.run m.ring).1.1 * m.elemSize % 2 ^ 64),
      { m with ring := (Ringbuf.writeOffNowrap.run m.ring).2 }) := by
  simp only [startPush, Prog.run_bind, run_checkAlive, run_onRing]
  split <;> simp [slotPtr, buffEnd, Chk.mul]

theorem run_partialPush (prev : ℕ) (elem : Bytes) (m : ByteBuffer) :
    (partialPush prev elem).run m =
      (prev + elem.length, { m with data := overwrite m.data prev elem }) := by
  simp [partialPush, run_checkAlive, buffEnd, copyTo]

theorem run_finishPush (m : ByteBuffer) :
    finishPush.run m = ((), { m with ring := ((Ringbuf.writeFinish 1).run m.ring).2 }) := by
  simp [finishPush, run_checkAlive, run_onRing]

/-- A push is its three parts with one copy between them. -/
theorem run_push (elem : Bytes) (m : ByteBuffer) : (push elem).run m =
    match (startPush.run m).1 with
    | none => (false, (startPush.run m).2)
    | some dst => (true, (finishPush.run ((copyTo dst elem).run (startPush.run m).2).2).2) := by
  simp only [push, Prog.run_bind, run_checkAlive, Prog.run_load, Prog.run_ofChk]
  split <;> simp_all

theorem run_readPointer (m : ByteBuffer) : readPointer.run m =
    (((Ringbuf.readOffNowrap.run m.ring).1.2,
      if (Ringbuf.readOffNowrap.run m.ring).1.2 = 0 then none
      else some ((Ringbuf.readOffNowrap.run m.ring).1.1 * m.elemSize % 2 ^ 64)),
      { m with ring := (Ringbuf.readOffNowrap.run m.ring).2 }) := by
  simp only [readPointer, Prog.run_bind, run_onRing]
  split <;> simp [slotPtr, Chk.mul]

/-- What a pop does to the ring. -/
def popRing (b : Ringbuf) : Ringbuf :=
  let r := Ringbuf.readOffNowrap.run b
  if r.1.2 = 0 then r.2 else ((Ringbuf.consume 1).run r.2).2

theorem run_pop (m : ByteBuffer) : pop.run m =
    (if (Ringbuf.readOffNowrap.run m.ring).1.2 = 0 then none
      else some ((m.data.drop ((Ringbuf.readOffNowrap.run m.ring).1.1 * m.elemSize % 2 ^ 64)).take
        m.elemSize),
      { m with ring := popRing m.ring }) := by
  simp only [pop, Prog.run_bind, run_checkAlive, run_readPointer, popRing]
  by_cases h : (Ringbuf.readOffNowrap.run m.ring).1.2 = 0 <;> simp [h, run_onRing]

/-! ### The pieces -/

theorem pieces_cons (w : Writing) (a : Piece) (acts : List Piece) :
    w.pieces (a :: acts) = (w.piece a).pieces acts := rfl

theorem pieces_append (w : Writing) (acts acts' : List Piece) :
    w.pieces (acts ++ acts') = (w.pieces acts).pieces acts' := by
  simp [Writing.pieces]

theorem chunks_append (acts acts' : List Piece) : chunks (acts ++ acts') = chunks acts ++ chunks acts' := by
  induction acts with
  | nil => rfl
  | cons a acts ih => cases a <;> simp [chunks, ih]

theorem pops_append (acts acts' : List Piece) : pops (acts ++ acts') = pops acts + pops acts' := by
  induction acts with
  | nil => simp [pops]
  | cons a acts ih =>
    cases a <;> simp only [List.cons_append, pops, ih]
    omega

/-- The pieces come to one copy, the pops to as many pops of the ring. -/
theorem pieces_eq {acts : List Piece} {w : Writing}
    (h : w.ptr + (chunks acts).length ≤ w.mem.data.length) :
    (w.pieces acts).mem = { w.mem with
        ring := popRing^[pops acts] w.mem.ring, data := overwrite w.mem.data w.ptr (chunks acts) } ∧
      (w.pieces acts).ptr = w.ptr + (chunks acts).length := by
  induction acts generalizing w with
  | nil => simp [Writing.pieces, chunks, pops]
  | cons a acts ih =>
    cases a with
    | chunk c =>
      simp only [chunks] at h
      have hpos : w.ptr + c.length ≤ w.mem.data.length := by
        rw [List.length_append] at h
        omega
      obtain ⟨hmem, hptr⟩ := ih (w := w.piece (.chunk c)) (by
        simp only [Writing.piece, run_partialPush]
        rw [length_overwrite hpos]
        rw [List.length_append] at h
        omega)
      rw [pieces_cons, hmem, hptr]
      simp [Writing.piece, run_partialPush, overwrite_overwrite h, chunks, pops, Nat.add_assoc]
    | pop =>
      obtain ⟨hmem, hptr⟩ := ih (w := w.piece .pop) (by
        simpa [Writing.piece, run_pop, chunks] using h)
      rw [pieces_cons, hmem, hptr]
      simp [Writing.piece, run_pop, chunks, pops]

/-! ### The ring on its own -/

theorem writer_alone {α : Type} {N : ℕ} {Q : α → Ringbuf → Prop} {p : RingProg α} {b : Ringbuf}
    (hb : Ringbuf.RingInv b) (hs : Safe Ringbuf.RingInv (Ringbuf.writerRole N) Q p b) :
    Ringbuf.RingInv (p.run b).2 ∧ Q (p.run b).1 (p.run b).2 ∧ Ringbuf.WriterStep b (p.run b).2 :=
  Safe.run (ρ := Ringbuf.writerRole N) (fun _ _ => trivial) Ringbuf.WriterStep.refl
    Ringbuf.WriterStep.trans (fun _ _ _ h => h.1) hb hs

theorem reader_alone {α : Type} {N : ℕ} {Q : α → Ringbuf → Prop} {p : RingProg α} {b : Ringbuf}
    (hb : Ringbuf.RingInv b) (hs : Safe Ringbuf.RingInv (Ringbuf.readerRole N) Q p b) :
    Ringbuf.RingInv (p.run b).2 ∧ Q (p.run b).1 (p.run b).2 ∧ Ringbuf.ReaderStep b (p.run b).2 :=
  Safe.run (ρ := Ringbuf.readerRole N) (fun _ _ => trivial) Ringbuf.ReaderStep.refl
    Ringbuf.ReaderStep.trans (fun _ _ _ h => h.1) hb hs

/-- `write_off_nowrap`: room for one item at `head`, or the ring is full. -/
theorem writeOff_alone {b : Ringbuf} (hb : Ringbuf.RingInv b) :
    let r := Ringbuf.writeOffNowrap.run b
    Ringbuf.RingInv r.2 ∧ Ringbuf.WriterStep b r.2 ∧ Ringbuf.Offered r.1.1 r.1.2 r.2 ∧
      r.2.written = b.written ∧ (r.1.2 = 0 → b.consumed + b.capacity ≤ b.written + 1) := by
  have hs := Ringbuf.writeOffNowrap_safe (N := 0) hb
  obtain ⟨hi, ⟨ho, hw, hfull, -⟩, hstep⟩ := writer_alone hb hs
  exact ⟨hi, hstep, ho, hw, fun h0 => (hfull h0).start⟩

/-- `write_finish`: the item is written. -/
theorem writeFinish_alone {b : Ringbuf} {off n : ℕ} (hb : Ringbuf.RingInv b)
    (ho : Ringbuf.Offered off n b) (hn : 0 < n) :
    let r := (Ringbuf.writeFinish 1).run b
    Ringbuf.RingInv r.2 ∧ Ringbuf.WriterStep b r.2 ∧ r.2.written = b.written + 1 := by
  have hmax := hb.base.max
  have hs := Ringbuf.writeFinish_safe (N := b.written + 1) ho Nat.one_pos hn (by omega) le_rfl
  obtain ⟨hi, hw, hstep⟩ := writer_alone hb hs
  exact ⟨hi, hstep, hw⟩

/-- `read_off_nowrap`: the slot at `tail`, and no item only if there is none. -/
theorem readOff_alone {b : Ringbuf} (hb : Ringbuf.RingInv b) :
    let r := Ringbuf.readOffNowrap.run b
    Ringbuf.RingInv r.2 ∧ Ringbuf.ReaderStep b r.2 ∧ r.1.1 = b.consumed % b.capacity ∧
      r.2.consumed = b.consumed ∧ Ringbuf.Avail r.2 r.1.2 ∧
      (r.1.2 = 0 ↔ b.written ≤ b.consumed) := by
  have hs := Ringbuf.readNum_safe (N := 0) hb hb.avail_zero fun tmp => tmp == 0
  have hrun := reader_alone (p := Ringbuf.readOffNowrap) hb hs
  obtain ⟨hi, ⟨ht, -, hzero, -, -⟩, hstep⟩ := hrun
  refine ⟨hi, hstep, ?_, ht.consumed, ht.avail, ?_, ?_⟩
  · rw [ht.off, hi.base.tail, ht.consumed, ht.capacity]
  · intro h0
    have hle := (hzero (by simp [h0])).2
    omega
  · intro hle
    have hitems := ht.avail.le_items
    have hc := ht.consumed
    have hw := hstep.written
    omega

/-- A pop takes one item, if there is one. -/
theorem popRing_spec {b : Ringbuf} (hb : Ringbuf.RingInv b) :
    Ringbuf.RingInv (popRing b) ∧ Ringbuf.ReaderStep b (popRing b) ∧
      (popRing b).consumed = min (b.consumed + 1) b.written := by
  obtain ⟨hi, hstep, -, hc, ha, hzero⟩ := readOff_alone hb
  have hle := hb.consumed_le
  by_cases h0 : (Ringbuf.readOffNowrap.run b).1.2 = 0
  · have hpop : popRing b = (Ringbuf.readOffNowrap.run b).2 := if_pos h0
    have := hzero.mp h0
    rw [hpop]
    exact ⟨hi, hstep, by omega⟩
  · have hpop : popRing b = ((Ringbuf.consume 1).run (Ringbuf.readOffNowrap.run b).2).2 :=
      if_neg h0
    have hmax := hi.base.max
    have hs := Ringbuf.consume_safe (N := (Ringbuf.readOffNowrap.run b).2.consumed + 1) ha
      Nat.one_pos (Nat.pos_of_ne_zero h0) (by omega) le_rfl
    obtain ⟨hi', ⟨hc', -⟩, hstep'⟩ := reader_alone hi hs
    rw [hpop]
    have hne : ¬ b.written ≤ b.consumed := fun h => h0 (hzero.mpr h)
    exact ⟨hi', hstep.trans hstep', by omega⟩

theorem popRing_iterate {b : Ringbuf} (hb : Ringbuf.RingInv b) (k : ℕ) :
    Ringbuf.RingInv (popRing^[k] b) ∧ Ringbuf.ReaderStep b (popRing^[k] b) ∧
      (popRing^[k] b).consumed = min (b.consumed + k) b.written := by
  induction k with
  | zero =>
    have := hb.consumed_le
    exact ⟨hb, Ringbuf.ReaderStep.refl b, by simp [this]⟩
  | succ k ih =>
    obtain ⟨hi, hstep, hc⟩ := ih
    obtain ⟨hi', hstep', hc'⟩ := popRing_spec hi
    have hw := hstep.written
    rw [Function.iterate_succ_apply']
    exact ⟨hi', hstep.trans hstep', by omega⟩

/-! ### The content -/

theorem length_content (m : ByteBuffer) :
    m.content.length = m.ring.written - m.ring.consumed := by
  simp [content]

theorem getElem?_content (m : ByteBuffer) {i : ℕ} (hi : i < m.ring.written - m.ring.consumed) :
    m.content[i]? =
      some (block m.elemSize m.data ((m.ring.consumed + i) % m.ring.capacity)) := by
  simp [content, hi]

/-- The reader's steps take items from the front. -/
theorem content_of_readerStep {m : ByteBuffer} {b : Ringbuf} (h : Ringbuf.ReaderStep m.ring b) :
    content { m with ring := b } = m.content.drop (b.consumed - m.ring.consumed) := by
  have hc := h.consumed
  refine List.ext_getElem? fun i => ?_
  rw [List.getElem?_drop]
  rcases Nat.lt_or_ge i (b.written - b.consumed) with hi | hi
  · have hidx : m.ring.consumed + (b.consumed - m.ring.consumed + i) = b.consumed + i := by omega
    have hw := h.written
    rw [getElem?_content _ hi, getElem?_content m (by omega), hidx, h.capacity]
  · rw [List.getElem?_eq_none (by rw [length_content]; exact hi),
      List.getElem?_eq_none (by rw [length_content, ← h.written]; omega)]

namespace Ok

variable {m : ByteBuffer} (h : m.Ok)
include h

omit h in
theorem of_ring (h : m.Ok) {b : Ringbuf} (hb : Ringbuf.RingInv b)
    (hc : b.capacity = m.ring.capacity) : Ok { m with ring := b } :=
  ⟨hb, hc.trans h.slots, h.elems, by simpa [hc] using h.inside, by simpa [hc] using h.word⟩

omit h in
theorem of_data (h : m.Ok) {data : Bytes} (hd : data.length = m.data.length) :
    Ok { m with data := data } :=
  ⟨h.ring, h.slots, h.elems, by simpa [hd] using h.inside, h.word⟩

/-- The slots of a turn are different. -/
theorem unread_ne_head {i : ℕ} (hi : i < m.ring.written - m.ring.consumed) :
    (m.ring.consumed + i) % m.ring.capacity ≠ m.ring.head := by
  have hlt := h.ring.written_lt
  rw [h.ring.base.head]
  exact (mod_ne_mod (by omega) (by omega)).symm

theorem slot_inside {off : ℕ} (hoff : off < m.ring.capacity) :
    off * m.elemSize + m.elemSize ≤ m.data.length := by
  have h1 : (off + 1) * m.elemSize ≤ m.ring.capacity * m.elemSize := Nat.mul_le_mul_right _ hoff
  have h2 := h.inside
  rw [Nat.succ_mul] at h1
  omega

theorem slot_word {off : ℕ} (hoff : off < m.ring.capacity) :
    off * m.elemSize % 2 ^ 64 = off * m.elemSize := by
  have h1 : off * m.elemSize ≤ m.ring.capacity * m.elemSize := Nat.mul_le_mul_right _ hoff.le
  have h2 := h.word
  exact Nat.mod_eq_of_lt (by omega)

/-- A copy into the slot at `head` leaves the content alone. -/
theorem content_overwrite {s : Bytes} (hs : s.length ≤ m.elemSize) :
    content { m with data := overwrite m.data (m.ring.head * m.elemSize) s } = m.content := by
  have hin := h.slot_inside h.ring.head_lt
  have hlen : m.ring.head * m.elemSize + s.length ≤ m.data.length := by omega
  refine List.map_congr_left fun i hi => ?_
  exact block_overwrite_ne (h.unread_ne_head (List.mem_range.mp hi)) hs hlen

/-- A pop gives the oldest item. -/
theorem pop_head : (pop.run m).1 = m.content[0]? := by
  obtain ⟨-, -, hoff, -, -, hzero⟩ := readOff_alone h.ring
  have hlt : m.ring.consumed % m.ring.capacity < m.ring.capacity := Nat.mod_lt _ h.ring.base.pos
  rw [run_pop, hoff, h.slot_word hlt]
  by_cases h0 : (Ringbuf.readOffNowrap.run m.ring).1.2 = 0
  · have := hzero.mp h0
    rw [if_pos h0, List.getElem?_eq_none (by rw [length_content]; omega)]
  · have : ¬ m.ring.written ≤ m.ring.consumed := fun hle => h0 (hzero.mpr hle)
    rw [if_neg h0, getElem?_content m (by omega)]
    rfl

end Ok

/-! ### The writer's own fields

A pop neither reads nor writes them, so it does not matter for the pops whether `start_push` has
run. -/

/-- The ring with other values in the writer's own fields. -/
def withWriter (b w : Ringbuf) : Ringbuf :=
  { b with seenTail := w.seenTail, wipHead := w.wipHead, wipN := w.wipN, atTail := w.atTail }

theorem readOff_withWriter (b w : Ringbuf) : Ringbuf.readOffNowrap.run (withWriter b w) =
    ((Ringbuf.readOffNowrap.run b).1, withWriter (Ringbuf.readOffNowrap.run b).2 w) := by
  simp only [Ringbuf.readOffNowrap, Ringbuf.readNum, Ringbuf.beginRead, Ringbuf.refreshHeadIf,
    Prog.run_bind, Prog.run_access, Prog.run_load, Prog.run_ofChk, Prog.pure_eq_ret, Prog.run_ret,
    withWriter]
  split <;> simp [Ringbuf.refreshHead, Ringbuf.loadHeadR]

theorem consume_withWriter (n : ℕ) (b w : Ringbuf) : (Ringbuf.consume n).run (withWriter b w) =
    (((Ringbuf.consume n).run b).1, withWriter ((Ringbuf.consume n).run b).2 w) := by
  simp [Ringbuf.consume, withWriter]

theorem writeFinish_withWriter (n : ℕ) (b w : Ringbuf) :
    ((Ringbuf.writeFinish n).run (withWriter b w)).2 =
      withWriter ((Ringbuf.writeFinish n).run b).2 w := by
  simp [Ringbuf.writeFinish, withWriter]

theorem popRing_withWriter (b w : Ringbuf) :
    popRing (withWriter b w) = withWriter (popRing b) w := by
  simp only [popRing, readOff_withWriter, consume_withWriter]
  split <;> rfl

theorem popRing_iterate_withWriter (k : ℕ) (b w : Ringbuf) :
    popRing^[k] (withWriter b w) = withWriter (popRing^[k] b) w := by
  induction k generalizing b with
  | zero => rfl
  | succ k ih => rw [Function.iterate_succ_apply, Function.iterate_succ_apply,
      popRing_withWriter, ih]

/-- A writer's call that writes no item changes nothing else. -/
theorem eq_withWriter {b b' : Ringbuf} (h : Ringbuf.WriterStep b b') (hh : b'.head = b.head)
    (hw : b'.written = b.written) : b' = withWriter b b' := by
  obtain ⟨c, t, sh, st, hd, wh, wn, w, co, at', ah⟩ := b'
  obtain ⟨h1, h2, h3, h4, h5, -⟩ := h
  simp only at h1 h2 h3 h4 h5 hh hw
  simp only [withWriter, h1, h2, h3, h4, h5, hh, hw]

/-! ### Between `start_push` and `finish_push` -/

/-- What `start_push` leaves: the slot at `head` was offered, and nothing the reader sees has
    changed. -/
structure Started (m : ByteBuffer) (p : ℕ) (m₁ : ByteBuffer) : Prop where
  eq : m₁ = { m with ring := withWriter m.ring m₁.ring }
  ptr : p = m.ring.head * m.elemSize
  offered : ∃ n, 0 < n ∧ Ringbuf.Offered m₁.ring.head n m₁.ring
  ok : m₁.Ok

theorem Ok.started {m m₁ : ByteBuffer} {p : ℕ} (h : m.Ok)
    (hs : startPush.run m = (some p, m₁)) : Started m p m₁ := by
  obtain ⟨hi, hstep, ho, hw, -⟩ := writeOff_alone h.ring
  rw [run_startPush] at hs
  obtain ⟨hptr, rfl⟩ := Prod.ext_iff.mp hs
  have hhead : (Ringbuf.writeOffNowrap.run m.ring).2.head = m.ring.head := by
    rw [hi.base.head, h.ring.base.head, hw, hstep.capacity]
  by_cases h0 : (Ringbuf.writeOffNowrap.run m.ring).1.2 = 0
  · simp [h0] at hptr
  · simp only [h0, if_false, Option.some.injEq] at hptr
    rw [ho.off, hhead, h.slot_word h.ring.head_lt] at hptr
    refine ⟨?_, hptr.symm, ⟨_, Nat.pos_of_ne_zero h0, ho.off ▸ ho⟩, h.of_ring hi hstep.capacity⟩
    simp only
    rw [← eq_withWriter hstep hhead hw]

/-- At a moment between the two calls, with `k` pops so far: only bytes of the slot at `p` have
    changed, no slot the reader can be given overlaps it, and the pops gave what was there before,
    from the front. -/
structure Between (m : ByteBuffer) (p k : ℕ) (w : Writing) : Prop where
  frame : ∀ i, i < p ∨ p + m.elemSize ≤ i → w.mem.data[i]? = m.data[i]?
  apart : ∀ i < w.mem.ring.written - w.mem.ring.consumed,
    let q := (w.mem.ring.consumed + i) % w.mem.ring.capacity * m.elemSize
    p + m.elemSize ≤ q ∨ q + m.elemSize ≤ p
  content : w.mem.content = m.content.drop k
  popped : w.popped = (List.range k).map (m.content[·]?)

/-- Pops alone take items from the front. -/
theorem Ok.content_pops {m : ByteBuffer} (h : m.Ok) (k : ℕ) :
    Ok { m with ring := popRing^[k] m.ring } ∧
      content { m with ring := popRing^[k] m.ring } = m.content.drop k := by
  obtain ⟨hi, hstep, hc⟩ := popRing_iterate h.ring k
  refine ⟨h.of_ring hi hstep.capacity, ?_⟩
  have hle := h.ring.consumed_le
  have hlen := length_content m
  rw [content_of_readerStep hstep, hc]
  rcases Nat.lt_or_ge m.ring.written (m.ring.consumed + k) with hk | hk
  · rw [List.drop_of_length_le (by omega), List.drop_of_length_le (by omega)]
  · congr 1
    omega

theorem Started.content_eq {m m₁ : ByteBuffer} {p : ℕ} (h : Started m p m₁) :
    m₁.content = m.content := by
  rw [h.eq]
  rfl

/-- The buffer when `acts` lie behind: the pops have moved the ring, the chunks lie in the slot. -/
structure Behind (m : ByteBuffer) (p k : ℕ) (s : Bytes) (m' : ByteBuffer) : Prop where
  ok : m'.Ok
  data : m'.data = overwrite m.data p s
  room : p + m.elemSize ≤ m.data.length
  elemSize : m'.elemSize = m.elemSize
  ptr : p = m'.ring.head * m.elemSize
  content : m'.content = m.content.drop k
  offered : ∃ n, 0 < n ∧ Ringbuf.Offered m'.ring.head n m'.ring

theorem Started.behind {m m₁ : ByteBuffer} {p : ℕ} (h : Started m p m₁) {acts : List Piece}
    (hlen : (chunks acts).length ≤ m.elemSize) :
    Behind m p (pops acts) (chunks acts) (Writing.pieces ⟨m₁, p, []⟩ acts).mem := by
  have hdata : m₁.data = m.data := by rw [h.eq]
  have hsize : m₁.elemSize = m.elemSize := by rw [h.eq]
  have hhead : m₁.ring.head = m.ring.head := by rw [h.eq]; rfl
  obtain ⟨hok, hcontent⟩ := h.ok.content_pops (pops acts)
  have hstep := (popRing_iterate h.ok.ring (pops acts)).2.1
  have hkept : (popRing^[pops acts] m₁.ring).head = m.ring.head := hstep.head.trans hhead
  have hin := h.ok.slot_inside h.ok.ring.head_lt
  rw [hhead, hsize, ← h.ptr] at hin
  have hroom : p + (chunks acts).length ≤ m₁.data.length := by omega
  have hslot : (popRing^[pops acts] m₁.ring).head * m₁.elemSize = p := by
    rw [hkept, hsize, h.ptr]
  have hover := hok.content_overwrite (s := chunks acts) (by simpa [hsize] using hlen)
  simp only [hslot] at hover
  rw [(pieces_eq (w := ⟨m₁, p, []⟩) hroom).1]
  refine ⟨hok.of_data (length_overwrite hroom), by simp only [hdata], hdata ▸ hin, hsize, ?_, ?_,
    ?_⟩
  · simp only [hkept]
    exact h.ptr
  · exact hover.trans (hcontent.trans (by rw [h.content_eq]))
  · obtain ⟨n, hn, ho⟩ := h.offered
    have ho' := ho.stable hstep
    rw [← hstep.head] at ho'
    exact ⟨n, hn, ho'⟩

theorem Started.popped {m m₁ : ByteBuffer} {p : ℕ} (h : Started m p m₁) {acts : List Piece}
    (hlen : (chunks acts).length ≤ m.elemSize) :
    (Writing.pieces ⟨m₁, p, []⟩ acts).popped = (List.range (pops acts)).map (m.content[·]?) := by
  induction acts using List.reverseRecOn with
  | nil => rfl
  | append_singleton acts a ih =>
    rw [chunks_append, List.length_append] at hlen
    have hbehind := h.behind (show (chunks acts).length ≤ m.elemSize by omega)
    have hpopped := ih (by omega)
    rw [pieces_append, pops_append]
    cases a with
    | chunk c => simpa [Writing.pieces, Writing.piece, pops] using hpopped
    | pop =>
      have hpop := hbehind.ok.pop_head
      rw [hbehind.content, List.getElem?_drop, Nat.add_zero] at hpop
      simp only [pops, Nat.zero_add, List.range_succ, List.map_append, List.map_cons, List.map_nil]
      rw [← hpopped, ← hpop]
      rfl

/-- What the pieces have done, when `acts` lie behind. -/
theorem Started.between {m m₁ : ByteBuffer} {p : ℕ} (h : Started m p m₁) (hm : m.Ok)
    {acts : List Piece} (hlen : (chunks acts).length ≤ m.elemSize) :
    Between m p (pops acts) (Writing.pieces ⟨m₁, p, []⟩ acts) := by
  have hb := h.behind hlen
  have hin := hm.slot_inside hm.ring.head_lt
  rw [← h.ptr] at hin
  refine ⟨fun i hi => ?_, fun i hi => ?_, hb.content, h.popped hlen⟩
  · rw [hb.data, getElem?_overwrite (by omega), if_neg (by omega)]
  · have hptr := hb.ptr
    dsimp only
    rcases Nat.lt_or_gt_of_ne (hb.ok.unread_ne_head hi) with hlt | hlt
    · have hslot := Nat.mul_le_mul_right m.elemSize hlt
      rw [Nat.succ_mul] at hslot
      omega
    · have hslot := Nat.mul_le_mul_right m.elemSize hlt
      rw [Nat.succ_mul] at hslot
      omega

/-! ### The whole push -/

/-- The buffer after a pop. -/
def popMem (m : ByteBuffer) : ByteBuffer := (pop.run m).2

theorem popMem_iterate (k : ℕ) (m : ByteBuffer) :
    popMem^[k] m = { m with ring := popRing^[k] m.ring } := by
  induction k generalizing m with
  | zero => rfl
  | succ k ih => rw [Function.iterate_succ_apply, Function.iterate_succ_apply, ih, popMem, run_pop]

/-- `finish_push` adds the slot at `head` to the content. -/
theorem Behind.finish {m m' : ByteBuffer} {p k : ℕ} {s : Bytes} (h : Behind m p k s m')
    (hs : s.length ≤ m.elemSize) :
    ∃ x, (finishPush.run m').2.content = m.content.drop k ++ [x] ∧ s <+: x := by
  obtain ⟨n, hn, ho⟩ := h.offered
  obtain ⟨-, hstep, hw⟩ := writeFinish_alone h.ok.ring ho hn
  have hle := h.ok.ring.consumed_le
  have hroom := h.room
  refine ⟨block m'.elemSize m'.data m'.ring.head, ?_, ?_⟩
  · have hlen : m'.ring.written + 1 - m'.ring.consumed =
        m'.ring.written - m'.ring.consumed + 1 := by omega
    have hidx : m'.ring.consumed + (m'.ring.written - m'.ring.consumed) = m'.ring.written := by
      omega
    rw [← h.content, run_finishPush]
    simp only [ByteBuffer.content, hw, hstep.consumed, hstep.capacity, hlen, List.range_succ,
      List.map_append, List.map_cons, List.map_nil, hidx, h.ok.ring.base.head]
  · have hptr := h.ptr
    rw [hptr] at hroom
    rw [h.elemSize, h.data, hptr]
    exact prefix_block_overwrite hs (by omega)

/-- The sequence of calls is one push of all the bytes. -/
structure InPieces (m : ByteBuffer) (acts : List Piece) : Prop where
  /-- `start_push` returns `NULL` exactly when `push` would return false -/
  null : (startPush.run m).1 = none ↔ ((push (chunks acts)).run m).1 = false
  /-- at every moment before `finish_push` -/
  between : ∀ p m₁, startPush.run m = (some p, m₁) → ∀ done rest, acts = done ++ rest →
    Between m p (pops done) (Writing.pieces ⟨m₁, p, []⟩ done)
  /-- the buffer in the end is that of one push, with the pops between its `start_push` and its
      copy -/
  onePush : ∀ p m₁, startPush.run m = (some p, m₁) →
    (finishPush.run (Writing.pieces ⟨m₁, p, []⟩ acts).mem).2 =
      (finishPush.run ((copyTo p (chunks acts)).run (popMem^[pops acts] m₁)).2).2
  /-- with the pops before the push, it is the same up to the writer's own fields of the ring -/
  afterPops : ∀ p m₁, startPush.run m = (some p, m₁) →
    let m' := (finishPush.run (Writing.pieces ⟨m₁, p, []⟩ acts).mem).2
    let r := (push (chunks acts)).run (popMem^[pops acts] m)
    r.1 = true ∧ r.2 = { m' with ring := withWriter m'.ring r.2.ring }
  /-- without pops, it is the same -/
  alone : pops acts = 0 → ∀ p m₁, startPush.run m = (some p, m₁) →
    (finishPush.run (Writing.pieces ⟨m₁, p, []⟩ acts).mem).2 = ((push (chunks acts)).run m).2
  /-- one element is added, and it begins with the bytes of the chunks -/
  added : ∀ p m₁, startPush.run m = (some p, m₁) →
    ∃ x, (finishPush.run (Writing.pieces ⟨m₁, p, []⟩ acts).mem).2.content =
      m.content.drop (pops acts) ++ [x] ∧ chunks acts <+: x

theorem null_iff (m : ByteBuffer) (s : Bytes) :
    (startPush.run m).1 = none ↔ ((push s).run m).1 = false := by
  rw [run_push]
  cases h : (startPush.run m).1 <;> simp

theorem Started.onePush {m m₁ : ByteBuffer} {p : ℕ} (h : Started m p m₁) {acts : List Piece}
    (hlen : (chunks acts).length ≤ m.elemSize) (hm : m.Ok) :
    (Writing.pieces ⟨m₁, p, []⟩ acts).mem =
      ((copyTo p (chunks acts)).run (popMem^[pops acts] m₁)).2 := by
  have hin := hm.slot_inside hm.ring.head_lt
  have hdata : m₁.data = m.data := by rw [h.eq]
  rw [← h.ptr, ← hdata] at hin
  have hroom : p + (chunks acts).length ≤ m₁.data.length := by omega
  rw [(pieces_eq (w := ⟨m₁, p, []⟩) hroom).1, popMem_iterate]
  rfl

/-- After the pops there is still room, at the same slot. -/
theorem Started.again {m m₁ : ByteBuffer} {p : ℕ} (h : Started m p m₁) (hm : m.Ok) (k : ℕ) :
    ∃ m₂, startPush.run (popMem^[k] m) = (some p, m₂) := by
  have hok := (hm.content_pops k).1
  rw [← popMem_iterate] at hok
  obtain ⟨-, hstep, hc⟩ := popRing_iterate hm.ring k
  have hring : (popMem^[k] m).ring = popRing^[k] m.ring := by rw [popMem_iterate]
  cases hs : startPush.run (popMem^[k] m) with
  | mk o m₂ =>
    cases o with
    | some q =>
      have hq := (hok.started hs).ptr
      have hsize : (popMem^[k] m).elemSize = m.elemSize := by rw [popMem_iterate]
      rw [hring, hstep.head, hsize, ← h.ptr] at hq
      exact ⟨m₂, by rw [hq]⟩
    | none =>
      exfalso
      obtain ⟨n, hn, ho⟩ := h.offered
      have hfree := ho.room.le_free h.ok.ring
      rw [h.eq] at hfree
      simp only [withWriter] at hfree
      have h0 : (Ringbuf.writeOffNowrap.run (popMem^[k] m).ring).1.2 = 0 := by
        by_contra hne
        rw [run_startPush, if_neg hne] at hs
        cases hs
      have hfull := (writeOff_alone hok.ring).2.2.2.2 h0
      have hle := hm.ring.consumed_le
      have hstay := hstep.consumed
      rw [hring, hstep.capacity, hstep.written] at hfull
      omega

theorem Started.afterPops {m m₁ : ByteBuffer} {p : ℕ} (h : Started m p m₁) (hm : m.Ok)
    {acts : List Piece} (hlen : (chunks acts).length ≤ m.elemSize) :
    let m' := (finishPush.run (Writing.pieces ⟨m₁, p, []⟩ acts).mem).2
    let r := (push (chunks acts)).run (popMem^[pops acts] m)
    r.1 = true ∧ r.2 = { m' with ring := withWriter m'.ring r.2.ring } := by
  obtain ⟨m₂, hs⟩ := h.again hm (pops acts)
  have hok := (hm.content_pops (pops acts)).1
  rw [← popMem_iterate] at hok
  have h₂ := (hok.started hs).eq
  rw [popMem_iterate] at h₂
  have h₁ := h.eq
  rw [h.onePush hlen hm, run_push, hs, popMem_iterate]
  refine ⟨rfl, ?_⟩
  simp only [run_finishPush, copyTo, Prog.run_store]
  rw [h₂, h₁]
  simp only [popRing_iterate_withWriter, writeFinish_withWriter]
  rfl

/-- A partial push is one push in pieces. -/
theorem inPieces {m : ByteBuffer} (hm : m.Ok) {acts : List Piece}
    (hlen : (chunks acts).length ≤ m.elemSize) : InPieces m acts := by
  have hone : ∀ p m₁, startPush.run m = (some p, m₁) →
      (Writing.pieces ⟨m₁, p, []⟩ acts).mem =
        ((copyTo p (chunks acts)).run (popMem^[pops acts] m₁)).2 :=
    fun p m₁ hs => (hm.started hs).onePush hlen hm
  refine ⟨null_iff m _, ?_, ?_, ?_, ?_, ?_⟩
  · rintro p m₁ hs done rest rfl
    rw [chunks_append, List.length_append] at hlen
    exact (hm.started hs).between hm (by omega)
  · intro p m₁ hs
    rw [hone p m₁ hs]
  · exact fun p m₁ hs => (hm.started hs).afterPops hm hlen
  · intro h0 p m₁ hs
    rw [hone p m₁ hs, h0, run_push, hs]
    rfl
  · exact fun p m₁ hs => ((hm.started hs).behind hlen).finish hlen

/-- A new buffer for two elements of four bytes. -/
def fresh : ByteBuffer := ⟨(Ringbuf.init 3).val, 2, 4, false, List.replicate 12 0⟩

/-- A byte, a pop in between, and two more bytes. -/
theorem inPieces_three :
    (startPush.run fresh).1 = some 0 ∧ InPieces fresh [.chunk [1], .pop, .chunk [2, 3]] := by
  obtain ⟨hring, hc⟩ := Ringbuf.init_inv (c := 3) (by decide)
  have hok : fresh.Ok := ⟨hring, hc, by decide, by simp [fresh, hc], by simp [fresh, hc]⟩
  exact ⟨by decide +kernel, inPieces hok (by decide)⟩

end ByteBuffer

end Vamos
