import Mathlib.Tactic
import VamosBuffers.Core.ParQueue
import VamosBuffers.Schemes.RelyGuarantee

/-! `src/shmbuf/buffer-aux.c` and the string part of `src/shmbuf/buffer.c`: strings do not fit into
    events, so an event carries a handle and the bytes lie in an auxiliary buffer, a file of its own
    under `/dev/shm`.

        handle  =  idx << 32 | off            "/aux.<idx>" :  | header | ... bytes at off ... |

    The writer fills its current buffer; when the next string does not fit, it looks through its
    buffers, oldest first, for one whose events are all processed or dropped, empties it and moves
    it to the end of the list, or else creates a new one. What is processed it reads from
    `last_processed_id`, what is dropped from a table of five ranges; both are written by the
    reader's side at any time. -/

namespace Vamos
open Schemes

/-! ### What the reader's side reports -/

/-- `struct dropped_range`. -/
structure DroppedRange where
  first : ℕ
  last : ℕ
  deriving DecidableEq, Repr

/-- The fields of `vms_shm_buffer_info` that decide what may be reused. -/
structure ShmInfo where
  lastProcessedId : ℕ
  droppedRanges : List DroppedRange
  droppedRangesNext : ℕ
  deriving DecidableEq, Repr

namespace ShmInfo

/-- `DROPPED_RANGES_NUM`. -/
def droppedRangesNum : ℕ := 5

/-- As `_vms_shm_buffer_initialize` leaves them. -/
def fresh : ShmInfo := ⟨0, List.replicate droppedRangesNum ⟨0, 0⟩, 0⟩

/-- `vms_shm_buffer_notify_dropped`: extend the latest range if it begins there or is empty, else
    take the next place in the table. -/
def notifyDropped (info : ShmInfo) (beginId endId : ℕ) : ShmInfo :=
  let idx := info.droppedRangesNext
  let r := info.droppedRanges.getD idx ⟨0, 0⟩
  if r.first = beginId ∨ r.last = (r.first + (2 ^ 64 - 1)) % 2 ^ 64 then
    { info with droppedRanges := info.droppedRanges.set idx { r with last := endId } }
  else
    let next := if idx + 1 = droppedRangesNum then 0 else idx + 1
    { info with droppedRanges := info.droppedRanges.set next ⟨beginId, endId⟩,
                droppedRangesNext := next }

end ShmInfo

/-! ### Auxiliary buffers -/

/-- `struct aux_buffer`; `data` is what follows the header in the file. -/
structure AuxBuffer where
  size : ℕ
  head : ℕ
  idx : ℕ
  firstEventId : ℕ
  lastEventId : ℕ
  reusable : Bool
  data : Bytes
  deriving DecidableEq, Repr, Inhabited

/-- A page size that `sysconf` can report. -/
structure PageSize where
  bytes : ℕ
  pos : 0 < bytes
  le : bytes ≤ 2 ^ 30

namespace AuxBuffer

/-- `sizeof(struct aux_buffer)`. -/
def headerSize : ℕ := 48

/-- `~(0LL)`, the last id of a buffer without strings. -/
def noId : ℕ := 2 ^ 64 - 1

/-- The size of the file for a string of `size` bytes. -/
def fileSize (pg : PageSize) (size : ℕ) : ℕ :=
  ((size + headerSize) % 2 ^ 64 / pg.bytes + 2) * pg.bytes % 2 ^ 64

/-- `ftruncate`: cut the file off or extend it by zeros. -/
def truncate (data : Bytes) (size : ℕ) : Bytes :=
  data.take size ++ List.replicate (size - data.length) 0

/-- `memcpy(ab->data + off, s, len)`. -/
def memcpy (data : Bytes) (off : ℕ) (s : Bytes) : Bytes :=
  data.take off ++ s ++ data.drop (off + s.length)

/-- The header that `new_aux_buffer` writes over what the file held. -/
def create (pg : PageSize) (size idx : ℕ) (old : Bytes) : AuxBuffer :=
  let n := fileSize pg size - headerSize
  ⟨n, 0, idx, 0, noId, false, truncate old n⟩

/-- Emptied for reuse. -/
def reset (ab : AuxBuffer) : AuxBuffer :=
  { ab with reusable := true, head := 0, firstEventId := 0, lastEventId := noId }

/-- The string copied to `off`, and the head moved by its length. -/
def append (ab : AuxBuffer) (off : ℕ) (s : Bytes) : AuxBuffer :=
  { ab with data := memcpy ab.data off s, head := (ab.head + s.length) % 2 ^ 64 }

/-- The ids that the buffer holds strings of. -/
def noteId (ab : AuxBuffer) (evid : ℕ) : AuxBuffer :=
  { ab with firstEventId := if ab.firstEventId = 0 then evid else ab.firstEventId,
            lastEventId := evid }

/-- The loop of `ab_was_dropped`. -/
def wasDropped (ab : AuxBuffer) (ranges : List DroppedRange) : Bool :=
  ranges.any fun r =>
    decide (r.last ≠ 0) && decide (r.first ≤ ab.firstEventId) && decide (ab.lastEventId ≤ r.last)

end AuxBuffer

/-- A string that was pushed, as the auxiliary record keeps it. -/
structure Given where
  idx : ℕ
  off : ℕ
  evid : ℕ
  bytes : Bytes
  deriving DecidableEq, Repr

/-- The part of a `vms_shm_buffer` that strings need: the shared fields, the writer's list of
    buffers by age, its current buffer and its counter of buffers; and what was pushed and reported
    so far. -/
structure StringBuffer where
  info : ShmInfo
  age : List ℕ
  cur : Option ℕ
  auxBufIdx : ℕ
  given : List Given
  reported : List DroppedRange
  /-- the largest id of a string so far -/
  lastEvid : ℕ

/-- As it is when it has been created. -/
def StringBuffer.fresh : StringBuffer := ⟨.fresh, [], none, 0, [], [], 0⟩

/-- A buffer and the files `/dev/shm/aux.<idx>`. -/
structure StringMem where
  files : ℕ → Option AuxBuffer
  buff : StringBuffer

namespace StringMem

/-- The memory of the file that the writer's pointer to buffer `k` maps. -/
def file (m : StringMem) (k : ℕ) : AuxBuffer := (m.files k).getD default

/-- The memory of file `k` changed. -/
def setFile (m : StringMem) (k : ℕ) (ab : AuxBuffer) : StringMem :=
  { m with files := Function.update m.files k (some ab) }

/-- `vms_list_last(&buff->aux_buffers_age)->data == buff->cur_aux_buff`. -/
def curIsLast (m : StringMem) : Bool := decide (m.buff.age.getLast? = m.buff.cur)

end StringMem

/-- The accesses of the writer and of the reader's side. -/
inductive AuxAcc where
  | writer | lastProcessedId | droppedRanges
  | reset | reuse | create | offset | copy (k len : ℕ) | ids
  | setLastProcessedId | notifyDropped | read
  deriving DecidableEq, Repr

abbrev StringProg (α : Type) : Type := Prog StringMem AuxAcc α

namespace StringMem

/-! ### Writer -/

/-- `assert(vms_list_last(&buff->aux_buffers_age)->data == buff->cur_aux_buff)`. -/
def checkCur : StringProg Unit := do
  let ok ← Prog.access .writer curIsLast id
  Prog.ofChk (Chk.require (ok = true))

/-- `new_aux_buffer`: whatever file has the name is opened, resized and given a fresh header. -/
def newAuxBuffer (pg : PageSize) (size : ℕ) : StringProg ℕ :=
  Prog.access .create (·.buff.auxBufIdx) fun m =>
    let idx := m.buff.auxBufIdx
    let m := m.setFile idx (AuxBuffer.create pg size idx (m.file idx).data)
    { m with buff := { m.buff with auxBufIdx := idx + 1, age := m.buff.age ++ [idx],
                                   cur := some idx } }

/-- `ab->last_event_id <= last_processed_id || ab_was_dropped(ab, buff)`, the second only if the
    first is false. The scan of the table is one step: no report comes between its loads, which
    `drop_ranges_lock` is meant to see to, and does not. -/
def isFree (k : ℕ) : StringProg Bool := do
  let processed ← Prog.access .lastProcessedId
    (fun m => decide ((m.file k).lastEventId ≤ m.buff.info.lastProcessedId)) id
  if processed then pure true
  else Prog.access .droppedRanges (fun m => (m.file k).wasDropped m.buff.info.droppedRanges) id

/-- The buffer emptied, if it is free. -/
def resetIf (free : Bool) (k : ℕ) : StringProg Unit :=
  if free then Prog.access .reset (fun _ => ()) fun m => m.setFile k (m.file k).reset
  else pure ()

/-- The buffer moved to the end of the list and made the current one. -/
def reuse (k : ℕ) : StringProg Unit :=
  Prog.access .reuse (fun _ => ()) fun m =>
    let m := m.setFile k { m.file k with reusable := false }
    { m with buff := { m.buff with age := m.buff.age.erase k ++ [k], cur := some k } }

/-- The search of `writer_get_aux_buffer` through the list, oldest first. -/
def scan (pg : PageSize) (size : ℕ) : List ℕ → StringProg ℕ
  | [] => newAuxBuffer pg size
  | k :: rest => do
    let free ← isFree k
    resetIf free k
    let fits ← Prog.access .writer
      (fun m => (m.file k).reusable && decide (size ≤ (m.file k).size)) id
    if fits then do
      checkCur
      reuse k
      pure k
    else scan pg size rest

/-- Look for a free buffer. -/
def search (pg : PageSize) (size : ℕ) : StringProg ℕ := do
  let age ← Prog.access .writer (·.buff.age) id
  scan pg size age

/-- `writer_get_aux_buffer`. -/
def writerGetAuxBuffer (pg : PageSize) (size : ℕ) : StringProg ℕ := do
  let cur ← Prog.access .writer (fun m => m.buff.cur.map fun k => (k, m.file k)) id
  match cur with
  | none => search pg size
  | some (k, ab) => do
    let free ← Prog.ofChk (Chk.sub ab.size ab.head)
    if free < size then search pg size
    else do
      checkCur
      pure k

/-- `off | (idx << 32)`. -/
def handle (off idx : ℕ) : ℕ := off ||| (idx <<< 32) % 2 ^ 64

/-- `buffer_push_strn`: the handle of the string. -/
def bufferPushStrn (pg : PageSize) (evid : ℕ) (s : Bytes) : StringProg ℕ := do
  let k ← writerGetAuxBuffer pg s.length
  let cur ← Prog.access .writer (·.buff.cur) id
  Prog.ofChk (Chk.require (cur = some k))
  checkCur
  let off ← Prog.access .offset (fun m => (m.file k).head) id
  Prog.ofChk (Chk.require (off < 2 ^ 32))
  Prog.access (.copy k s.length) (fun _ => ()) fun m => m.setFile k ((m.file k).append off s)
  let idx ← Prog.access .ids (fun m => (m.file k).idx) fun m =>
    let m := m.setFile k ((m.file k).noteId evid)
    { m with buff := { m.buff with given := m.buff.given ++ [⟨k, off, evid, s⟩],
                                   lastEvid := max m.buff.lastEvid evid } }
  pure (handle off idx)

/-- `buffer_push_str`: the string with its terminator. The index is put into the handle twice. -/
def bufferPushStr (pg : PageSize) (evid : ℕ) (str : Bytes) : StringProg ℕ := do
  let off ← bufferPushStrn pg evid (str ++ [0])
  let idx ← Prog.access .writer (fun m => (m.buff.cur.map fun k => (m.file k).idx).getD 0) id
  pure (handle off idx)

/-! ### The reader's side -/

/-- `vms_shm_buffer_set_last_processed_id`, with its assertion "The IDs are not monotonic". -/
def setLastProcessedId (id : ℕ) : StringProg Unit := do
  let last ← Prog.access .lastProcessedId (·.buff.info.lastProcessedId) fun m => m
  Prog.ofChk (Chk.require (last ≤ id))
  Prog.access .setLastProcessedId (fun _ => ()) fun m =>
    { m with buff := { m.buff with info := { m.buff.info with lastProcessedId := id } } }

/-- `vms_shm_buffer_notify_dropped`. -/
def notifyDropped (beginId endId : ℕ) : StringProg Unit :=
  Prog.access .notifyDropped (fun _ => ()) fun m =>
    { m with buff := { m.buff with info := m.buff.info.notifyDropped beginId endId,
                                   reported := ⟨beginId, endId⟩ :: m.buff.reported } }

end StringMem

/-- What a reader keeps: the buffer it used last and the buffers it has mapped. -/
structure StringReader where
  cur : Option ℕ
  auxBuffers : List ℕ
  deriving DecidableEq, Repr

namespace StringReader

variable (files : ℕ → Option AuxBuffer)

/-- `ab->idx == idx` for a mapped buffer. -/
def hasIdx (idx k : ℕ) : Bool := ((files k).map (·.idx)) == some idx

/-- `reader_get_aux_buffer`: the buffer and the reader afterwards; nothing when the file is missing
    (`abort`). -/
def getAuxBuffer (r : StringReader) (idx : ℕ) : Option (ℕ × StringReader) :=
  match r.cur.filter (hasIdx files idx) with
  | some k => some (k, r)
  | none =>
    match r.auxBuffers.find? (hasIdx files idx) with
    | some k => some (k, { r with cur := some k })
    | none =>
      if (files idx).isSome then some (idx, ⟨some idx, r.auxBuffers ++ [idx]⟩)
      else none

/-- `vms_shm_buffer_read_str`: the memory from the string on. -/
def readStr (r : StringReader) (elem : ℕ) : Option (Bytes × StringReader) := do
  let (k, r') ← r.getAuxBuffer files (elem >>> 32)
  let ab ← files k
  pure (ab.data.drop (elem &&& 0xffffffff), r')

end StringReader

end Vamos
