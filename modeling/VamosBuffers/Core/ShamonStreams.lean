import Mathlib.Tactic
import VamosBuffers.Core.Source
import VamosBuffers.Schemes.Loop

/-! The streams of a `shamon`: `src/core/shamon.c` and the substreams of `src/core/stream.c`. A source
    may announce sub-buffers at any time; `shamon_get_next_ev` goes over the streams and takes one new
    sub-buffer of each, so the streams form a forest.

        "s"  ──▶ "s.sub.1" ──▶ "s.sub.1.sub.1"        streams = [s, t, s.sub.1, ...]
         └────▶ "s.sub.2"                             a parent stands before its substreams

    Streams are objects of a heap, and a step of a run is one turn of the loop: the sources may create
    buffers and announce them between any two turns, in any order and of any number. A key is given
    to one buffer only. The streams are generic ones: what their callbacks read is the stream itself
    and its SHM buffer.

    The arbiter buffers lie in an aligned vector, which does not survive its moves:

        buffers   │ lost │ … │ lost │ 10 · k │ … │ n - 1 │

    A manager goes on with the buffer that it was given; of it the model has whether it has exited. -/

namespace Vamos
open Schemes

/-- What the two sides share of a buffer, under its key. -/
structure SharedBuffer where
  elemSize : ℕ
  subbuffersNo : ℕ
  destroyed : Bool
  readerIsReady : Bool
  deriving DecidableEq, Repr

/-- `vms_stream`; `key` is the key of its `incoming_events_buffer`, and streams are known by their
    addresses. -/
structure Stream where
  name : Text
  key : Text
  eventSize : ℕ
  holeEventSize : ℕ
  substreamsNo : ℕ
  parentStream : Option ℕ
  substreams : List ℕ
  deriving DecidableEq, Repr

/-- One substream more. -/
def Stream.adopt (s : Stream) (q : ℕ) : Stream :=
  { s with substreamsNo := s.substreamsNo + 1, substreams := s.substreams ++ [q] }

/-- Why a call does not return. -/
inductive Stop where
  | abort
  | null
  /-- the stream at `p` is read, and has been freed -/
  | freed (p : ℕ)
  /-- the arbiter buffer `i` is read, and its bytes have not been copied -/
  | lost (i : ℕ)
  /-- `thrd_join` of a manager that has not exited -/
  | waits
  | deep
  deriving DecidableEq, Repr

/-- `vms_arbiter_buffer`: the size of its elements, and how many it can hold. -/
structure ArbiterBuffer where
  elemSize : ℕ
  capacity : ℕ
  deriving DecidableEq, Repr

/-- `struct shamon`, with the heap of streams and the shared memory. -/
structure ShamonStreams where
  shm : Text → Option SharedBuffer
  heap : ℕ → Option Stream
  /-- the next address that `malloc` returns -/
  next : ℕ
  streams : List ℕ
  evSize : ℕ
  /-- `none` is a buffer that the vector has lost -/
  buffers : List (Option ArbiterBuffer)
  /-- for each manager, whether it has exited -/
  bufferThreads : List Bool

namespace ShamonStreams

/-! ### Streams -/

/-- `shamon_create`. -/
def create : ShamonStreams := ⟨fun _ => none, fun _ => none, 0, [], 24, [], []⟩

def read (m : ShamonStreams) (p : ℕ) : Except Stop Stream :=
  match m.heap p with
  | some s => .ok s
  | none => .error (.freed p)

/-- The infix of the keys and of the names. -/
def subMark : Text := ['.', 's', 'u', 'b', '.']

/-- `"%s.sub.%lu"`. -/
def subKey (key : Text) (idx : ℕ) : Text := key ++ subMark ++ Nat.toDigits 10 idx

/-- `vms_shm_buffer_compute_sub_buffer_key`. -/
def computeSubBufferKey (key : Text) (idx : ℕ) : Except Stop Text :=
  if key.length + 16 ≤ (subKey key idx).length then .error .abort else .ok (subKey key idx)

/-- `vms_shm_buffer_connect`, and what follows where it returns `NULL`. -/
def connect (m : ShamonStreams) (key : Text) : Except Stop SharedBuffer :=
  match m.shm key with
  | some b => .ok b
  | none => .error .null

/-- `vms_stream_attach`. -/
def attach (m : ShamonStreams) (key : Text) : ShamonStreams :=
  { m with shm := Function.update m.shm key ((m.shm key).map fun b =>
      if b.destroyed then b else { b with readerIsReady := true }) }

/-- `vms_stream_detach`. -/
def detach (m : ShamonStreams) (key : Text) : ShamonStreams :=
  { m with shm := Function.update m.shm key ((m.shm key).map fun b =>
      { b with readerIsReady := false }) }

/-- `malloc` and `vms_stream_init`. -/
def alloc (m : ShamonStreams) (s : Stream) : ShamonStreams :=
  { m with heap := Function.update m.heap m.next (some s), next := m.next + 1 }

/-- The stream at `p` gets the next object as a substream. -/
def adopt (m : ShamonStreams) (p : ℕ) (s : Stream) : ShamonStreams :=
  { m with heap := Function.update m.heap p (some (s.adopt m.next)) }

/-- `vms_stream_has_new_substreams` and `vms_stream_create_substream` without callbacks: the new
    substream, if there is one. -/
def createSubstream (m : ShamonStreams) (p : ℕ) : Except Stop (Option ℕ × ShamonStreams) := do
  let s ← m.read p
  let b ← m.connect s.key
  if b.subbuffersNo ≤ s.substreamsNo then pure (none, m)
  else do
    let no := s.substreamsNo + 1
    let key ← computeSubBufferKey s.key no
    let shmbuffer ← m.connect key
    let name ← computeSubBufferKey s.name no
    pure (some m.next, (m.adopt p s).alloc
      ⟨name, key, shmbuffer.elemSize, s.holeEventSize, 0, some p, []⟩)

/-! ### Shamon -/

/-- The size of the elements in `vms_arbiter_buffer_init`. -/
def arbiterElemSize (outEventSize eventSize holeEventSize : ℕ) : ℕ :=
  let size := if eventSize < outEventSize then outEventSize else eventSize
  let size := if size < holeEventSize then holeEventSize else size
  if 0 < holeEventSize ∧ size < holeEventSize then holeEventSize else size

/-- No stream has the name yet, else `abort`. -/
def checkName (m : ShamonStreams) (name : Text) : List ℕ → Except Stop Unit
  | [] => pure ()
  | p :: ps => do
    let s ← m.read p
    if s.name = name then .error .abort else m.checkName name ps

/-- `vms_vector_aligned_extend` of the buffers, and the new buffer. With 10, 20, … buffers the storage
    moves, and the bytes copied are as many as there are buffers: no buffer is copied whole. -/
def extendBuffers (buffers : List (Option ArbiterBuffer)) (b : ArbiterBuffer) :
    List (Option ArbiterBuffer) :=
  (if buffers.length % 10 = 0 then buffers.map fun _ => none else buffers) ++ [some b]

/-- `shamon_add_stream`. -/
def addStream (m : ShamonStreams) (p bufferCapacity : ℕ) : Except Stop ShamonStreams := do
  let s ← m.read p
  m.checkName s.name m.streams
  let size := if s.holeEventSize < s.eventSize then s.eventSize else s.holeEventSize
  let buffer := ⟨arbiterElemSize 0 s.eventSize s.holeEventSize, bufferCapacity⟩
  let m := { m with streams := m.streams ++ [p]
                    evSize := if m.evSize < size then size else m.evSize
                    buffers := extendBuffers m.buffers buffer
                    bufferThreads := m.bufferThreads ++ [false] }
  pure (m.attach s.key)

/-- `vms_vector_at` of the buffers, for a call that reads there. -/
def bufferAt (m : ShamonStreams) (i : ℕ) : Except Stop ArbiterBuffer :=
  match m.buffers[i]? with
  | some (some b) => .ok b
  | _ => .error (.lost i)

/-- One turn of the loop of `shamon_get_next_ev`. -/
def discoverAt (m : ShamonStreams) (i : ℕ) : Except Stop ShamonStreams :=
  match m.streams[i]? with
  | none => pure m
  | some p => do
    match ← m.createSubstream p with
    | (none, m) => pure m
    | (some q, m) => do
      let buffer ← m.bufferAt i
      m.addStream q buffer.capacity

/-- The loop of `shamon_get_next_ev` from turn `i` on, with as many `turns`. The streams that it adds
    are gone over, too. -/
def discover (turns : ℕ) (m : ShamonStreams) (i : ℕ) :
    Except Stop (Option (ShamonStreams × ℕ)) :=
  whileDo (fun s => decide (s.2 < s.1.streams.length))
    (fun s => do
      let m ← s.1.discoverAt s.2
      pure (m, s.2 + 1)) turns (m, i)

/-- `vms_stream_create` and `shamon_add_stream` for a stream that the user names. -/
def addNew (m : ShamonStreams) (name key : Text) (holeEventSize bufferCapacity : ℕ) :
    Except Stop ShamonStreams := do
  let b ← m.connect key
  (m.alloc ⟨name, key, b.elemSize, holeEventSize, 0, none, []⟩).addStream m.next bufferCapacity

/-! ### The end -/

/-- `free`. -/
def free (m : ShamonStreams) (p : ℕ) : ShamonStreams :=
  { m with heap := Function.update m.heap p none }

/-- `vms_shm_buffer_release_sub_buffer`: the reader removes the files of a sub-buffer. -/
def releaseSubBuffer (m : ShamonStreams) (key : Text) : ShamonStreams :=
  { m with shm := Function.update m.shm key none }

/-- `vms_substream_destroy`, calls nested at most `depth` deep. That a substream is still ready is
    only a warning, but it is asked, and a generic stream is read for it. -/
def substreamDestroy : ℕ → ShamonStreams → ℕ → Except Stop ShamonStreams
  | 0, _, _ => .error .deep
  | depth + 1, m, p => do
    let s ← m.read p
    let m ← s.substreams.foldlM (fun m q => do
      let _ ← m.read q
      substreamDestroy depth m q) (m.detach s.key)
    pure ((m.releaseSubBuffer s.key).free p)

/-- `vms_stream_destroy`. -/
def streamDestroy (depth : ℕ) (m : ShamonStreams) (p : ℕ) : Except Stop ShamonStreams := do
  let s ← m.read p
  let m ← s.substreams.foldlM (fun m q => do
    let _ ← m.read q
    substreamDestroy depth m q) (m.detach s.key)
  pure (m.free p)

/-- `vms_stream_is_substream`, of a stream that is there. -/
def isSubstream (m : ShamonStreams) (p : ℕ) : Bool :=
  ((m.heap p).bind (·.parentStream)).isSome

/-- `thrd_join`. -/
def thrdJoin (exited : Bool) : Except Stop Unit := if exited then pure () else .error .waits

/-- The second loop of `shamon_destroy`, over the streams. -/
def destroyStreams (m : ShamonStreams) : Except Stop ShamonStreams :=
  m.streams.foldlM (fun m' p => do
    let s ← m'.read p
    if s.parentStream = none then streamDestroy m.next m' p else pure m') m

/-- `shamon_destroy`. -/
def destroy (m : ShamonStreams) : Except Stop ShamonStreams := do
  if m.bufferThreads.length = m.buffers.length then pure () else .error .abort
  m.bufferThreads.forM thrdJoin
  m.destroyStreams

/-! ### Managers -/

/-- The manager of the stream at `i` has seen its end. -/
def managerExits (m : ShamonStreams) (i : ℕ) : ShamonStreams :=
  { m with bufferThreads := m.bufferThreads.set i true }

/-! ### Sources -/

/-- A buffer is created under `key`. -/
def createBuffer (m : ShamonStreams) (key : Text) (elemSize : ℕ) : ShamonStreams :=
  { m with shm := Function.update m.shm key (some ⟨elemSize, 0, false, false⟩) }

/-- The end of `vms_shm_buffer_create_sub_buffer`. The numbers for the keys are drawn from another
    counter, at its start. -/
def announce (m : ShamonStreams) (key : Text) : ShamonStreams :=
  { m with shm := Function.update m.shm key ((m.shm key).map fun b =>
      { b with subbuffersNo := b.subbuffersNo + 1 }) }

/-- `vms_shm_buffer_set_destroyed`. -/
def setDestroyed (m : ShamonStreams) (key : Text) : ShamonStreams :=
  { m with shm := Function.update m.shm key ((m.shm key).map fun b => { b with destroyed := true }) }

/-- The states that a run reaches, and the turn at which `shamon_get_next_ev` is if it is called. The
    names that the user gives are among `names`. A buffer may be created under any free key, and a
    sub-buffer announced whether or not its creation has succeeded; a manager may exit once its
    source has destroyed the buffer. -/
inductive Reached (names : Text → Prop) : ShamonStreams → Option ℕ → Prop
  | create : Reached names create none
  | createBuffer {m : ShamonStreams} {at_ : Option ℕ} (key : Text) (elemSize : ℕ) :
      Reached names m at_ → m.shm key = none → Reached names (m.createBuffer key elemSize) at_
  | announce {m : ShamonStreams} {at_ : Option ℕ} (key : Text) :
      Reached names m at_ → Reached names (m.announce key) at_
  | setDestroyed {m : ShamonStreams} {at_ : Option ℕ} (key : Text) :
      Reached names m at_ → Reached names (m.setDestroyed key) at_
  | managerExits {m : ShamonStreams} {at_ : Option ℕ} {i p : ℕ} {s : Stream} {b : SharedBuffer} :
      Reached names m at_ → m.streams[i]? = some p → m.heap p = some s → m.shm s.key = some b →
      b.destroyed = true → Reached names (m.managerExits i) at_
  | add {m m' : ShamonStreams} {name : Text} (key : Text) (holeEventSize bufferCapacity : ℕ) :
      Reached names m none → names name →
      m.addNew name key holeEventSize bufferCapacity = .ok m' → Reached names m' none
  | enter {m : ShamonStreams} : Reached names m none → Reached names m (some 0)
  | turn {m m' : ShamonStreams} {i : ℕ} : Reached names m (some i) → i < m.streams.length →
      m.discoverAt i = .ok m' → Reached names m' (some (i + 1))
  | leave {m : ShamonStreams} {i : ℕ} : Reached names m (some i) → m.streams.length ≤ i →
      Reached names m none

/-! ### Keys -/

theorem subKey_length (key : Text) (idx : ℕ) :
    (subKey key idx).length = key.length + 5 + (Nat.toDigits 10 idx).length := by
  simp only [subKey, List.length_append]
  rfl

theorem subKey_longer (key : Text) (idx : ℕ) : key.length < (subKey key idx).length := by
  rw [subKey_length]
  omega

/-- The digits end at the last dot, so a key tells what it was made of. -/
theorem subKey_inj {key key' : Text} {i j : ℕ} (h : subKey key i = subKey key' j) :
    key = key' ∧ i = j := by
  have hrev : ∀ (key : Text) (i : ℕ), ((subKey key i).reverse).takeWhile (· ≠ '.') =
      (Nat.toDigits 10 i).reverse := by
    intro key i
    have hdigit : ∀ c ∈ (Nat.toDigits 10 i).reverse, decide (c ≠ '.') = true := by
      intro c hc
      have hd := Nat.isDigit_of_mem_toDigits (by decide) (by decide) (List.mem_reverse.mp hc)
      refine decide_eq_true ?_
      rintro rfl
      exact absurd hd (by decide)
    rw [subKey, List.reverse_append, List.reverse_append, List.takeWhile_append_of_pos hdigit]
    have hstop : (subMark.reverse ++ key.reverse).takeWhile (fun c => decide (c ≠ '.')) = [] := rfl
    rw [hstop, List.append_nil]
  have hd : Nat.toDigits 10 i = Nat.toDigits 10 j := by
    have := hrev key i
    rw [h, hrev key' j] at this
    exact (List.reverse_injective this).symm
  have hij : i = j := by
    rw [← Nat.ofDigitChars_ten_toDigits (n := i), hd, Nat.ofDigitChars_ten_toDigits]
  refine ⟨?_, hij⟩
  rw [hij] at h
  exact List.append_cancel_right (List.append_cancel_right h)

theorem computeSubBufferKey_ok (key : Text) {idx : ℕ} (h : idx < 10 ^ 10) :
    computeSubBufferKey key idx = .ok (subKey key idx) := by
  have hd := (Nat.length_toDigits_le_iff (b := 10) (n := idx) (k := 10) (by decide) (by decide)).mpr h
  have hl := subKey_length key idx
  rw [computeSubBufferKey, if_neg (by omega)]

theorem of_computeSubBufferKey {key key' : Text} {idx : ℕ}
    (h : computeSubBufferKey key idx = .ok key') : key' = subKey key idx := by
  unfold computeSubBufferKey at h
  split at h
  · cases h
  · exact (Except.ok.inj h).symm

/-! ### What a turn can do -/

theorem read_ok {m : ShamonStreams} {p : ℕ} {s : Stream} : m.read p = .ok s ↔ m.heap p = some s := by
  unfold read
  cases m.heap p <;> simp

theorem connect_ok {m : ShamonStreams} {key : Text} {b : SharedBuffer} :
    m.connect key = .ok b ↔ m.shm key = some b := by
  unfold connect
  cases m.shm key <;> simp

/-- A stream for the next sub-buffer of `s`, which lies at `p`. -/
def nextSub (s : Stream) (p : ℕ) (shmbuffer : SharedBuffer) : Stream :=
  ⟨subKey s.name (s.substreamsNo + 1), subKey s.key (s.substreamsNo + 1), shmbuffer.elemSize,
    s.holeEventSize, 0, some p, []⟩

/-- A new stream `t` in the heap and in the list with an arbiter buffer, its parent told of it. -/
def grown (m : ShamonStreams) (t : Stream) (bufferCapacity : ℕ) : ShamonStreams where
  shm := m.shm
  heap := Function.update (match t.parentStream with
    | none => m.heap
    | some p => Function.update m.heap p ((m.heap p).map (·.adopt m.next))) m.next (some t)
  next := m.next + 1
  streams := m.streams ++ [m.next]
  evSize := max m.evSize (max t.eventSize t.holeEventSize)
  buffers := extendBuffers m.buffers ⟨max t.eventSize t.holeEventSize, bufferCapacity⟩
  bufferThreads := m.bufferThreads ++ [false]

theorem createSubstream_cases {m : ShamonStreams} {p : ℕ} {r : Option ℕ × ShamonStreams}
    (h : m.createSubstream p = .ok r) : ∃ s b, m.heap p = some s ∧ m.shm s.key = some b ∧
      (b.subbuffersNo ≤ s.substreamsNo ∧ r = (none, m) ∨
        s.substreamsNo < b.subbuffersNo ∧ ∃ sb, m.shm (subKey s.key (s.substreamsNo + 1)) = some sb ∧
          r = (some m.next, (m.adopt p s).alloc (nextSub s p sb))) := by
  obtain ⟨s, hs, h⟩ := except_bind_ok.mp h
  obtain ⟨b, hb, h⟩ := except_bind_ok.mp h
  refine ⟨s, b, read_ok.mp hs, connect_ok.mp hb, ?_⟩
  split at h
  case isTrue hle => exact .inl ⟨hle, (Except.ok.inj h).symm⟩
  case isFalse hlt =>
    obtain ⟨key, hkey, h⟩ := except_bind_ok.mp h
    obtain ⟨sb, hsb, h⟩ := except_bind_ok.mp h
    obtain ⟨name, hname, h⟩ := except_bind_ok.mp h
    cases of_computeSubBufferKey hkey
    cases of_computeSubBufferKey hname
    exact .inr ⟨by omega, sb, connect_ok.mp hsb, (Except.ok.inj h).symm⟩

theorem createSubstream_none {m : ShamonStreams} {p : ℕ} {s : Stream} {b : SharedBuffer}
    (hs : m.heap p = some s) (hb : m.shm s.key = some b) (hle : b.subbuffersNo ≤ s.substreamsNo) :
    m.createSubstream p = .ok (none, m) := by
  refine except_bind_ok.mpr ⟨s, read_ok.mpr hs, except_bind_ok.mpr ⟨b, connect_ok.mpr hb, ?_⟩⟩
  rw [if_pos hle]
  rfl

theorem createSubstream_some {m : ShamonStreams} {p : ℕ} {s : Stream} {b sb : SharedBuffer}
    (hs : m.heap p = some s) (hb : m.shm s.key = some b) (hlt : s.substreamsNo < b.subbuffersNo)
    (hsb : m.shm (subKey s.key (s.substreamsNo + 1)) = some sb) (hno : s.substreamsNo + 1 < 10 ^ 10) :
    m.createSubstream p = .ok (some m.next, (m.adopt p s).alloc (nextSub s p sb)) := by
  refine except_bind_ok.mpr ⟨s, read_ok.mpr hs, except_bind_ok.mpr ⟨b, connect_ok.mpr hb, ?_⟩⟩
  rw [if_neg (not_le.mpr hlt)]
  exact except_bind_ok.mpr ⟨_, computeSubBufferKey_ok _ hno, except_bind_ok.mpr
    ⟨sb, connect_ok.mpr hsb, except_bind_ok.mpr ⟨_, computeSubBufferKey_ok _ hno, rfl⟩⟩⟩

theorem checkName_ok {m : ShamonStreams} {name : Text} {ps : List ℕ} :
    m.checkName name ps = .ok () ↔ ∀ p ∈ ps, ∃ s, m.heap p = some s ∧ s.name ≠ name := by
  induction ps with
  | nil => exact ⟨fun _ _ hp => absurd hp List.not_mem_nil, fun _ => rfl⟩
  | cons p ps ih =>
    rw [checkName, except_bind_ok, List.forall_mem_cons, ← ih]
    constructor
    · rintro ⟨s, hs, h⟩
      split at h
      · cases h
      · rename_i hne
        exact ⟨⟨s, read_ok.mp hs, hne⟩, h⟩
    · rintro ⟨⟨s, hs, hne⟩, h⟩
      exact ⟨s, read_ok.mpr hs, by rw [if_neg hne]; exact h⟩

theorem arbiterElemSize_eq (eventSize holeEventSize : ℕ) :
    arbiterElemSize 0 eventSize holeEventSize = max eventSize holeEventSize := by
  unfold arbiterElemSize
  dsimp only
  split_ifs <;> omega

/-- What `shamon_add_stream` does when it returns. -/
theorem addStream_cases {m m' : ShamonStreams} {p bufferCapacity : ℕ}
    (h : m.addStream p bufferCapacity = .ok m') :
    ∃ s, m.heap p = some s ∧ (∀ q ∈ m.streams, ∃ t, m.heap q = some t ∧ t.name ≠ s.name) ∧
      m' = ({ m with
        streams := m.streams ++ [p]
        evSize := max m.evSize (max s.eventSize s.holeEventSize)
        buffers := extendBuffers m.buffers ⟨max s.eventSize s.holeEventSize, bufferCapacity⟩
        bufferThreads := m.bufferThreads ++ [false] } : ShamonStreams).attach s.key := by
  obtain ⟨s, hs, h⟩ := except_bind_ok.mp h
  obtain ⟨⟨⟩, hn, h⟩ := except_bind_ok.mp h
  refine ⟨s, read_ok.mp hs, checkName_ok.mp hn, ?_⟩
  rw [arbiterElemSize_eq] at h
  have hsize : (if m.evSize < if s.holeEventSize < s.eventSize then s.eventSize else s.holeEventSize
      then if s.holeEventSize < s.eventSize then s.eventSize else s.holeEventSize else m.evSize) =
      max m.evSize (max s.eventSize s.holeEventSize) := by
    split_ifs <;> omega
  dsimp only at h
  rw [hsize] at h
  exact (Except.ok.inj h).symm

theorem addStream_returns {m : ShamonStreams} {p : ℕ} {s : Stream} (hs : m.heap p = some s)
    (hnames : ∀ q ∈ m.streams, ∃ t, m.heap q = some t ∧ t.name ≠ s.name) (bufferCapacity : ℕ) :
    ∃ m', m.addStream p bufferCapacity = .ok m' :=
  ⟨_, except_bind_ok.mpr ⟨s, read_ok.mpr hs, except_bind_ok.mpr ⟨(), checkName_ok.mpr hnames, rfl⟩⟩⟩

theorem heap_grown_nextSub {m : ShamonStreams} {p c : ℕ} {s : Stream} {sb : SharedBuffer}
    (hs : m.heap p = some s) :
    (m.grown (nextSub s p sb) c).heap = ((m.adopt p s).alloc (nextSub s p sb)).heap := by
  simp only [grown, nextSub, adopt, alloc, hs, Option.map_some]

theorem bufferAt_ok {m : ShamonStreams} {i : ℕ} {b : ArbiterBuffer} :
    m.bufferAt i = .ok b ↔ m.buffers[i]? = some (some b) := by
  unfold bufferAt
  rcases m.buffers[i]? with _ | _ | b' <;> simp

/-- What a turn of the loop does when it returns: nothing, or the stream has one substream more, with
    an arbiter buffer as large as its own. -/
theorem discoverAt_cases {m m' : ShamonStreams} {i : ℕ} (hi : i < m.streams.length)
    (h : m.discoverAt i = .ok m') : ∃ p s b, m.streams[i]? = some p ∧ m.heap p = some s ∧
      m.shm s.key = some b ∧ (b.subbuffersNo ≤ s.substreamsNo ∧ m' = m ∨
        s.substreamsNo < b.subbuffersNo ∧ ∃ sb elemSize c,
          m.shm (subKey s.key (s.substreamsNo + 1)) = some sb ∧
          m.buffers[i]? = some (some ⟨elemSize, c⟩) ∧
          (∀ q ∈ m.streams, ∃ t, (m.grown (nextSub s p sb) c).heap q = some t ∧
            t.name ≠ subKey s.name (s.substreamsNo + 1)) ∧
          m' = (m.grown (nextSub s p sb) c).attach (subKey s.key (s.substreamsNo + 1))) := by
  obtain ⟨p, hp⟩ : ∃ p, m.streams[i]? = some p := ⟨_, List.getElem?_eq_getElem hi⟩
  rw [discoverAt, hp] at h
  obtain ⟨r, hr, h⟩ := except_bind_ok.mp h
  obtain ⟨s, b, hs, hb, hcase⟩ := createSubstream_cases hr
  refine ⟨p, s, b, hp, hs, hb, ?_⟩
  rcases hcase with ⟨hle, rfl⟩ | ⟨hlt, sb, hsb, rfl⟩
  · exact .inl ⟨hle, (Except.ok.inj h).symm⟩
  · obtain ⟨⟨elemSize, c⟩, hbuf, h⟩ := except_bind_ok.mp h
    obtain ⟨t, ht, hnames, rfl⟩ := addStream_cases h
    have ht' : ((m.adopt p s).alloc (nextSub s p sb)).heap m.next = some (nextSub s p sb) :=
      Function.update_self ..
    cases ht.symm.trans ht'
    refine .inr ⟨hlt, sb, elemSize, c, hsb, bufferAt_ok.mp hbuf, ?_, ?_⟩
    · rw [heap_grown_nextSub hs]
      exact hnames
    · simp only [grown, nextSub, adopt, alloc, hs, Option.map_some]

/-- What the user's call does when it returns. -/
theorem addNew_cases {m m' : ShamonStreams} {name key : Text} {holeEventSize c : ℕ}
    (h : m.addNew name key holeEventSize c = .ok m') : ∃ b, m.shm key = some b ∧
      let t : Stream := ⟨name, key, b.elemSize, holeEventSize, 0, none, []⟩
      (∀ q ∈ m.streams, ∃ s, (m.grown t c).heap q = some s ∧ s.name ≠ name) ∧
        m' = (m.grown t c).attach key := by
  obtain ⟨b, hb, h⟩ := except_bind_ok.mp h
  obtain ⟨t, ht, hnames, rfl⟩ := addStream_cases h
  refine ⟨b, connect_ok.mp hb, ?_⟩
  have ht' : (m.alloc ⟨name, key, b.elemSize, holeEventSize, 0, none, []⟩).heap m.next =
      some ⟨name, key, b.elemSize, holeEventSize, 0, none, []⟩ := Function.update_self ..
  cases ht.symm.trans ht'
  exact ⟨hnames, rfl⟩

/-! ### The invariant -/

/-- The streams of the list are the ones in the heap, and they form a forest in which a parent comes
    before its substreams; the substreams of a stream are those for its sub-buffers 1, 2, …, in order.
    Of the arbiter buffers those are there that were added since the vector last moved, and what
    `default_process_events` copies out of one of them fits into `_ev`. -/
structure Ok (m : ShamonStreams) : Prop where
  next : ∀ p ∈ m.streams, p < m.next
  added : ∀ p, (m.heap p).isSome = true ↔ p ∈ m.streams
  sorted : m.streams.Pairwise (· < ·)
  names : ∀ p q s t, m.heap p = some s → m.heap q = some t → s.name = t.name → p = q
  buffer : ∀ p s, m.heap p = some s → ∃ b, m.shm s.key = some b ∧ s.substreamsNo ≤ b.subbuffersNo
  count : ∀ p s, m.heap p = some s → s.substreams.length = s.substreamsNo
  sub : ∀ p s j q, m.heap p = some s → s.substreams[j]? = some q → ∃ t, m.heap q = some t ∧
    t.parentStream = some p ∧ t.key = subKey s.key (j + 1) ∧ t.name = subKey s.name (j + 1)
  parent : ∀ q t p, m.heap q = some t → t.parentStream = some p →
    p < q ∧ ∃ s, m.heap p = some s ∧ q ∈ s.substreams
  buffers : List.Forall₂ (fun p b => ∃ s, m.heap p = some s ∧
    ∀ z ∈ b, z.elemSize = max s.eventSize s.holeEventSize) m.streams m.buffers
  kept : ∀ i b, m.buffers[i]? = some b → (b = none ↔ i < 10 * ((m.streams.length - 1) / 10))
  fits : ∀ z, some z ∈ m.buffers → z.elemSize ≤ m.evSize
  threads : m.bufferThreads.length = m.streams.length

/-- Every announced sub-buffer is there, and its number has at most ten digits. -/
def Announced (shm : Text → Option SharedBuffer) : Prop :=
  ∀ key b i, shm key = some b → 1 ≤ i → i ≤ b.subbuffersNo →
    (shm (subKey key i)).isSome = true ∧ i < 10 ^ 10

theorem heap_grown_next (m : ShamonStreams) (t : Stream) (c : ℕ) :
    (m.grown t c).heap m.next = some t :=
  Function.update_self ..

/-- The other streams stay, but for the parent's list. -/
theorem heap_grown {m : ShamonStreams} {q c : ℕ} (t : Stream) (hq : q ≠ m.next) :
    (m.grown t c).heap q =
      (m.heap q).map fun s => if t.parentStream = some q then s.adopt m.next else s := by
  unfold grown
  dsimp only
  rw [Function.update_of_ne hq]
  cases t.parentStream with
  | none => simp
  | some p =>
    by_cases hqp : q = p
    · subst hqp
      simp
    · have hpq : p ≠ q := fun h => hqp h.symm
      simp [Function.update_of_ne hqp, hpq]

/-- A buffer keeps its counter, or more is announced. -/
def Grows (shm shm' : Text → Option SharedBuffer) : Prop :=
  ∀ key b, shm key = some b → ∃ b', shm' key = some b' ∧ b.subbuffersNo ≤ b'.subbuffersNo

theorem Ok.setShm {m : ShamonStreams} (h : Ok m) {shm : Text → Option SharedBuffer}
    (hs : Grows m.shm shm) : Ok { m with shm := shm } := by
  refine ⟨h.next, h.added, h.sorted, h.names, fun p s hp => ?_, h.count, h.sub, h.parent, h.buffers,
    h.kept, h.fits, h.threads⟩
  obtain ⟨b, hb, hle⟩ := h.buffer p s hp
  obtain ⟨b', hb', hle'⟩ := hs _ _ hb
  exact ⟨b', hb', hle.trans hle'⟩

/-- A store to the flags of one buffer. -/
theorem grows_map {shm : Text → Option SharedBuffer} {f : SharedBuffer → SharedBuffer}
    (hf : ∀ b, (f b).subbuffersNo = b.subbuffersNo) (key : Text) :
    Grows shm (Function.update shm key ((shm key).map f)) := by
  intro k b hb
  by_cases hk : k = key
  · subst hk
    exact ⟨f b, by rw [Function.update_self, hb]; rfl, (hf b).ge⟩
  · exact ⟨b, by rw [Function.update_of_ne hk]; exact hb, le_rfl⟩

theorem Announced.map {shm : Text → Option SharedBuffer} (h : Announced shm)
    {f : SharedBuffer → SharedBuffer} (hf : ∀ b, (f b).subbuffersNo = b.subbuffersNo) (key : Text) :
    Announced (Function.update shm key ((shm key).map f)) := by
  have hsome : ∀ k, (Function.update shm key ((shm key).map f) k).isSome = (shm k).isSome := by
    intro k
    by_cases hk : k = key
    · subst hk
      rw [Function.update_self, Option.isSome_map]
    · rw [Function.update_of_ne hk]
  intro k b i hb h1 hi
  rw [hsome]
  by_cases hk : k = key
  · subst hk
    rw [Function.update_self, Option.map_eq_some_iff] at hb
    obtain ⟨b', hb', rfl⟩ := hb
    exact h k b' i hb' h1 (by rw [← hf]; exact hi)
  · rw [Function.update_of_ne hk] at hb
    exact h k b i hb h1 hi

/-- The same stream, maybe with more substreams. -/
structure Later (s s' : Stream) : Prop where
  name : s'.name = s.name
  key : s'.key = s.key
  eventSize : s'.eventSize = s.eventSize
  holeEventSize : s'.holeEventSize = s.holeEventSize
  parentStream : s'.parentStream = s.parentStream
  substreams : ∃ l, s'.substreams = s.substreams ++ l

theorem Later.refl (s : Stream) : Later s s := ⟨rfl, rfl, rfl, rfl, rfl, [], (List.append_nil _).symm⟩

theorem heap_grown_of {m : ShamonStreams} {q : ℕ} {s : Stream} (t : Stream) (c : ℕ)
    (hs : m.heap q = some s) (hq : q ≠ m.next) : ∃ s', (m.grown t c).heap q = some s' ∧ Later s s' := by
  rw [heap_grown t hq, hs]
  by_cases hp : t.parentStream = some q
  · exact ⟨s.adopt m.next, by rw [Option.map_some, if_pos hp], rfl, rfl, rfl, rfl, rfl, _, rfl⟩
  · exact ⟨s, by rw [Option.map_some, if_neg hp], Later.refl s⟩

/-- What lies in the heap then: the new stream, its parent, or another that was there. -/
theorem heap_grown_cases {m : ShamonStreams} {t s' : Stream} {q c : ℕ}
    (h : (m.grown t c).heap q = some s') :
    q = m.next ∧ s' = t ∨ q ≠ m.next ∧ ∃ s, m.heap q = some s ∧ Later s s' ∧
      (t.parentStream = some q ∧ s' = s.adopt m.next ∨ t.parentStream ≠ some q ∧ s' = s) := by
  by_cases hq : q = m.next
  · subst hq
    rw [heap_grown_next] at h
    exact .inl ⟨rfl, (Option.some.inj h).symm⟩
  · refine .inr ⟨hq, ?_⟩
    rw [heap_grown t hq] at h
    obtain ⟨s, hs, rfl⟩ := Option.map_eq_some_iff.mp h
    refine ⟨s, hs, ?_⟩
    by_cases hp : t.parentStream = some q
    · rw [if_pos hp]
      exact ⟨⟨rfl, rfl, rfl, rfl, rfl, _, rfl⟩, .inl ⟨hp, rfl⟩⟩
    · rw [if_neg hp]
      exact ⟨Later.refl s, .inr ⟨hp, rfl⟩⟩

/-- What an arbiter buffer is after another one has been added. -/
theorem extendBuffers_get {l : List (Option ArbiterBuffer)} {b : ArbiterBuffer} {i : ℕ}
    {z : Option ArbiterBuffer} (h : (extendBuffers l b)[i]? = some z) :
    i = l.length ∧ z = some b ∨ i < l.length ∧ l.length % 10 = 0 ∧ z = none ∨
      i < l.length ∧ l.length % 10 ≠ 0 ∧ l[i]? = some z := by
  unfold extendBuffers at h
  split at h
  case isTrue h0 =>
    rcases Nat.lt_or_ge i l.length with hi | hi
    · rw [List.getElem?_append_left (by rw [List.length_map]; exact hi), List.getElem?_map,
        List.getElem?_eq_getElem hi] at h
      exact .inr (.inl ⟨hi, h0, (Option.some.inj h).symm⟩)
    · rw [List.getElem?_append_right (by rw [List.length_map]; exact hi), List.length_map] at h
      obtain ⟨hj, hz⟩ := List.getElem?_eq_some_iff.mp h
      have hj1 := Nat.lt_one_iff.mp hj
      simp only [hj1] at hz
      exact .inl ⟨by omega, hz.symm⟩
  case isFalse h0 =>
    rcases Nat.lt_or_ge i l.length with hi | hi
    · rw [List.getElem?_append_left hi] at h
      exact .inr (.inr ⟨hi, h0, h⟩)
    · rw [List.getElem?_append_right hi] at h
      obtain ⟨hj, hz⟩ := List.getElem?_eq_some_iff.mp h
      have hj1 := Nat.lt_one_iff.mp hj
      simp only [hj1] at hz
      exact .inl ⟨by omega, hz.symm⟩

/-- The buffers that the vector has are those since its last move. -/
theorem extendBuffers_kept {l : List (Option ArbiterBuffer)}
    (hl : ∀ i z, l[i]? = some z → (z = none ↔ i < 10 * ((l.length - 1) / 10))) {b : ArbiterBuffer}
    {i : ℕ} {z : Option ArbiterBuffer} (h : (extendBuffers l b)[i]? = some z) :
    z = none ↔ i < 10 * (l.length / 10) := by
  rcases extendBuffers_get h with ⟨hi, rfl⟩ | ⟨hi, h0, rfl⟩ | ⟨hi, h0, hz⟩
  · exact ⟨fun h => absurd h (Option.some_ne_none b), fun h => absurd h (by omega)⟩
  · exact ⟨fun _ => by omega, fun _ => rfl⟩
  · rw [hl i z hz, show (l.length - 1) / 10 = l.length / 10 by omega]

example : (List.range 11).foldl (fun l i => extendBuffers l ⟨i, 8⟩) [] =
    List.replicate 10 none ++ [some ⟨10, 8⟩] := by decide

/-- A list beside the buffers stays beside them, and is not bound to what is lost. -/
theorem extendBuffers_forall₂ {α : Type} {R : α → Option ArbiterBuffer → Prop} {xs : List α}
    {l : List (Option ArbiterBuffer)} (h : List.Forall₂ R xs l)
    (hnone : ∀ x z, R x z → R x none) {x : α} {b : ArbiterBuffer} (hb : R x (some b)) :
    List.Forall₂ R (xs ++ [x]) (extendBuffers l b) := by
  unfold extendBuffers
  refine List.rel_append ?_ (.cons hb .nil)
  split
  · exact List.forall₂_map_right_iff.mpr (h.imp fun _ _ hR => hnone _ _ hR)
  · exact h

/-- A stream under a new name, and for the next sub-buffer of its parent if it has one. -/
theorem Ok.grow {m : ShamonStreams} (h : Ok m) {t : Stream} (c : ℕ) (hno : t.substreamsNo = 0)
    (hsubs : t.substreams = [])
    (hnames : ∀ q ∈ m.streams, ∃ s, (m.grown t c).heap q = some s ∧ s.name ≠ t.name)
    (hbuffer : ∃ b, m.shm t.key = some b)
    (hparent : ∀ p, t.parentStream = some p → ∃ s b, m.heap p = some s ∧ m.shm s.key = some b ∧
      s.substreamsNo < b.subbuffersNo ∧ t.key = subKey s.key (s.substreamsNo + 1) ∧
        t.name = subKey s.name (s.substreamsNo + 1)) : Ok (m.grown t c) := by
  have hlt : ∀ {p s}, m.heap p = some s → p < m.next := by
    intro p s hs
    exact h.next p ((h.added p).mp (by rw [hs]; rfl))
  have hmem : ∀ {p s}, m.heap p = some s → p ∈ m.streams := by
    intro p s hs
    exact (h.added p).mp (by rw [hs]; rfl)
  constructor
  case next =>
    intro p hp
    rcases List.mem_append.mp hp with hp | hp
    · exact Nat.lt_succ_of_lt (h.next p hp)
    · rw [List.mem_singleton.mp hp]
      exact Nat.lt_succ_self _
  case added =>
    intro p
    rw [Option.isSome_iff_exists]
    constructor
    · rintro ⟨s, hs⟩
      rcases heap_grown_cases hs with ⟨rfl, -⟩ | ⟨-, s0, hs0, -⟩
      · exact List.mem_append_right _ (List.mem_singleton.mpr rfl)
      · exact List.mem_append_left _ (hmem hs0)
    · intro hp
      rcases List.mem_append.mp hp with hp | hp
      · obtain ⟨s, hs⟩ := Option.isSome_iff_exists.mp ((h.added p).mpr hp)
        obtain ⟨s', hs', -⟩ := heap_grown_of t c hs (h.next p hp).ne
        exact ⟨s', hs'⟩
      · rw [List.mem_singleton.mp hp]
        exact ⟨t, heap_grown_next m t c⟩
  case sorted =>
    refine List.pairwise_append.mpr ⟨h.sorted, List.pairwise_singleton _ _, fun p hp q hq => ?_⟩
    rw [List.mem_singleton.mp hq]
    exact h.next p hp
  case names =>
    -- the new name is none of the old ones
    have hnew : ∀ {q s}, q ≠ m.next → (m.grown t c).heap q = some s → s.name ≠ t.name := by
      intro q s hq hs
      rcases heap_grown_cases hs with ⟨hq', -⟩ | ⟨-, s0, hs0, -⟩
      · exact absurd hq' hq
      · obtain ⟨s', hs', hne⟩ := hnames q (hmem hs0)
        cases hs.symm.trans hs'
        exact hne
    intro p q s s' hs hs' hname
    rcases heap_grown_cases hs with ⟨rfl, rfl⟩ | ⟨hp, s0, hs0, l0, -⟩
    · by_cases hq : q = m.next
      · exact hq.symm
      · exact absurd hname.symm (hnew hq hs')
    · rcases heap_grown_cases hs' with ⟨rfl, rfl⟩ | ⟨-, s1, hs1, l1, -⟩
      · exact absurd hname (hnew hp hs)
      · exact h.names p q s0 s1 hs0 hs1 (by rw [← l0.name, ← l1.name]; exact hname)
  case buffer =>
    intro p s hs
    rcases heap_grown_cases hs with ⟨rfl, rfl⟩ | ⟨-, s0, hs0, -, ⟨hp, rfl⟩ | ⟨-, rfl⟩⟩
    · obtain ⟨b, hb⟩ := hbuffer
      exact ⟨b, hb, by rw [hno]; exact Nat.zero_le _⟩
    · obtain ⟨s1, b, hs1, hb, hlt', -⟩ := hparent p hp
      cases hs0.symm.trans hs1
      exact ⟨b, hb, hlt'⟩
    · exact h.buffer p s hs0
  case count =>
    intro p s hs
    rcases heap_grown_cases hs with ⟨rfl, rfl⟩ | ⟨-, s0, hs0, -, ⟨-, rfl⟩ | ⟨-, rfl⟩⟩
    · rw [hsubs, hno]
      rfl
    · rw [Stream.adopt, List.length_append, h.count p s0 hs0]
      rfl
    · exact h.count p s hs0
  case sub =>
    intro p s j q hs hj
    -- a substream that was there
    have hold : ∀ {s0}, m.heap p = some s0 → s0.substreams[j]? = some q → s.key = s0.key →
        s.name = s0.name → ∃ u, (m.grown t c).heap q = some u ∧ u.parentStream = some p ∧
          u.key = subKey s.key (j + 1) ∧ u.name = subKey s.name (j + 1) := by
      intro s0 hs0 hj0 hkey hname
      obtain ⟨u, hu, hup, huk, hun⟩ := h.sub p s0 j q hs0 hj0
      obtain ⟨u', hu', l⟩ := heap_grown_of t c hu (hlt hu).ne
      exact ⟨u', hu', l.parentStream.trans hup, by rw [l.key, huk, hkey],
        by rw [l.name, hun, hname]⟩
    rcases heap_grown_cases hs with ⟨rfl, rfl⟩ | ⟨-, s0, hs0, l, ⟨hp, rfl⟩ | ⟨-, rfl⟩⟩
    · rw [hsubs] at hj
      cases hj
    · obtain ⟨s1, b, hs1, -, -, hkey, hname⟩ := hparent p hp
      cases hs0.symm.trans hs1
      by_cases hjl : j < s0.substreams.length
      · refine hold hs0 ?_ rfl rfl
        rw [Stream.adopt, List.getElem?_append_left hjl] at hj
        exact hj
      · rw [Stream.adopt, List.getElem?_append_right (not_lt.mp hjl)] at hj
        obtain ⟨hj0, rfl⟩ : j - s0.substreams.length = 0 ∧ m.next = q := by
          obtain ⟨hj0, hq⟩ := List.getElem?_eq_some_iff.mp hj
          have hj1 := Nat.lt_one_iff.mp hj0
          simp only [hj1] at hq
          exact ⟨hj1, hq⟩
        have hjc : j = s0.substreamsNo := by
          rw [← h.count p s0 hs0]
          omega
        exact ⟨t, heap_grown_next m t c, hp, by rw [hkey, hjc]; rfl, by rw [hname, hjc]; rfl⟩
    · exact hold hs0 hj rfl rfl
  case parent =>
    intro q u p hu hp
    rcases heap_grown_cases hu with ⟨rfl, rfl⟩ | ⟨hq, u0, hu0, l, -⟩
    · obtain ⟨s, b, hs, -⟩ := hparent p hp
      refine ⟨hlt hs, s.adopt m.next, ?_, List.mem_append_right _ (List.mem_singleton.mpr rfl)⟩
      rw [heap_grown _ (hlt hs).ne, hs, Option.map_some, if_pos hp]
    · obtain ⟨hpq, s, hs, hmem'⟩ := h.parent q u0 p hu0 (l.parentStream.symm.trans hp)
      obtain ⟨s', hs', l'⟩ := heap_grown_of t c hs (hlt hs).ne
      obtain ⟨sfx, hsfx⟩ := l'.substreams
      exact ⟨hpq, s', hs', by rw [hsfx]; exact List.mem_append_left _ hmem'⟩
  case buffers =>
    refine extendBuffers_forall₂ (h.buffers.imp ?_) ?_ ⟨t, heap_grown_next m t c, ?_⟩
    · rintro p z ⟨s, hs, hz⟩
      obtain ⟨s', hs', l⟩ := heap_grown_of t c hs (hlt hs).ne
      exact ⟨s', hs', fun b hb => by rw [l.eventSize, l.holeEventSize, hz b hb]⟩
    · rintro p z ⟨s, hs, -⟩
      exact ⟨s, hs, fun b hb => by cases hb⟩
    · rintro b hb
      cases hb
      rfl
  case kept =>
    intro i z hz
    have hlen := h.buffers.length_eq
    have hk := extendBuffers_kept (l := m.buffers) (by rw [← hlen]; exact h.kept) hz
    rw [hk, ← hlen]
    unfold grown
    dsimp only
    rw [List.length_append, List.length_singleton, Nat.add_sub_cancel]
  case fits =>
    intro z hz
    obtain ⟨i, hi⟩ := List.mem_iff_getElem?.mp hz
    rcases extendBuffers_get hi with ⟨-, hz⟩ | ⟨-, -, hz⟩ | ⟨-, -, hz⟩
    · cases hz
      exact le_max_right _ _
    · cases hz
    · exact (h.fits z (List.mem_of_getElem? hz)).trans (le_max_left _ _)
  case threads =>
    unfold grown
    dsimp only
    rw [List.length_append, List.length_append, h.threads]
    rfl

/-! ### Runs -/

theorem Ok.attach {m : ShamonStreams} (h : Ok m) (key : Text) : Ok (m.attach key) := by
  refine h.setShm (grows_map (fun b => ?_) key)
  split <;> rfl

theorem Announced.attach {m : ShamonStreams} (h : Announced m.shm) (key : Text) :
    Announced (m.attach key).shm := by
  refine h.map (fun b => ?_) key
  split <;> rfl

theorem Ok.discoverAt {m m' : ShamonStreams} {i : ℕ} (h : Ok m) (hi : i < m.streams.length)
    (hm : m.discoverAt i = .ok m') : Ok m' := by
  obtain ⟨p, s, b, -, hs, hb, ⟨-, rfl⟩ | ⟨hlt, sb, -, c, hsb, -, hnames, rfl⟩⟩ :=
    discoverAt_cases hi hm
  · exact h
  · refine (h.grow c rfl rfl hnames ⟨sb, hsb⟩ fun p' hp' => ?_).attach _
    cases hp'
    exact ⟨s, b, hs, hb, hlt, rfl, rfl⟩

theorem Ok.addNew {m m' : ShamonStreams} {name key : Text} {holeEventSize c : ℕ} (h : Ok m)
    (hm : m.addNew name key holeEventSize c = .ok m') : Ok m' := by
  obtain ⟨b, hb, hnames, rfl⟩ := addNew_cases hm
  exact (h.grow c rfl rfl hnames ⟨b, hb⟩ fun p hp => by cases hp).attach _

theorem Ok.managerExits {m : ShamonStreams} (h : Ok m) (i : ℕ) : Ok (m.managerExits i) :=
  ⟨h.next, h.added, h.sorted, h.names, h.buffer, h.count, h.sub, h.parent, h.buffers, h.kept, h.fits,
    List.length_set.trans h.threads⟩

theorem discoverAt_announced {m m' : ShamonStreams} {i : ℕ} (h : Announced m.shm)
    (hi : i < m.streams.length) (hm : m.discoverAt i = .ok m') : Announced m'.shm := by
  obtain ⟨p, s, b, -, hs, hb, ⟨-, rfl⟩ | ⟨hlt, sb, -, c, hsb, -, hnames, rfl⟩⟩ :=
    discoverAt_cases hi hm
  · exact h
  · exact Announced.attach (m := m.grown _ c) h _

/-- A buffer under a key that was free. -/
theorem grows_create {shm : Text → Option SharedBuffer} {key : Text} (hkey : shm key = none)
    (b : SharedBuffer) : Grows shm (Function.update shm key (some b)) := by
  intro k b' hb'
  have hk : k ≠ key := by
    rintro rfl
    rw [hkey] at hb'
    cases hb'
  exact ⟨b', by rw [Function.update_of_ne hk]; exact hb', le_rfl⟩

/-- What always holds, between any two turns. -/
theorem Reached.ok {names : Text → Prop} {m : ShamonStreams} {at_ : Option ℕ}
    (h : Reached names m at_) : Ok m := by
  induction h with
  | create =>
    refine ⟨?_, ?_, .nil, ?_, ?_, ?_, ?_, ?_, .nil, ?_, ?_, rfl⟩ <;> simp [ShamonStreams.create]
  | createBuffer key elemSize _ hkey ih => exact ih.setShm (grows_create hkey _)
  | announce key _ ih =>
    refine ih.setShm fun k b hb => ?_
    by_cases hk : k = key
    · subst hk
      exact ⟨_, by rw [Function.update_self, hb, Option.map_some], Nat.le_succ _⟩
    · exact ⟨b, by rw [Function.update_of_ne hk]; exact hb, le_rfl⟩
  | setDestroyed key _ ih =>
    refine ih.setShm (grows_map ?_ key)
    exact fun _ => rfl
  | @managerExits _ _ i _ _ _ _ _ _ _ _ ih => exact ih.managerExits i
  | add key holeEventSize c _ _ hm ih => exact ih.addNew hm
  | enter _ ih => exact ih
  | turn _ hi hm ih => exact ih.discoverAt hi hm
  | leave _ _ ih => exact ih

/-- The stream at `q` has the one at `p` for a parent. -/
def HasParent (m : ShamonStreams) (q p : ℕ) : Prop :=
  ∃ t, m.heap q = some t ∧ t.parentStream = some p

theorem substreams_parent {m : ShamonStreams} (h : Ok m) {p q : ℕ} {s : Stream}
    (hs : m.heap p = some s) (hq : q ∈ s.substreams) : m.HasParent q p := by
  obtain ⟨j, hj⟩ := List.mem_iff_getElem?.mp hq
  obtain ⟨t, ht, hp, -⟩ := h.sub p s j q hs hj
  exact ⟨t, ht, hp⟩

theorem substreams_nodup {m : ShamonStreams} (h : Ok m) {p : ℕ} {s : Stream}
    (hs : m.heap p = some s) : s.substreams.Nodup := by
  rw [List.nodup_iff_injective_get]
  intro i j hij
  obtain ⟨t, ht, -, hk, -⟩ := h.sub p s i _ hs (List.getElem?_eq_getElem i.2)
  obtain ⟨t', ht', -, hk', -⟩ := h.sub p s j _ hs (List.getElem?_eq_getElem j.2)
  have heq : s.substreams[i.1] = s.substreams[j.1] := hij
  rw [heq] at ht
  cases ht.symm.trans ht'
  have := (subKey_inj (hk.symm.trans hk')).2
  exact Fin.ext (by omega)

/-- One stream, whose source has made a sub-buffer and announced it. -/
def oneAnnounced : ShamonStreams where
  shm key := if key = ['a'] then some ⟨32, 1, false, true⟩
    else if key = subKey ['a'] 1 then some ⟨40, 0, false, false⟩ else none
  heap p := if p = 0 then some ⟨['a'], ['a'], 32, 24, 0, none, []⟩ else none
  next := 1
  streams := [0]
  evSize := 32
  buffers := [some ⟨32, 8⟩]
  bufferThreads := [false]

theorem oneAnnounced_reached : Reached (· = ['a']) oneAnnounced none := by
  have h0 : Reached (· = ['a']) (createBuffer create ['a'] 32) none := .createBuffer _ _ .create rfl
  obtain ⟨m, hm, hfree, heq⟩ : ∃ m, (createBuffer create ['a'] 32).addNew ['a'] ['a'] 24 8 = .ok m ∧
      m.shm (subKey ['a'] 1) = none ∧
      (m.createBuffer (subKey ['a'] 1) 40).announce ['a'] = oneAnnounced := by
    refine ⟨_, rfl, rfl, ?_⟩
    unfold oneAnnounced announce
    congr 1
    · funext key
      by_cases ha : key = ['a']
      · subst ha
        rfl
      refine (Function.update_of_ne ha ..).trans ?_
      rw [if_neg ha]
      by_cases hk : key = subKey ['a'] 1
      · subst hk
        rfl
      · rw [if_neg hk]
        refine (Function.update_of_ne hk ..).trans ((Function.update_of_ne ha ..).trans ?_)
        exact Function.update_of_ne ha ..
    · funext p
      by_cases hp : p = 0
      · subst hp
        rfl
      · exact (Function.update_of_ne hp ..).trans (if_neg hp).symm
  rw [← heq]
  exact .announce _ (.createBuffer _ _ (.add ['a'] 24 8 h0 rfl hm) hfree)

/-- The sub-buffer is found, the sources end, and then the managers. -/
theorem reached_substream : ∃ m : ShamonStreams, Reached (· = ['a']) m none ∧
    m.streams.find? m.isSubstream = some 1 ∧ m.bufferThreads = [true, true] := by
  obtain ⟨m1, h1, hs1, m2, h2, hs2, hend⟩ : ∃ m1, oneAnnounced.discoverAt 0 = .ok m1 ∧
      m1.streams = [0, 1] ∧ ∃ m2, m1.discoverAt 1 = .ok m2 ∧ m2.streams = [0, 1] ∧
        let m := (m2.setDestroyed ['a']).setDestroyed (subKey ['a'] 1)
        (∃ s b, m.heap 0 = some s ∧ m.shm s.key = some b ∧ b.destroyed = true) ∧
        (∃ s b, m.heap 1 = some s ∧ m.shm s.key = some b ∧ b.destroyed = true) ∧
        m.streams.find? m.isSubstream = some 1 ∧ m.bufferThreads = [false, false] :=
    ⟨_, rfl, rfl, _, rfl, rfl, ⟨_, _, rfl, rfl, rfl⟩, ⟨_, _, rfl, rfl, rfl⟩, rfl, rfl⟩
  obtain ⟨⟨s, b, hs, hb, hd⟩, ⟨s', b', hs', hb', hd'⟩, hsub, ht⟩ := hend
  have hr1 := oneAnnounced_reached.enter.turn Nat.zero_lt_one h1
  have hr2 := hr1.turn (Nat.lt_of_lt_of_eq Nat.one_lt_two (congrArg List.length hs1).symm) h2
  have hr := (hr2.leave (congrArg List.length hs2).le).setDestroyed ['a']
  have hr := hr.setDestroyed (subKey ['a'] 1)
  have hr3 := (hr.managerExits (i := 0) (congrArg (·[0]?) hs2) hs hb hd).managerExits (i := 1)
    (congrArg (·[1]?) hs2) hs' hb' hd'
  refine ⟨_, hr3, hsub, ?_⟩
  unfold managerExits
  dsimp only
  rw [ht]
  rfl

/-- In every state of a run, between any two turns: the streams form a forest of distinct names; the
    substreams of a stream are those that have it for a parent, each once, and they are its first
    sub-buffers in order; the arbiter buffers since the last move of their vector are there, and `_ev`
    has room for an event of each of them. -/
theorem streams_form_forest {names : Text → Prop} {m : ShamonStreams} {at_ : Option ℕ}
    (hm : Reached names m at_) : m.Ok ∧ ∀ p s, m.heap p = some s →
      s.substreams.Nodup ∧ ∀ q, q ∈ s.substreams ↔ m.HasParent q p := by
  have h := hm.ok
  refine ⟨h, fun p s hs => ⟨substreams_nodup h hs, fun q => ⟨substreams_parent h hs, ?_⟩⟩⟩
  rintro ⟨t, ht, htp⟩
  obtain ⟨-, s', hs', hq⟩ := h.parent q t p ht htp
  cases hs.symm.trans hs'
  exact hq

theorem streams_form_forest_two : ∃ m : ShamonStreams, m.Ok ∧
    m.streams.find? m.isSubstream = some 1 := by
  obtain ⟨m, hr, hsub, -⟩ := reached_substream
  exact ⟨m, (streams_form_forest hr).1, hsub⟩

end ShamonStreams

end Vamos
