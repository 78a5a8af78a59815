import Mathlib.Tactic
import VamosBuffers.Core.Source
import VamosBuffers.Shmbuf.Sizes

/-! The shared copy of a control block: `create_shared_control_buffer` of
    `src/shmbuf/buffer-control.c`, and the two functions of `src/shmbuf/buffer.c` that read the size of
    an element from the copy.

        given           mapped     copied `size`    records
        8 + n * 112     the same   8 + n * 112      n
        0               8          0                (0 - 8) / 112, wrapped

    A control block of size 0 says that no control buffer is wanted; the file then has room for the
    size alone, and the size in it is still 0. -/

namespace Vamos
open Schemes

namespace Control

/-- `create_shared_control_buffer`; the calls to the system succeed. As many bytes are copied as are
    mapped, and the records are those that lie in them. -/
def createShared (control : Control) : Chk Control := do
  let size := if control.size = 0 then headBytes else control.size
  Chk.require (headBytes ≤ size)
  pure { control with events := control.events.take ((size - headBytes) / EventRecord.bytes) }

/-- `_vms_shm_buffer_initialize`, called with the element size that was found; nothing, where the
    search for it read beyond the mapped records. -/
def initializeFound (header capacity : ℕ) (ctrl : Control) :
    Option ℕ → Chk (Option (Control × Allocation))
  | none => pure none
  | some elemSize => do
    let a ← Allocation.shmBufferInitialize header elemSize capacity
    pure (some (ctrl, a))

/-- `vms_shm_buffer_create`, as far as the memory is concerned. -/
def shmBufferCreate (header capacity : ℕ) (control : Control) :
    Chk (Option (Control × Allocation)) := do
  let ctrl ← control.createShared
  let elemSize ← ctrl.maxEventSize
  initializeFound header capacity ctrl elemSize

/-- The element size of `vms_shm_buffer_create_adv`. -/
def chooseSize (ctrl : Control) (elemSize : ℕ) : Chk (Option ℕ) :=
  if elemSize = 0 then ctrl.maxEventSize else pure (some elemSize)

/-- `vms_shm_buffer_create_adv`, likewise. -/
def shmBufferCreateAdv (header elemSize capacity : ℕ) (control : Control) :
    Chk (Option (Control × Allocation)) := do
  let ctrl ← control.createShared
  let elemSize ← ctrl.chooseSize elemSize
  initializeFound header capacity ctrl elemSize

/-- The control blocks that are given: one that was built from records, or one of size 0. -/
inductive Given : Control → Prop
  | built (recs : List EventRecord) (h : headBytes + recs.length * EventRecord.bytes < 2 ^ 64) :
      Given ⟨headBytes + recs.length * EventRecord.bytes, recs.map some⟩
  | nothing : Given ⟨0, []⟩

/-- The largest size of the records. -/
def largest (control : Control) : ℕ :=
  (control.events.map fun r => r.elim 0 EventRecord.size).foldl max 0

/-- The shared copy has as many records as the original, nothing wraps on the way to their number, and
    the largest of their sizes is found by looking at exactly these. -/
structure KeepsCount (control : Control) : Prop where
  num : (control.createShared.val.getRecordsNum).val = control.events.length
  unwrapped : (control.createShared.val.getRecordsNum).ok = true
  scanned : (control.createShared.val.maxEventSize).val = some control.largest
  created : ∀ header capacity, (shmBufferCreate header capacity control).val =
    some (control.createShared.val,
      (Allocation.shmBufferInitialize header control.largest capacity).val)
  createdAdv : ∀ header elemSize capacity,
    (shmBufferCreateAdv header elemSize capacity control).val =
      some (control.createShared.val, (Allocation.shmBufferInitialize header
        (if elemSize = 0 then control.largest else elemSize) capacity).val)

/-- The loop looks at all records and keeps the largest size. -/
theorem maxSizeFrom_map (seen recs : List EventRecord) (m : ℕ) :
    maxSizeFrom ((seen ++ recs).map some) recs.length seen.length m =
      some ((recs.map EventRecord.size).foldl max m) := by
  induction recs generalizing seen m with
  | nil => simp [maxSizeFrom]
  | cons r recs ih =>
    have hr : ((seen ++ r :: recs).map some)[seen.length]? = some (some r) := by simp
    have hmax : (if m < r.size then r.size else m) = max m r.size := by
      split <;> omega
    have hnext := ih (seen ++ [r]) (max m r.size)
    simp only [List.append_assoc, List.singleton_append, List.length_append, List.length_singleton]
      at hnext
    simp only [List.length_cons, maxSizeFrom, hr, hmax, hnext, List.map_cons, List.foldl_cons]

/-- A block that was built is copied as it is. -/
theorem createShared_built (recs : List EventRecord) :
    (createShared ⟨headBytes + recs.length * EventRecord.bytes, recs.map some⟩).val =
      ⟨headBytes + recs.length * EventRecord.bytes, recs.map some⟩ := by
  have hne : headBytes + recs.length * EventRecord.bytes ≠ 0 := by
    simp only [headBytes]
    omega
  have hnum : (headBytes + recs.length * EventRecord.bytes - headBytes) / EventRecord.bytes =
      recs.length := by
    rw [Nat.add_sub_cancel_left]
    exact Nat.mul_div_cancel _ (by decide)
  simp only [createShared, hne, if_false, Chk.bind_val, Chk.pure_val, hnum]
  rw [List.take_of_length_le (by simp)]

theorem getRecordsNum_built {recs : List EventRecord}
    (h : headBytes + recs.length * EventRecord.bytes < 2 ^ 64) :
    getRecordsNum ⟨headBytes + recs.length * EventRecord.bytes, recs.map some⟩ =
      pure recs.length := by
  have hnum : recs.length * EventRecord.bytes / EventRecord.bytes = recs.length :=
    Nat.mul_div_cancel _ (by decide)
  simp only [getRecordsNum, Chk.sub_eq (Nat.le_add_right _ _) h, pure_bind, Nat.add_sub_cancel_left,
    hnum]

theorem maxEventSize_built {recs : List EventRecord}
    (h : headBytes + recs.length * EventRecord.bytes < 2 ^ 64) :
    (maxEventSize ⟨headBytes + recs.length * EventRecord.bytes, recs.map some⟩).val =
      some (largest ⟨headBytes + recs.length * EventRecord.bytes, recs.map some⟩) := by
  have hloop := maxSizeFrom_map [] recs 0
  have hsizes : (recs.map some).map (fun r => r.elim 0 EventRecord.size) =
      recs.map EventRecord.size := by simp
  rw [List.nil_append, List.length_nil] at hloop
  rw [maxEventSize, getRecordsNum_built h, pure_bind, Chk.pure_val, hloop, largest, hsizes]

theorem initializeFound_bind {m : Chk (Option ℕ)} {n : ℕ} (h : m.val = some n)
    (header capacity : ℕ) (ctrl : Control) :
    (m >>= fun elemSize => initializeFound header capacity ctrl elemSize).val =
      some (ctrl, (Allocation.shmBufferInitialize header n capacity).val) := by
  obtain ⟨v, ok⟩ := m
  obtain rfl : v = some n := h
  rfl

theorem shmBufferCreate_val {control : Control} {n : ℕ}
    (h : control.createShared.val.maxEventSize.val = some n) (header capacity : ℕ) :
    (shmBufferCreate header capacity control).val =
      some (control.createShared.val, (Allocation.shmBufferInitialize header n capacity).val) := by
  rw [shmBufferCreate, Chk.bind_val]
  exact initializeFound_bind h header capacity _

theorem shmBufferCreateAdv_val {control : Control} {n : ℕ}
    (h : control.createShared.val.maxEventSize.val = some n) (header elemSize capacity : ℕ) :
    (shmBufferCreateAdv header elemSize capacity control).val =
      some (control.createShared.val, (Allocation.shmBufferInitialize header
        (if elemSize = 0 then n else elemSize) capacity).val) := by
  have hsize : (control.createShared.val.chooseSize elemSize).val =
      some (if elemSize = 0 then n else elemSize) := by
    rw [chooseSize]
    split
    · exact h
    · rfl
  rw [shmBufferCreateAdv, Chk.bind_val]
  exact initializeFound_bind hsize header capacity _

/-- The count is kept exactly where there is one. -/
theorem keepsCount_iff {control : Control} (h : control.Given) :
    control.KeepsCount ↔ control.size ≠ 0 := by
  cases h with
  | built recs h =>
    have hnum := getRecordsNum_built h
    have hscan := maxEventSize_built h
    have hshared := createShared_built recs
    generalize hg : (⟨headBytes + recs.length * EventRecord.bytes, recs.map some⟩ : Control) =
      control at *
    have hlen : control.events.length = recs.length := by
      rw [← hg, List.length_map]
    have hsize : control.size ≠ 0 := by simp [← hg, headBytes]
    refine iff_of_true ⟨?_, ?_, ?_, ?_, ?_⟩ hsize
    · rw [hshared, hnum, hlen, Chk.pure_val]
    · rw [hshared, hnum, Chk.pure_ok]
    · rw [hshared, hscan]
    · exact shmBufferCreate_val (hshared.symm ▸ hscan)
    · exact shmBufferCreateAdv_val (hshared.symm ▸ hscan)
  | nothing =>
    refine iff_of_false (fun h => ?_) (by simp)
    exact absurd h.unwrapped (by decide)

/-- The records of `a:l` and `b:i`. -/
def twoRecords : List EventRecord :=
  [⟨strncpy 63 ['a'] ++ ['\x00'], 0, 24, strncpy 31 ['l'] ++ ['\x00']⟩,
    ⟨strncpy 63 ['b'] ++ ['\x00'], 0, 20, strncpy 31 ['i'] ++ ['\x00']⟩]

theorem keepsCount_two :
    KeepsCount ⟨headBytes + twoRecords.length * EventRecord.bytes, twoRecords.map some⟩ :=
  (keepsCount_iff (.built twoRecords (by simp [twoRecords, headBytes, EventRecord.bytes]))).mpr
    (by simp [headBytes])

/-- No control buffer is wanted, and its copy claims more than `10^17` records. -/
theorem not_keepsCount_nothing :
    ((createShared ⟨0, []⟩).val.getRecordsNum).val = 164703072086692425 ∧
      Given ⟨0, []⟩ ∧ ¬ KeepsCount ⟨0, []⟩ :=
  ⟨by decide, .nothing, fun h => absurd h.unwrapped (by decide)⟩

end Control

end Vamos
