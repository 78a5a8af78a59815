import Mathlib.Tactic
import VamosBuffers.Core.SpscRingbuf

/-! How much memory the three kinds of buffers allocate for their rings. The ring is always made with
    one slot more than the capacity, the sizes are computed three times:

        vms_par_queue_init            (capacity + 1) * elem_size
        _vms_shm_buffer_initialize    header + elem_size * (capacity + 1), up to the next page
        initialize_local_buffer       header + elem_size * capacity, up to the next page

    All arithmetic wraps at `2^64`. A result's flag is only about the assertions, which are the only
    checks the code makes. -/

namespace Vamos
open Schemes

/-- `PAGE_SIZE`. -/
def pageSize : ℕ := 4096

/-- `sizeof(struct shmbuffer)` of a build without assertions: five cache lines for the ring, and 152
    bytes of `vms_shm_buffer_info` in three more. -/
def shmbufferBytes : ℕ := 512

/-- `compute_vms_size`; `header` is `sizeof(struct shmbuffer)`. -/
def computeVmsSize (header elemSize capacity : ℕ) : Chk ℕ := do
  let size := (elemSize * capacity % 2 ^ 64 + header) % 2 ^ 64
  let roundup := pageSize - size % pageSize
  let size := (size + roundup) % 2 ^ 64
  Chk.require (size % pageSize = 0)
  pure size

/-- What a buffer allocates, and the ring it lays over it. -/
structure Allocation where
  header : ℕ
  ring : Ringbuf
  elemSize : ℕ
  bytes : ℕ
  deriving DecidableEq, Repr

namespace Allocation

/-- `vms_par_queue_init`, as far as the memory is concerned; an allocation succeeds. -/
def parQueueInit (capacity elemSize : ℕ) : Chk Allocation := do
  Chk.require (0 < capacity)
  Chk.require (0 < elemSize)
  let ring ← Ringbuf.init ((capacity + 1) % 2 ^ 64)
  pure ⟨0, ring, elemSize, (capacity + 1) % 2 ^ 64 * elemSize % 2 ^ 64⟩

/-- `_vms_shm_buffer_initialize`, likewise. -/
def shmBufferInitialize (header elemSize capacity : ℕ) : Chk Allocation := do
  Chk.require (0 < elemSize)
  Chk.require (0 < capacity)
  let memsize ← computeVmsSize header elemSize ((capacity + 1) % 2 ^ 64)
  let ring ← Ringbuf.init ((capacity + 1) % 2 ^ 64)
  pure ⟨header, ring, elemSize, memsize⟩

/-- `initialize_local_buffer`, likewise. -/
def initializeLocalBuffer (header elemSize capacity : ℕ) : Chk Allocation := do
  Chk.require (0 < elemSize)
  let memsize ← computeVmsSize header elemSize capacity
  let ring ← Ringbuf.init ((capacity + 1) % 2 ^ 64)
  pure ⟨header, ring, elemSize, memsize⟩

end Allocation

/-- The three places. -/
inductive Site where
  | parQueue
  | shmBuffer
  | localBuffer
  deriving DecidableEq, Repr

namespace Site

def allocate (header capacity elemSize : ℕ) : Site → Chk Allocation
  | parQueue => Allocation.parQueueInit capacity elemSize
  | shmBuffer => Allocation.shmBufferInitialize header elemSize capacity
  | localBuffer => Allocation.initializeLocalBuffer header elemSize capacity

/-- When the bytes suffice: no size may wrap, and the local buffer needs the last slot to fit into
    what is left of the last page. -/
def Fits (header capacity elemSize : ℕ) : Site → Prop
  | parQueue => (capacity + 1) * elemSize < 2 ^ 64
  | shmBuffer => header + (capacity + 1) * elemSize < 2 ^ 64 - 4096
  | localBuffer => header + capacity * elemSize < 2 ^ 64 - 4096 ∧
      elemSize ≤ 4096 - (header + capacity * elemSize) % 4096

end Site

namespace Allocation

/-- Every slot an offset of the ring names lies in the allocated memory. -/
def Inside (a : Allocation) : Prop :=
  ∀ off < a.ring.capacity, a.header + (off + 1) * a.elemSize ≤ a.bytes

/-- The last slot decides. -/
theorem inside_iff_last (a : Allocation) (h : 0 < a.ring.capacity) :
    a.Inside ↔ a.header + a.ring.capacity * a.elemSize ≤ a.bytes := by
  constructor
  · intro hin
    have hlast := hin (a.ring.capacity - 1) (by omega)
    rwa [Nat.sub_add_cancel h] at hlast
  · intro hle off hoff
    have : (off + 1) * a.elemSize ≤ a.ring.capacity * a.elemSize := Nat.mul_le_mul_right _ hoff
    omega

end Allocation

/-- The size is a multiple of the page size, so no assertion fails; it is larger than what was asked
    for unless that comes within a page of `2^64`. -/
theorem computeVmsSize_val (header elemSize capacity : ℕ) :
    (computeVmsSize header elemSize capacity).val =
      let size := (header + capacity * elemSize) % 2 ^ 64
      (size + (4096 - size % 4096)) % 2 ^ 64 := by
  have hsize : (elemSize * capacity % 2 ^ 64 + header) % 2 ^ 64 =
      (header + capacity * elemSize) % 2 ^ 64 := by
    rw [Nat.mod_add_mod, Nat.mul_comm, Nat.add_comm]
  simp only [computeVmsSize, hsize]
  rfl

theorem le_computeVmsSize_iff (header elemSize capacity want : ℕ)
    (hwant : header + capacity * elemSize ≤ want) (hpos : 0 < want) :
    want ≤ (computeVmsSize header elemSize capacity).val ↔
      header + capacity * elemSize < 2 ^ 64 - 4096 ∧
        want ≤ header + capacity * elemSize + (4096 - (header + capacity * elemSize) % 4096) := by
  rw [computeVmsSize_val]
  generalize header + capacity * elemSize = size at *
  simp only
  omega

namespace Site

/-- What the assertions let pass: the ring has one slot more than the capacity. -/
theorem accepted {site : Site} {header capacity elemSize : ℕ} (hc : capacity < 2 ^ 64)
    (h : (site.allocate header capacity elemSize).ok = true) :
    0 < elemSize ∧ (capacity + 1) % 2 ^ 64 = capacity + 1 := by
  cases site <;>
    simp only [allocate, Allocation.parQueueInit, Allocation.shmBufferInitialize,
      Allocation.initializeLocalBuffer, Chk.bind_ok, Chk.require_ok, Ringbuf.init] at h <;>
    omega

theorem ring_capacity (site : Site) (header capacity elemSize : ℕ) :
    (site.allocate header capacity elemSize).val.ring.capacity = (capacity + 1) % 2 ^ 64 := by
  cases site <;> rfl

/-- Where the assertions hold, the slots lie in the memory exactly if the sizes fit. -/
theorem slots_inside_iff (site : Site) {header capacity elemSize : ℕ} (hc : capacity < 2 ^ 64)
    (h : (site.allocate header capacity elemSize).ok = true) :
    (site.allocate header capacity elemSize).val.Inside ↔ site.Fits header capacity elemSize := by
  obtain ⟨he, hslots⟩ := accepted hc h
  have hpos : 0 < (capacity + 1) * elemSize := Nat.mul_pos (by omega) he
  rw [Allocation.inside_iff_last _ (by rw [ring_capacity, hslots]; omega), ring_capacity, hslots]
  cases site with
  | parQueue =>
    simp only [allocate, Allocation.parQueueInit, Chk.bind_val, Chk.pure_val, hslots, Fits]
    omega
  | shmBuffer =>
    simp only [allocate, Allocation.shmBufferInitialize, Chk.bind_val, Chk.pure_val, hslots, Fits]
    rw [le_computeVmsSize_iff _ _ _ _ (le_refl _) (by omega)]
    omega
  | localBuffer =>
    have hmul : (capacity + 1) * elemSize = capacity * elemSize + elemSize := by ring
    simp only [allocate, Allocation.initializeLocalBuffer, Chk.bind_val, Chk.pure_val, Fits]
    rw [le_computeVmsSize_iff _ _ _ _ (by omega) (by omega)]
    omega

/-- A shared buffer of 64 events of 24 bytes. -/
theorem slots_inside_shared :
    (shmBuffer.allocate shmbufferBytes 64 24).val.Inside :=
  (slots_inside_iff shmBuffer (by decide) (by decide)).mpr (by unfold Fits; decide)

/-- The last slot of a local buffer of 149 elements of 24 bytes lies over the end of its page; the
    sizes of the other two wrap to less than a slot. -/
theorem slots_outside :
    ((localBuffer.allocate shmbufferBytes 149 24).ok = true ∧
      ¬ (localBuffer.allocate shmbufferBytes 149 24).val.Inside) ∧
    ((parQueue.allocate shmbufferBytes (2 ^ 63 - 1) 2).ok = true ∧
      ¬ (parQueue.allocate shmbufferBytes (2 ^ 63 - 1) 2).val.Inside) ∧
    ((shmBuffer.allocate shmbufferBytes (2 ^ 63 - 1) 2).ok = true ∧
      ¬ (shmBuffer.allocate shmbufferBytes (2 ^ 63 - 1) 2).val.Inside) := by
  refine ⟨⟨by decide, fun h => ?_⟩, ⟨by decide, fun h => ?_⟩, ⟨by decide, fun h => ?_⟩⟩
  · exact absurd (h 149 (by decide)) (by decide)
  · exact absurd (h 0 (by decide)) (by decide)
  · exact absurd (h (2 ^ 63 - 1) (by decide)) (by decide)

end Site

end Vamos
