import Mathlib.Tactic
import VamosBuffers.Schemes.Blocks
import VamosBuffers.Schemes.Operations
import VamosBuffers.Core.ParQueue

/-! `src/core/vector.c` and `src/core/vector-aligned.c`: a vector of elements of `element_size` bytes.

        data   │ e₀ │ e₁ │ … │ e_{size-1} │ … not in use … │      alloc_size elements in all

    The plain vector grows by `realloc`. The aligned one cannot: it allocates new storage and copies
    the old one by hand. What new storage holds is arbitrary, and `posix_memalign` does not give any
    for every alignment. -/

namespace Vamos
open Schemes

/-- `vms_vector`. The storage has `alloc_size * element_size` bytes. -/
structure Vec where
  size : ℕ
  elementSize : ℕ
  allocSize : ℕ
  data : Bytes
  deriving DecidableEq, Repr

namespace Vec

/-- `vms_vector_init`. -/
def init (elemSize : ℕ) : Vec := ⟨0, elemSize, 0, []⟩

/-- `vms_vector_at(vec, i)` for an `i` below the size: the bytes of the element. -/
def elemAt (v : Vec) (i : ℕ) : Bytes := block v.elementSize v.data i

/-- The caller writes the slot at `addr`. -/
def write (addr : ℕ) (x : Bytes) (v : Vec) : Vec := { v with data := overwrite v.data addr x }

/-- The common end of the `extend` functions of the two vectors: the address of the slot after the
    last element. -/
def takeSlot (v : Vec) : Chk (ℕ × Vec) := do
  Chk.require (v.size < v.allocSize)
  Chk.require (0 < v.elementSize)
  let addr ← Chk.mul v.size v.elementSize
  let size ← Chk.add v.size 1
  pure (addr, { v with size := size })

/-- `vms_vector_extend`. When all slots are in use there is room for ten more; `storage` says what the
    new storage holds, given its size in bytes. -/
def extendBy (storage : Vec → ℕ → Bytes) (v : Vec) : Chk (ℕ × Vec) := do
  if v.allocSize ≤ v.size then do
    let allocSize ← Chk.add v.allocSize 10
    Chk.require (0 < v.elementSize)
    let bytes ← Chk.mul allocSize v.elementSize
    takeSlot { v with allocSize := allocSize, data := storage v bytes }
  else v.takeSlot

/-- `realloc`; `fresh` is what new memory holds. -/
def enlarge (fresh : ℕ → UInt8) (v : Vec) (bytes : ℕ) : Bytes := reallocate fresh v.data bytes

/-- `vms_vector_extend`. -/
def extend (fresh : ℕ → UInt8) (v : Vec) : Chk (ℕ × Vec) := v.extendBy (enlarge fresh)

/-- `vms_vector_push`; also `vms_vector_extend` by a caller that then writes the element. -/
def push (fresh : ℕ → UInt8) (x : Bytes) (v : Vec) : Chk Vec := do
  let (addr, v) ← v.extend fresh
  pure (v.write addr x)

/-- `vms_vector_pop`. -/
def pop (v : Vec) : Chk Vec := do
  Chk.require (0 < v.size)
  let size ← Chk.sub v.size 1
  pure { v with size := size }

/-- The common end of `vms_vector_resize`: clear, and set the size. The length given to `memset` is
    a number of elements. -/
def zeroTo (n : ℕ) (v : Vec) : Chk Vec := do
  let addr ← Chk.mul v.size v.elementSize
  let len ← Chk.sub n v.size
  pure { v with data := overwrite v.data addr (List.replicate len 0), size := n }

/-- `vms_vector_resize`. -/
def resize (fresh : ℕ → UInt8) (n : ℕ) (v : Vec) : Chk Vec := do
  if n ≤ v.size then pure v
  else if v.allocSize ≤ n then do
    Chk.require (0 < v.elementSize)
    let bytes ← Chk.mul n v.elementSize
    zeroTo n { v with allocSize := n, data := reallocate fresh v.data bytes }
  else v.zeroTo n

/-- `vms_vector_swap`: everything but the element size changes places. -/
def swap (v w : Vec) : Chk (Vec × Vec) := do
  Chk.require (v.elementSize = w.elementSize)
  pure ({ w with elementSize := v.elementSize }, { v with elementSize := w.elementSize })

/-! ### Storage -/

/-- The storage is as large as the fields say, and the elements fit. -/
structure Ok (k : ℕ) (v : Vec) : Prop where
  elemSize : v.elementSize = k
  pos : 0 < k
  le : v.size ≤ v.allocSize
  data : v.data.length = v.allocSize * k
  fits : v.allocSize * k < 2 ^ 64

/-- The vector is the list `ys`: its size is the length, and each element holds the bytes of its
    block. -/
structure Is (v : Vec) (ys : List Bytes) : Prop where
  size : v.size = ys.length
  elemAt : ∀ i y, ys[i]? = some y → v.elemAt i = y

variable {k : ℕ} {v : Vec} {ys : List Bytes}

theorem init_ok (hk : 0 < k) : Ok k (init k) := ⟨rfl, hk, le_rfl, by simp [init], by simp [init]⟩

theorem init_is (k : ℕ) : Is (init k) [] := ⟨rfl, nofun⟩

theorem Ok.is_iff (h : Ok k v) (hys : ∀ y ∈ ys, y.length = k) :
    v.Is ys ↔ v.size = ys.length ∧ Held k v.data ys := by
  constructor
  · rintro ⟨hs, he⟩
    have hle : ys.length * k ≤ v.data.length := by
      rw [h.data, ← hs]; exact Nat.mul_le_mul_right k h.le
    refine ⟨hs, (held_iff h.pos hys hle).mpr fun i y hy => ?_⟩
    rw [← h.elemSize]
    exact he i y hy
  · rintro ⟨hs, he⟩
    have hle : ys.length * k ≤ v.data.length := by
      rw [h.data, ← hs]; exact Nat.mul_le_mul_right k h.le
    refine ⟨hs, fun i y hy => ?_⟩
    rw [Vec.elemAt, h.elemSize]
    exact (held_iff h.pos hys hle).mp he i y hy

/-! ### One more element -/

/-- The storage has to stay below `2 ^ 64` bytes. -/
def MayGrow (k : ℕ) (v : Vec) : Prop := v.allocSize ≤ v.size → (v.allocSize + 10) * k < 2 ^ 64

instance (k : ℕ) (v : Vec) : Decidable (MayGrow k v) :=
  inferInstanceAs (Decidable (_ → _))

/-- The vector that the two `extend` functions go on with. -/
def grownBy (storage : Vec → ℕ → Bytes) (v : Vec) : Vec :=
  if v.allocSize ≤ v.size then
    { v with allocSize := v.allocSize + 10, data := storage v ((v.allocSize + 10) * v.elementSize) }
  else v

/-- The element put after the last one. -/
def appended (x : Bytes) (v : Vec) : Vec :=
  ({ v with size := v.size + 1 } : Vec).write (v.size * v.elementSize) x

variable {storage : Vec → ℕ → Bytes} {x : Bytes}

theorem takeSlot_eq (h : Ok k v) (hlt : v.size < v.allocSize) :
    v.takeSlot = pure (v.size * v.elementSize, { v with size := v.size + 1 }) := by
  have hk := h.pos
  have hfit := h.fits
  have h1 : v.size * k ≤ v.allocSize * k := Nat.mul_le_mul_right k h.le
  have h2 : v.allocSize ≤ v.allocSize * k := Nat.le_mul_of_pos_right _ hk
  unfold takeSlot
  rw [h.elemSize, Chk.require_eq hlt, Chk.require_eq hk, Chk.mul_eq (by omega),
    Chk.add_eq (by omega)]
  rfl

theorem Ok.grownBy (h : Ok k v) (hm : MayGrow k v) (hs : ∀ n, (storage v n).length = n ∨ n < v.size) :
    Ok k (v.grownBy storage) ∧ (v.grownBy storage).size < (v.grownBy storage).allocSize := by
  have hle := h.le
  unfold Vec.grownBy
  split
  case isTrue hf =>
    have hlen : (storage v ((v.allocSize + 10) * v.elementSize)).length =
        (v.allocSize + 10) * v.elementSize := by
      rcases hs ((v.allocSize + 10) * v.elementSize) with hl | hl
      · exact hl
      · have hk := h.pos
        rw [h.elemSize] at hl
        have := Nat.le_mul_of_pos_right (v.allocSize + 10) hk
        omega
    refine ⟨⟨h.elemSize, h.pos, ?_, by rw [hlen, h.elemSize], hm hf⟩, ?_⟩
    · show v.size ≤ v.allocSize + 10
      omega
    · show v.size < v.allocSize + 10
      omega
  case isFalse hf => exact ⟨h, by omega⟩

/-- Extending and writing the slot is growing and appending. -/
theorem extendBy_write (h : Ok k v) (hm : MayGrow k v)
    (hs : ∀ n, (storage v n).length = n ∨ n < v.size) (x : Bytes) :
    (do
      let (addr, v) ← v.extendBy storage
      pure (v.write addr x) : Chk Vec) = pure ((v.grownBy storage).appended x) := by
  obtain ⟨hok, hlt⟩ := h.grownBy hm hs
  have hslot := takeSlot_eq hok hlt
  have hext : v.extendBy storage = (v.grownBy storage).takeSlot := by
    unfold extendBy Vec.grownBy
    split
    case isTrue hf =>
      have hk := h.pos
      have hmf := hm hf
      have h1 : v.allocSize + 10 ≤ (v.allocSize + 10) * k := Nat.le_mul_of_pos_right _ hk
      have h2 : (v.allocSize + 10) * v.elementSize < 2 ^ 64 := by rw [h.elemSize]; exact hmf
      rw [Chk.add_eq (by omega), pure_bind, Chk.require_eq (h.elemSize ▸ hk), pure_bind,
        Chk.mul_eq h2, pure_bind]
    case isFalse hf => rfl
  rw [hext, hslot]
  rfl

/-- The elements are those before and the new one, if the others are where they were. -/
theorem appended_is_iff (h : Ok k v) (hlt : v.size < v.allocSize) (hys : ∀ y ∈ ys, y.length = k)
    (hx : x.length = k) :
    Ok k (v.appended x) ∧ ((v.appended x).Is (ys ++ [x]) ↔ v.Is ys) := by
  have hle : (v.size + 1) * k ≤ v.data.length := by
    rw [h.data]; exact Nat.mul_le_mul_right k hlt
  have hmul : (v.size + 1) * k = v.size * k + k := Nat.succ_mul _ _
  have hlen : (overwrite v.data (v.size * v.elementSize) x).length = v.data.length :=
    length_overwrite (by rw [h.elemSize, hx]; omega)
  have hok : Ok k (v.appended x) := ⟨h.elemSize, h.pos, hlt, hlen.trans h.data, h.fits⟩
  refine ⟨hok, ?_⟩
  have hys' : ∀ y ∈ ys ++ [x], y.length = k := by
    intro y hy
    rcases List.mem_append.mp hy with hy | hy
    · exact hys y hy
    · rw [List.mem_singleton.mp hy]; exact hx
  rw [hok.is_iff hys', h.is_iff hys]
  have hsize : (v.appended x).size = (ys ++ [x]).length ↔ v.size = ys.length := by
    rw [List.length_append, List.length_singleton]
    exact Nat.succ_inj
  rw [hsize]
  refine and_congr_right fun hs => ?_
  have hd : (v.appended x).data = overwrite v.data (ys.length * k) x := by
    rw [← hs, ← h.elemSize]; rfl
  rw [hd]
  exact held_push hys hx (by rw [← hs]; exact hle)

/-- The same elements in other storage: they are there if their bytes are. -/
theorem grownBy_is_iff (h : Ok k v) (hm : MayGrow k v)
    (hs : ∀ n, (storage v n).length = n ∨ n < v.size) (hys : ∀ y ∈ ys, y.length = k)
    (hv : v.Is ys) : (v.grownBy storage).Is ys ↔ (v.allocSize ≤ v.size →
      ∀ b < v.size * k, (storage v ((v.allocSize + 10) * k))[b]? = v.data[b]?) := by
  obtain ⟨hsize, hheld⟩ := (h.is_iff hys).mp hv
  rw [(h.grownBy hm hs).1.is_iff hys]
  unfold Vec.grownBy
  split
  case isTrue hf =>
    rw [h.elemSize]
    constructor
    · rintro ⟨-, hg⟩ _ b hb
      exact (held_congr hheld).mp hg b (hsize ▸ hb)
    · intro hb
      exact ⟨hsize, (held_congr hheld).mpr fun b hlt => hb hf b (by rw [hsize]; exact hlt)⟩
  case isFalse hf => exact ⟨fun _ h' => absurd h' hf, fun _ => ⟨hsize, hheld⟩⟩

/-- One more element. -/
theorem extendBy_is_iff (h : Ok k v) (hm : MayGrow k v)
    (hs : ∀ n, (storage v n).length = n ∨ n < v.size) (hys : ∀ y ∈ ys, y.length = k)
    (hx : x.length = k) (hv : v.Is ys) :
    Ok k ((v.grownBy storage).appended x) ∧ (((v.grownBy storage).appended x).Is (ys ++ [x]) ↔
      (v.allocSize ≤ v.size →
        ∀ b < v.size * k, (storage v ((v.allocSize + 10) * k))[b]? = v.data[b]?)) := by
  obtain ⟨hok, hlt⟩ := h.grownBy hm hs
  obtain ⟨hok', hi⟩ := appended_is_iff hok hlt hys hx
  exact ⟨hok', hi.trans (grownBy_is_iff h hm hs hys hv)⟩

/-! ### The plain vector -/

/-- `realloc` keeps the elements. -/
theorem push_is (h : Ok k v) (hm : MayGrow k v) (hys : ∀ y ∈ ys, y.length = k) (hx : x.length = k)
    (fresh : ℕ → UInt8) :
    Ok k (v.push fresh x).val ∧ (v.Is ys → (v.push fresh x).val.Is (ys ++ [x])) := by
  have hs : ∀ n, (enlarge fresh v n).length = n ∨ n < v.size := fun n => .inl (length_reallocate ..)
  have hp : v.push fresh x = pure ((v.grownBy (enlarge fresh)).appended x) :=
    extendBy_write h hm hs x
  obtain ⟨hok, hlt⟩ := h.grownBy hm hs
  rw [hp, Chk.pure_val]
  refine ⟨(appended_is_iff hok hlt hys hx).1, fun hv => ?_⟩
  refine (extendBy_is_iff h hm hs hys hx hv).2.mpr fun _ b hb => ?_
  have hle : v.size * k ≤ v.allocSize * k := Nat.mul_le_mul_right k h.le
  have hmul : (v.allocSize + 10) * k = v.allocSize * k + 10 * k := Nat.add_mul _ _ _
  rw [enlarge, getElem?_reallocate fresh v.data (by omega), if_pos (by rw [h.data]; omega)]

theorem pop_is (h : Ok k v) (h0 : 0 < v.size) (hys : ∀ y ∈ ys, y.length = k) :
    Ok k v.pop.val ∧ (v.Is ys → v.pop.val.Is ys.dropLast) := by
  have hfit := h.fits
  have h1 : v.allocSize ≤ v.allocSize * k := Nat.le_mul_of_pos_right _ h.pos
  have hle := h.le
  have hp : v.pop = pure { v with size := v.size - 1 } := by
    unfold pop
    rw [Chk.require_eq h0, pure_bind, Chk.sub_eq h0 (by omega), pure_bind]
  have hok : Ok k { v with size := v.size - 1 } :=
    ⟨h.elemSize, h.pos, (Nat.sub_le _ _).trans hle, h.data, h.fits⟩
  rw [hp, Chk.pure_val]
  refine ⟨hok, fun hv => ?_⟩
  obtain ⟨hsize, hheld⟩ := (h.is_iff hys).mp hv
  refine (hok.is_iff fun y hy => hys y (List.mem_of_mem_dropLast hy)).mpr ⟨?_, hheld.dropLast hys⟩
  rw [List.length_dropLast, ← hsize]

/-- The storage that `vms_vector_resize` goes on with. -/
def roomFor (fresh : ℕ → UInt8) (n : ℕ) (v : Vec) : Vec :=
  if v.allocSize ≤ n then
    { v with allocSize := n, data := reallocate fresh v.data (n * v.elementSize) }
  else v

/-- The bytes of the new elements that `memset` does not reach are 0 already. -/
def ZeroAlready (fresh : ℕ → UInt8) (n : ℕ) (v : Vec) : Prop :=
  ∀ b, v.size * v.elementSize + (n - v.size) ≤ b → b < n * v.elementSize →
    (v.data[b]?).getD (fresh b) = 0

theorem Ok.roomFor (h : Ok k v) {n : ℕ} (hlt : v.size < n) (hn : n * k < 2 ^ 64)
    (fresh : ℕ → UInt8) : Ok k (v.roomFor fresh n) ∧ n ≤ (v.roomFor fresh n).allocSize := by
  unfold Vec.roomFor
  split
  case isTrue hf =>
    exact ⟨⟨h.elemSize, h.pos, hlt.le, by rw [length_reallocate, h.elemSize], hn⟩, le_rfl⟩
  case isFalse hf => exact ⟨h, by omega⟩

/-- The bytes of that storage. -/
theorem Ok.roomFor_byte (h : Ok k v) {n b : ℕ} (hb : b < n * k) (fresh : ℕ → UInt8) :
    (v.roomFor fresh n).data[b]? = some ((v.data[b]?).getD (fresh b)) := by
  unfold Vec.roomFor
  split
  case isTrue hf =>
    rw [h.elemSize, getElem?_reallocate fresh v.data hb]
    split
    case isTrue hlt => rw [List.getElem?_eq_getElem hlt]; rfl
    case isFalse hlt => rw [List.getElem?_eq_none (by omega)]; rfl
  case isFalse hf =>
    have hle : n * k ≤ v.allocSize * k := Nat.mul_le_mul_right k (by omega)
    have hlt : b < v.data.length := by rw [h.data]; omega
    rw [List.getElem?_eq_getElem hlt]
    rfl

theorem resize_eq (h : Ok k v) {n : ℕ} (hlt : v.size < n) (hn : n * k < 2 ^ 64)
    (fresh : ℕ → UInt8) : v.resize fresh n = pure { v.roomFor fresh n with
      data := overwrite (v.roomFor fresh n).data (v.size * k) (List.replicate (n - v.size) 0),
      size := n } := by
  have hzero : ∀ {w : Vec}, w.size = v.size → w.elementSize = k → w.zeroTo n = pure { w with
      data := overwrite w.data (v.size * k) (List.replicate (n - v.size) 0), size := n } := by
    intro w hw hk
    have hle : v.size * k ≤ n * k := Nat.mul_le_mul_right k hlt.le
    have hnk : n ≤ n * k := Nat.le_mul_of_pos_right _ h.pos
    unfold zeroTo
    rw [hw, hk, Chk.mul_eq (by omega), pure_bind, Chk.sub_eq hlt.le (by omega), pure_bind]
  unfold resize Vec.roomFor
  rw [if_neg (by omega)]
  split
  case isTrue hf =>
    have hn' : n * v.elementSize < 2 ^ 64 := by rw [h.elemSize]; exact hn
    rw [Chk.require_eq (h.elemSize ▸ h.pos), pure_bind, Chk.mul_eq hn', pure_bind]
    exact hzero rfl h.elemSize
  case isFalse hf => exact hzero rfl h.elemSize

/-- The list that `vms_vector_resize` is to make of `ys`. -/
def resized (k n : ℕ) (ys : List Bytes) : List Bytes :=
  ys ++ List.replicate (n - ys.length) (List.replicate k 0)

/-- `vms_vector_resize` to a larger size: the elements are kept, and zeros follow if the bytes that
    `memset` does not reach are zeros. -/
theorem resize_is_iff_of_lt (h : Ok k v) {n : ℕ} (hlt : v.size < n) (hn : n * k < 2 ^ 64)
    (hys : ∀ y ∈ ys, y.length = k) (fresh : ℕ → UInt8) :
    Ok k (v.resize fresh n).val ∧ (v.Is ys →
      ((v.resize fresh n).val.Is (resized k n ys) ↔ ZeroAlready fresh n v)) := by
  obtain ⟨hok, hle⟩ := h.roomFor hlt hn fresh
  have hlen : n * k ≤ (v.roomFor fresh n).data.length := by
    rw [hok.data]; exact Nat.mul_le_mul_right k hle
  have hmul : n * k = v.size * k + (n - v.size) * k := by
    rw [← Nat.add_mul, Nat.add_sub_cancel' hlt.le]
  have hsub : n - v.size ≤ (n - v.size) * k := Nat.le_mul_of_pos_right _ h.pos
  rw [resize_eq h hlt hn fresh, Chk.pure_val]
  have hokw : Ok k { v.roomFor fresh n with
      data := overwrite (v.roomFor fresh n).data (v.size * k) (List.replicate (n - v.size) 0),
      size := n } :=
    ⟨hok.elemSize, hok.pos, hle,
      (length_overwrite (by rw [List.length_replicate]; omega)).trans hok.data, hok.fits⟩
  refine ⟨hokw, fun hv => ?_⟩
  obtain ⟨hsize, hheld⟩ := (h.is_iff hys).mp hv
  have hys' : ∀ y ∈ resized k n ys, y.length = k := by
    intro y hy
    rcases List.mem_append.mp hy with hy | hy
    · exact hys y hy
    · rw [List.eq_of_mem_replicate hy, List.length_replicate]
  have hkeep : Held k (v.roomFor fresh n).data ys := by
    refine (held_congr hheld).mpr fun b hb => ?_
    rw [← hsize] at hb
    have hdl : b < v.data.length := by
      rw [h.data]
      exact hb.trans_le (Nat.mul_le_mul_right k h.le)
    rw [h.roomFor_byte (by omega) fresh, List.getElem?_eq_getElem hdl]
    rfl
  have hadd : ys.length + (n - ys.length) = n := by omega
  have hfill := held_fill (z := (0 : UInt8)) (m := n - ys.length) hys h.pos
    (show (ys.length + (n - ys.length)) * k ≤ (v.roomFor fresh n).data.length by
      rw [hadd]; exact hlen)
  rw [hadd] at hfill
  rw [hokw.is_iff hys', resized, ZeroAlready, h.elemSize, hsize, hfill]
  constructor
  · rintro ⟨-, -, hz⟩ b h1 h2
    have := hz b h1 h2
    rw [h.roomFor_byte h2 fresh] at this
    exact Option.some.inj this
  · intro hz
    refine ⟨?_, hkeep, fun b h1 h2 => ?_⟩
    · rw [List.length_append, List.length_replicate, hadd]
    · rw [h.roomFor_byte h2 fresh, hz b h1 h2]

theorem resize_is_iff (h : Ok k v) {n : ℕ} (hn : n * k < 2 ^ 64) (hys : ∀ y ∈ ys, y.length = k)
    (fresh : ℕ → UInt8) : Ok k (v.resize fresh n).val ∧ (v.Is ys →
      ((v.resize fresh n).val.Is (resized k n ys) ↔ ZeroAlready fresh n v)) := by
  rcases Nat.lt_or_ge v.size n with hlt | hge
  · exact resize_is_iff_of_lt h hlt hn hys fresh
  · -- nothing changes, and there are no bytes to clear
    have hr : v.resize fresh n = pure v := by rw [resize, if_pos hge]
    rw [hr, Chk.pure_val]
    refine ⟨h, fun hv => ?_⟩
    have hnil : resized k n ys = ys := by
      rw [resized, ← hv.size, Nat.sub_eq_zero_of_le hge, List.replicate_zero, List.append_nil]
    have hle := Nat.mul_le_mul_right v.elementSize hge
    rw [hnil]
    exact ⟨fun _ b h1 h2 => absurd h2 (by omega), fun _ => hv⟩

/-! ### The aligned vector -/

/-- `memcpy` from the old storage to the new one. The length is a number of elements. -/
def copyTo (v : Vec) (newData : Bytes) : Bytes :=
  if 0 < v.size then overwrite newData 0 (v.data.take v.size) else newData

/-- The bytes of the elements that `memcpy` does not copy are in the new storage already. -/
def MovesWhole (fresh : ℕ → UInt8) (v : Vec) : Prop :=
  ∀ b, v.size ≤ b → b < v.size * v.elementSize → v.data[b]? = some (fresh b)

instance (fresh : ℕ → UInt8) (v : Vec) : Decidable (MovesWhole fresh v) :=
  Nat.decidableLoHi _ _ _

/-- The storage after a move. -/
def moved (fresh : ℕ → UInt8) (v : Vec) (bytes : ℕ) : Bytes := v.copyTo (allocate fresh bytes)

theorem length_moved (fresh : ℕ → UInt8) (v : Vec) (n : ℕ) :
    (moved fresh v n).length = n ∨ n < v.size := by
  unfold moved copyTo
  rcases Nat.lt_or_ge n v.size with hn | hn
  · exact .inr hn
  · refine .inl ?_
    split
    · rw [length_overwrite (by rw [List.length_take, length_allocate]; omega), length_allocate]
    · exact length_allocate fresh n

/-- The new storage holds the first `size` bytes of the old one. -/
theorem moved_byte (fresh : ℕ → UInt8) {n b : ℕ} (hn : v.size ≤ n)
    (hd : v.size ≤ v.data.length) (hb : b < n) :
    (moved fresh v n)[b]? = if b < v.size then v.data[b]? else some (fresh b) := by
  have hl : (v.data.take v.size).length = v.size := List.length_take_of_le hd
  unfold moved copyTo
  split
  case isTrue h0 =>
    rw [getElem?_overwrite (by rw [hl, length_allocate]; omega), hl, Nat.zero_add]
    split
    case isTrue hi =>
      rw [if_pos hi.2, Nat.sub_zero, List.getElem?_take_of_lt hi.2]
    case isFalse hi => rw [if_neg (by omega), getElem?_allocate fresh hb]
  case isFalse h0 => rw [if_neg (by omega), getElem?_allocate fresh hb]

/-- One more element in storage that was moved: the others are kept if their bytes are in the new
    storage, copied or not. -/
theorem moved_is_iff (h : Ok k v) (hm : MayGrow k v) (hys : ∀ y ∈ ys, y.length = k)
    (hx : x.length = k) (fresh : ℕ → UInt8) :
    Ok k ((v.grownBy (moved fresh)).appended x) ∧ (v.Is ys →
      (((v.grownBy (moved fresh)).appended x).Is (ys ++ [x]) ↔
        (v.allocSize ≤ v.size → MovesWhole fresh v))) := by
  have hs := length_moved fresh v
  obtain ⟨hok, hlt⟩ := h.grownBy hm hs
  refine ⟨(appended_is_iff hok hlt hys hx).1, fun hv => ?_⟩
  rw [(extendBy_is_iff h hm hs hys hx hv).2, MovesWhole, h.elemSize]
  refine imp_congr_right fun hf => ?_
  have hle := h.le
  have hsz : v.size * k ≤ v.allocSize * k := Nat.mul_le_mul_right k hle
  have hal : v.allocSize ≤ v.allocSize * k := Nat.le_mul_of_pos_right _ h.pos
  have hmul : (v.allocSize + 10) * k = v.allocSize * k + 10 * k := Nat.add_mul _ _ _
  have hbyte : ∀ b < v.size * k, (moved fresh v ((v.allocSize + 10) * k))[b]? =
      if b < v.size then v.data[b]? else some (fresh b) := fun b hb =>
    moved_byte fresh (by omega) (by rw [h.data]; omega) (by omega)
  constructor
  · intro hall b h1 h2
    have := hall b h2
    rw [hbyte b h2, if_neg (by omega)] at this
    exact this.symm
  · intro hall b hb
    rw [hbyte b hb]
    split
    · rfl
    · exact (hall b (by omega) hb).symm

end Vec

/-- The alignments that `posix_memalign` accepts: powers of two that are multiples of
    `sizeof(void *)`. -/
def MemalignAccepts (alignment : ℕ) : Prop := alignment.isPowerOfTwo ∧ 8 ∣ alignment

instance (alignment : ℕ) : Decidable (MemalignAccepts alignment) :=
  inferInstanceAs (Decidable (_ ∧ _))

/-- `xalloc_aligned`; `none` is the abort after `posix_memalign` has refused the alignment. -/
def xallocAligned (fresh : ℕ → UInt8) (bytes alignment : ℕ) : Chk (Option Bytes) := do
  Chk.require (0 < bytes)
  Chk.require (0 < alignment)
  if MemalignAccepts alignment then pure (some (allocate fresh bytes)) else pure none

/-- `vms_vector_aligned`. -/
structure AlignedVec where
  vec : Vec
  alignment : ℕ
  deriving DecidableEq, Repr

namespace AlignedVec

/-- `vms_vector_aligned_init`. -/
def init (elemSize alignment : ℕ) : Chk AlignedVec := do
  Chk.require (0 < alignment)
  pure ⟨.init elemSize, alignment⟩

/-- `vms_vector_aligned_extend`; `none` when `xalloc_aligned` aborts. -/
def extend (fresh : ℕ → UInt8) (a : AlignedVec) : Chk (Option (ℕ × AlignedVec)) := do
  let v := a.vec
  if v.allocSize ≤ v.size then do
    let allocSize ← Chk.add v.allocSize 10
    Chk.require (0 < v.elementSize)
    let bytes ← Chk.mul allocSize v.elementSize
    match ← xallocAligned fresh bytes a.alignment with
    | none => pure none
    | some newData => do
      let (addr, v) ← Vec.takeSlot { v with allocSize := allocSize, data := v.copyTo newData }
      pure (some (addr, { a with vec := v }))
  else do
    let (addr, v) ← v.takeSlot
    pure (some (addr, { a with vec := v }))

/-- `vms_vector_aligned_push`; also `vms_vector_aligned_extend` by a caller that then writes the
    element. -/
def push (fresh : ℕ → UInt8) (x : Bytes) (a : AlignedVec) : Chk (Option AlignedVec) := do
  match ← a.extend fresh with
  | none => pure none
  | some (addr, a) => pure (some { a with vec := a.vec.write addr x })

/-- `vms_vector_pop`, which the aligned vector inherits. -/
def pop (a : AlignedVec) : Chk AlignedVec := do
  let v ← a.vec.pop
  pure { a with vec := v }

/-- No new storage is needed, or `posix_memalign` gives it. -/
def Allocates (a : AlignedVec) : Prop := a.vec.allocSize ≤ a.vec.size → MemalignAccepts a.alignment

instance (a : AlignedVec) : Decidable a.Allocates := inferInstanceAs (Decidable (_ → _))

variable {a : AlignedVec}

/-- Where `xalloc_aligned` returns, the aligned vector is extended as the plain one is, with other
    storage. -/
theorem push_eq (fresh : ℕ → UInt8) (x : Bytes) (ha : a.Allocates) :
    (a.push fresh x).val = some { a with vec := (do
      let (addr, v) ← a.vec.extendBy (Vec.moved fresh)
      pure (v.write addr x) : Chk Vec).val } := by
  unfold push extend Vec.extendBy
  by_cases hf : a.vec.allocSize ≤ a.vec.size
  · simp only [if_pos hf, xallocAligned, if_pos (ha hf)]
    rfl
  · simp only [if_neg hf]
    rfl

/-- Otherwise the program ends. -/
theorem push_aborts (fresh : ℕ → UInt8) (x : Bytes) (ha : ¬ a.Allocates) :
    (a.push fresh x).val = none := by
  obtain ⟨hf, hn⟩ := Classical.not_imp.mp ha
  unfold push extend
  simp only [if_pos hf, xallocAligned, if_neg hn]
  rfl

end AlignedVec

end Vamos
