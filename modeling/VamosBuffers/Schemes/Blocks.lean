import Mathlib.Tactic

/-! A memory of bytes read as an array of blocks of `k` bytes.

        memory   b₀ b₁ … b_{k-1} │ b_k … b_{2k-1} │ …
                     block 0          block 1

    `overwrite` is `memcpy` into the memory; `allocate` is storage that holds whatever it held before. -/

namespace Schemes

variable {β : Type}

/-- The bytes `s` copied to offset `off`. -/
def overwrite (mem : List β) (off : ℕ) (s : List β) : List β :=
  mem.take off ++ s ++ mem.drop (off + s.length)

/-- New storage of `n` bytes with the contents `fresh`. -/
def allocate (fresh : ℕ → β) (n : ℕ) : List β := (List.range n).map fresh

/-- The storage resized to `n` bytes: what fits is kept. -/
def reallocate (fresh : ℕ → β) (mem : List β) (n : ℕ) : List β :=
  mem.take n ++ (allocate fresh n).drop mem.length

/-- Block `i`. -/
def block (k : ℕ) (mem : List β) (i : ℕ) : List β := (mem.drop (i * k)).take k

@[simp] theorem length_allocate (fresh : ℕ → β) (n : ℕ) : (allocate fresh n).length = n := by
  simp [allocate]

theorem getElem?_allocate (fresh : ℕ → β) {n i : ℕ} (h : i < n) :
    (allocate fresh n)[i]? = some (fresh i) := by
  simp [allocate, h]

@[simp] theorem length_reallocate (fresh : ℕ → β) (mem : List β) (n : ℕ) :
    (reallocate fresh mem n).length = n := by
  simp only [reallocate, List.length_append, List.length_take, List.length_drop, length_allocate]
  omega

@[simp] theorem length_overwrite {mem s : List β} {off : ℕ} (h : off + s.length ≤ mem.length) :
    (overwrite mem off s).length = mem.length := by
  simp only [overwrite, List.length_append, List.length_take, List.length_drop]
  omega

/-- Byte by byte: inside the copied range the new bytes, elsewhere the old ones. -/
theorem getElem?_overwrite {mem s : List β} {off : ℕ} (h : off + s.length ≤ mem.length) (i : ℕ) :
    (overwrite mem off s)[i]? =
      if off ≤ i ∧ i < off + s.length then s[i - off]? else mem[i]? := by
  have hl : (mem.take off).length = off := by rw [List.length_take]; omega
  unfold overwrite
  rw [List.append_assoc]
  rcases Nat.lt_or_ge i off with hi | hi
  · rw [List.getElem?_append_left (by omega), List.getElem?_take_of_lt hi, if_neg (by omega)]
  · rw [List.getElem?_append_right (by omega), hl]
    rcases Nat.lt_or_ge i (off + s.length) with hi' | hi'
    · rw [List.getElem?_append_left (by omega), if_pos ⟨hi, hi'⟩]
    · rw [List.getElem?_append_right (by omega), List.getElem?_drop, if_neg (by omega)]
      congr 1
      omega

theorem getElem?_reallocate (fresh : ℕ → β) (mem : List β) {n i : ℕ} (h : i < n) :
    (reallocate fresh mem n)[i]? = if i < mem.length then mem[i]? else some (fresh i) := by
  unfold reallocate
  split
  case isTrue hi =>
    rw [List.getElem?_append_left (by rw [List.length_take]; omega), List.getElem?_take_of_lt h]
  case isFalse hi =>
    rw [List.getElem?_append_right (by rw [List.length_take]; omega), List.getElem?_drop,
      getElem?_allocate fresh (by rw [List.length_take]; omega)]
    rw [List.length_take]
    congr 2
    omega

theorem getElem?_block {k i j : ℕ} (mem : List β) (h : j < k) :
    (block k mem i)[j]? = mem[i * k + j]? := by
  rw [block, List.getElem?_take_of_lt h, List.getElem?_drop]

theorem length_block {k i : ℕ} {mem : List β} (h : (i + 1) * k ≤ mem.length) :
    (block k mem i).length = k := by
  have : (i + 1) * k = i * k + k := Nat.succ_mul i k
  rw [block, List.length_take, List.length_drop]
  omega

/-- A block is what its bytes are. -/
theorem block_eq_iff {k i : ℕ} {mem s : List β} (h : (i + 1) * k ≤ mem.length) (hs : s.length = k) :
    block k mem i = s ↔ ∀ j < k, mem[i * k + j]? = s[j]? := by
  constructor
  · rintro rfl j hj
    rw [getElem?_block mem hj]
  · intro hb
    refine List.ext_getElem? fun j => ?_
    rcases Nat.lt_or_ge j k with hj | hj
    · rw [getElem?_block mem hj]; exact hb j hj
    · rw [List.getElem?_eq_none (by rw [length_block h]; exact hj),
        List.getElem?_eq_none (by rw [hs]; exact hj)]

/-! ### Copies into one block -/

@[simp] theorem overwrite_nil (mem : List β) (off : ℕ) : overwrite mem off [] = mem := by
  simp [overwrite]

/-- A copy right behind what is known of the memory. -/
theorem overwrite_append (known rest s : List β) :
    overwrite (known ++ rest) known.length s = known ++ s ++ rest.drop s.length := by
  rw [overwrite, List.take_left, List.drop_append, List.drop_eq_nil_of_le (by omega),
    Nat.add_sub_cancel_left, List.nil_append]

/-- Two copies, the second one right behind the first, are one copy. -/
theorem overwrite_overwrite {mem s t : List β} {off : ℕ}
    (h : off + (s ++ t).length ≤ mem.length) :
    overwrite (overwrite mem off s) (off + s.length) t = overwrite mem off (s ++ t) := by
  rw [List.length_append] at h
  have hs : off + s.length ≤ mem.length := by omega
  have ht : off + s.length + t.length ≤ (overwrite mem off s).length := by
    rw [length_overwrite hs]
    omega
  refine List.ext_getElem? fun i => ?_
  rw [getElem?_overwrite ht, getElem?_overwrite hs, getElem?_overwrite (by simpa using h),
    List.length_append]
  rcases Nat.lt_or_ge i (off + s.length) with hi | hi
  · rw [if_neg (by omega)]
    by_cases ho : off ≤ i
    · rw [if_pos ⟨ho, hi⟩, if_pos ⟨ho, by omega⟩, List.getElem?_append_left (by omega)]
    · rw [if_neg (by omega), if_neg (by omega)]
  · by_cases ho : i < off + s.length + t.length
    · rw [if_pos ⟨hi, ho⟩, if_pos ⟨by omega, by omega⟩, List.getElem?_append_right (by omega)]
      congr 1
      omega
    · rw [if_neg (by omega), if_neg (by omega), if_neg (by omega)]

/-- A copy into one block leaves the others alone. -/
theorem block_overwrite_ne {k i j : ℕ} {mem s : List β} (hij : i ≠ j) (hs : s.length ≤ k)
    (h : j * k + s.length ≤ mem.length) : block k (overwrite mem (j * k) s) i = block k mem i := by
  refine List.ext_getElem? fun b => ?_
  rcases Nat.lt_or_ge b k with hb | hb
  · have hout : ¬ (j * k ≤ i * k + b ∧ i * k + b < j * k + s.length) := by
      rintro ⟨h1, h2⟩
      rcases Nat.lt_or_gt_of_ne hij with hlt | hlt
      · have := Nat.mul_le_mul_right k hlt
        rw [Nat.succ_mul] at this
        omega
      · have := Nat.mul_le_mul_right k hlt
        rw [Nat.succ_mul] at this
        omega
    rw [getElem?_block _ hb, getElem?_block _ hb, getElem?_overwrite h, if_neg hout]
  · simp [block, hb]

/-- The block then begins with what was copied. -/
theorem prefix_block_overwrite {k j : ℕ} {mem s : List β} (hs : s.length ≤ k)
    (h : j * k + s.length ≤ mem.length) : s <+: block k (overwrite mem (j * k) s) j := by
  have hl : (mem.take (j * k)).length = j * k := by
    rw [List.length_take]
    omega
  rw [block, overwrite, List.append_assoc, List.drop_append_of_le_length hl.ge,
    List.drop_of_length_le hl.le, List.nil_append, List.take_append, List.take_of_length_le hs]
  exact List.prefix_append _ _

/-- The bytes of the first `n` blocks are the first `n * k` bytes. -/
theorem forall_block_iff {k n : ℕ} (hk : 0 < k) (P : ℕ → Prop) :
    (∀ i < n, ∀ j < k, P (i * k + j)) ↔ ∀ b < n * k, P b := by
  constructor
  · intro h b hb
    have hd := Nat.div_add_mod b k
    have hlt : b / k < n := Nat.div_lt_of_lt_mul (by rw [Nat.mul_comm]; exact hb)
    have := h (b / k) hlt (b % k) (Nat.mod_lt b hk)
    rwa [Nat.mul_comm, hd] at this
  · intro h i hi j hj
    refine h _ ?_
    have h1 : (i + 1) * k ≤ n * k := Nat.mul_le_mul_right k hi
    have h2 : (i + 1) * k = i * k + k := Nat.succ_mul i k
    omega

/-! ### A list of blocks -/

/-- The blocks of `ys` lie one after the other at the beginning of the memory. -/
def Held (k : ℕ) (mem : List β) (ys : List (List β)) : Prop :=
  ∀ b < ys.length * k, mem[b]? = ys.flatten[b]?

theorem length_flatten_of {k : ℕ} {ys : List (List β)} (h : ∀ y ∈ ys, y.length = k) :
    ys.flatten.length = ys.length * k := by
  rw [List.length_flatten, List.map_congr_left h, List.map_const', List.sum_replicate, smul_eq_mul]

theorem getElem?_flatten_of {k j : ℕ} {ys : List (List β)} (h : ∀ y ∈ ys, y.length = k)
    (hj : j < k) (i : ℕ) : ys.flatten[i * k + j]? = ys[i]?.bind (·[j]?) := by
  induction ys generalizing i with
  | nil => simp
  | cons y ys ih =>
    have hy : y.length = k := h y List.mem_cons_self
    rw [List.flatten_cons]
    cases i with
    | zero => rw [List.getElem?_append_left (by omega)]; simp
    | succ i =>
      have he : (i + 1) * k + j = y.length + (i * k + j) := by rw [hy]; ring
      rw [he, List.getElem?_append_right (Nat.le_add_right _ _), Nat.add_sub_cancel_left,
        ih (fun z hz => h z (List.mem_cons_of_mem y hz)) i, List.getElem?_cons_succ]

/-- Then every block can be read where it should be, and conversely. -/
theorem held_iff {k : ℕ} {mem : List β} {ys : List (List β)} (hk : 0 < k)
    (hys : ∀ y ∈ ys, y.length = k) (hlen : ys.length * k ≤ mem.length) :
    Held k mem ys ↔ ∀ i y, ys[i]? = some y → block k mem i = y := by
  rw [Held, ← forall_block_iff hk fun b => mem[b]? = ys.flatten[b]?]
  constructor
  · intro h i y hy
    obtain ⟨hi, -⟩ := List.getElem?_eq_some_iff.mp hy
    have hle : (i + 1) * k ≤ mem.length := (Nat.mul_le_mul_right k hi).trans hlen
    refine (block_eq_iff hle (hys y (List.mem_of_getElem? hy))).mpr fun j hj => ?_
    rw [h i hi j hj, getElem?_flatten_of hys hj, hy]
    rfl
  · intro h i hi j hj
    have hle : (i + 1) * k ≤ mem.length := (Nat.mul_le_mul_right k hi).trans hlen
    obtain ⟨y, hy⟩ : ∃ y, ys[i]? = some y := ⟨_, List.getElem?_eq_getElem hi⟩
    rw [(block_eq_iff hle (hys y (List.mem_of_getElem? hy))).mp (h i y hy) j hj,
      getElem?_flatten_of hys hj, hy]
    rfl

/-- Memory that agrees on the bytes of the blocks. -/
theorem held_congr {k : ℕ} {mem mem' : List β} {ys : List (List β)} (h : Held k mem ys) :
    Held k mem' ys ↔ ∀ b < ys.length * k, mem'[b]? = mem[b]? :=
  ⟨fun h' b hb => (h' b hb).trans (h b hb).symm, fun he b hb => (he b hb).trans (h b hb)⟩

/-- A block put after the others. -/
theorem held_push {k : ℕ} {mem x : List β} {ys : List (List β)} (hys : ∀ y ∈ ys, y.length = k)
    (hx : x.length = k) (hlen : (ys.length + 1) * k ≤ mem.length) :
    Held k (overwrite mem (ys.length * k) x) (ys ++ [x]) ↔ Held k mem ys := by
  have hm : (ys.length + 1) * k = ys.length * k + k := Nat.succ_mul _ _
  have hf := length_flatten_of hys
  simp only [Held, List.length_append, List.length_singleton, List.flatten_append,
    List.flatten_singleton, hm]
  have hbyte : ∀ i, (overwrite mem (ys.length * k) x)[i]? = _ := getElem?_overwrite (by omega)
  constructor
  · intro h b hb
    have := h b (by omega)
    rwa [hbyte, if_neg (by omega), List.getElem?_append_left (by omega)] at this
  · intro h b hb
    rw [hbyte]
    split
    case isTrue hi => rw [List.getElem?_append_right (by omega), hf]
    case isFalse hi => rw [List.getElem?_append_left (by omega)]; exact h b (by omega)

/-- The first of the bytes after the blocks set to `z`: blocks of `z` follow if the other bytes are
    `z` already. -/
theorem held_fill {k m : ℕ} {z : β} {mem : List β} {ys : List (List β)}
    (hys : ∀ y ∈ ys, y.length = k) (hk : 0 < k) (hlen : (ys.length + m) * k ≤ mem.length) :
    Held k (overwrite mem (ys.length * k) (List.replicate m z))
        (ys ++ List.replicate m (List.replicate k z)) ↔
      Held k mem ys ∧
        ∀ b, ys.length * k + m ≤ b → b < (ys.length + m) * k → mem[b]? = some z := by
  have hm : (ys.length + m) * k = ys.length * k + m * k := Nat.add_mul _ _ _
  have hmk : m ≤ m * k := Nat.le_mul_of_pos_right m hk
  have hf := length_flatten_of hys
  have hfill : (List.replicate m (List.replicate k z)).flatten = List.replicate (m * k) z := by
    simp
  have hbyte : ∀ i, (overwrite mem (ys.length * k) (List.replicate m z))[i]? = _ :=
    getElem?_overwrite (by rw [List.length_replicate]; omega)
  simp only [List.length_replicate] at hbyte
  simp only [Held, List.length_append, List.length_replicate, List.flatten_append, hfill, hm]
  have hz : ∀ b, ys.length * k ≤ b → b < ys.length * k + m * k →
      (ys.flatten ++ List.replicate (m * k) z)[b]? = some z := by
    intro b h1 h2
    rw [List.getElem?_append_right (by omega), List.getElem?_replicate, if_pos (by omega)]
  constructor
  · intro h
    refine ⟨fun b hb => ?_, fun b h1 h2 => ?_⟩
    · have := h b (by omega)
      rwa [hbyte, if_neg (by omega), List.getElem?_append_left (by omega)] at this
    · have := h b h2
      rwa [hbyte, if_neg (by omega), hz b (by omega) h2] at this
  · rintro ⟨h1, h2⟩ b hb
    rw [hbyte]
    split
    case isTrue hi =>
      rw [hz b hi.1 hb, List.getElem?_replicate, if_pos (by omega)]
    case isFalse hi =>
      rcases Nat.lt_or_ge b (ys.length * k) with hb' | hb'
      · rw [List.getElem?_append_left (by omega)]; exact h1 b hb'
      · rw [hz b hb' hb]; exact h2 b (by omega) hb

theorem Held.dropLast {k : ℕ} {mem : List β} {ys : List (List β)} (hys : ∀ y ∈ ys, y.length = k)
    (h : Held k mem ys) : Held k mem ys.dropLast := by
  rcases List.eq_nil_or_concat ys with rfl | ⟨zs, z, rfl⟩
  · exact h
  · rw [List.concat_eq_append] at *
    rw [List.dropLast_concat]
    have hf : zs.flatten.length = zs.length * k :=
      length_flatten_of fun y hy => hys y (List.mem_append_left _ hy)
    have hm : (zs.length + 1) * k = zs.length * k + k := Nat.succ_mul _ _
    intro b hb
    have := h b (by rw [List.length_append, List.length_singleton]; omega)
    rwa [List.flatten_append, List.getElem?_append_left (by omega)] at this

end Schemes
