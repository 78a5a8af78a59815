import Mathlib.Tactic
import VamosBuffers.Core.QueueSpscRuns

/-! What the reader of `vms_queue_spsc` is shown of the unread elements. With `m` of them, the oldest at
    `tail`, the offsets go around the ring:

        o_0 = tail, tail + 1, …, capacity - 1, 0, 1, …, o_{m-1}
        └───── first segment ──────────────┘  └── second ──┘

    `peek` and `peek_atmost_at` add to `tail` before they compare with the capacity, so they are right
    while the sum is a word; and `peek_atmost_at` counts down the number that it returns when it is
    asked for an element past the last one. -/

namespace Vamos
open Schemes

namespace QueueSpsc

/-- `peek(n)` is to return the number of elements, and to describe the offsets of the first `n`. -/
def PeekRight (q : QueueSpsc) (n : ℕ) : ℕ × ℕ × ℕ × Option ℕ × ℕ → Prop
  | (num, off1, len1, off2, len2) => num = q.unread.length ∧ (off2 = none → len2 = 0) ∧
      List.range' off1 len1 ++ List.range' (off2.getD 0) len2 = q.unread.take n

/-- `peek_atmost_at(&k, &off)` is to return the number of elements, and to set `k` and `off` to the
    `k`-th element or, if there are fewer, to the last. -/
def AtmostRight (q : QueueSpsc) (k : ℕ) : ℕ × ℕ × Option ℕ → Prop
  | (num, k', off) => num = q.unread.length ∧
      (0 < q.unread.length → k' = min k (q.unread.length - 1) ∧
        ∃ o, off = some o ∧ q.unread[k']? = some o)

section

variable {q : QueueSpsc} (hq : SpscInv q) (ht : AtTail q)
include hq

theorem SpscInv.unread_length : q.unread.length = q.elemNum := by
  rw [hq.unread_eq, List.length_map, List.length_range]

include ht

theorem tail_lt : q.tail < q.capacity := by
  rw [ht]
  exact Nat.mod_lt _ hq.pos

/-- The offsets of the first `n` unread elements, from `tail` on. -/
theorem unread_take (n : ℕ) :
    q.unread.take n = (List.range (min n q.elemNum)).map fun i => (q.tail + i) % q.capacity := by
  rw [hq.unread_eq, ← List.map_take, List.take_range, ht]
  simp only [Nat.mod_add_mod]

theorem unread_at {k : ℕ} (hk : k < q.elemNum) : q.unread[k]? =
    some (if q.capacity ≤ q.tail + k then q.tail + k - q.capacity else q.tail + k) := by
  have hle := hq.elemNum_le
  rw [hq.unread_eq, List.getElem?_map, List.getElem?_range hk, Option.map_some,
    add_mod_wrap hq.pos (by omega), ← ht]

end

/-! ### Segments -/

/-- What `peek(n)` shows, run alone. -/
theorem peek_run (n : ℕ) (q : QueueSpsc) : ((peek n).run q).1 =
    (q.elemNum, (segments (min n q.elemNum) q.tail q.capacity).val) := by
  have hmin : (if q.elemNum < n then q.elemNum else n) = min n q.elemNum := by split <;> omega
  rw [← hmin, peek]
  simp only [get, Prog.run_bind, Prog.run_access, Prog.run_ofChk, id]
  rfl

theorem segments_val (n tail c : ℕ) : (segments n tail c).val =
    if c ≤ (n + tail) % 2 ^ 64 then
      (tail, (c + (2 ^ 64 - tail)) % 2 ^ 64, some 0, ((n + tail) % 2 ^ 64 + (2 ^ 64 - c)) % 2 ^ 64)
    else (tail, n, none, 0) := by
  unfold segments
  simp only [Chk.bind_val, Chk.add, Chk.sub]
  split <;> rfl

/-- `peek(n)` is right exactly when the end of what it describes is a word. -/
theorem peekRight_iff {q : QueueSpsc} (hq : SpscInv q) (ht : AtTail q) (n : ℕ) :
    PeekRight q n ((peek n).run q).1 ↔ q.tail + min n q.unread.length < 2 ^ 64 := by
  have hlen := hq.unread_length
  have hle := hq.elemNum_le
  have htl := tail_lt hq ht
  have hword := hq.word
  have hn := (min_le_right n q.elemNum).trans hle
  have htake := unread_take hq ht n
  rw [map_range_ring htl hn] at htake
  rw [hlen, peek_run, segments_val, Nat.add_comm _ q.tail]
  generalize min n q.elemNum = k at hn htake ⊢
  by_cases hk : q.tail + k < 2 ^ 64
  · rw [Nat.mod_eq_of_lt hk]
    refine iff_of_true ?_ hk
    by_cases hturn : q.capacity ≤ q.tail + k
    · have h1 : (q.capacity + (2 ^ 64 - q.tail)) % 2 ^ 64 = q.capacity - q.tail := by omega
      have h2 : (q.tail + k + (2 ^ 64 - q.capacity)) % 2 ^ 64 = q.tail + k - q.capacity := by omega
      rw [if_pos hturn] at htake ⊢
      rw [h1, h2]
      exact ⟨hlen.symm, nofun, htake.symm⟩
    · rw [if_neg hturn] at htake ⊢
      exact ⟨hlen.symm, fun _ => rfl, by rw [htake]; exact List.append_nil _⟩
  · -- the end wraps, and all `k` offsets are said to lie in one run past the end of the ring
    have hsmall : (q.tail + k) % 2 ^ 64 < q.capacity := by omega
    rw [if_neg (not_le.mpr hsmall)]
    refine iff_of_false ?_ hk
    rintro ⟨-, -, h⟩
    have h : List.range' q.tail k ++ [] = q.unread.take n := h
    have hmem : q.capacity ∈ q.unread.take n := by
      rw [← h, List.append_nil, List.mem_range'_1]
      omega
    rw [unread_take hq ht n] at hmem
    obtain ⟨i, -, hi⟩ := List.mem_map.mp hmem
    have := Nat.mod_lt (q.tail + i) hq.pos
    omega

/-! ### One element -/

theorem offsetAt_val (k tail c : ℕ) : (offsetAt k tail c).val = machineIndex tail k c := by
  unfold offsetAt machineIndex
  simp only [Chk.bind_val, Chk.add, Nat.add_comm k tail]
  split <;> rfl

/-- What `peek_atmost_at(&k, &off)` shows, run alone. -/
theorem peekAtmostAt_run {q : QueueSpsc} (hn : q.elemNum < 2 ^ 64) (h0 : 0 < q.elemNum) (k : ℕ) :
    ((peekAtmostAt k).run q).1 =
      if q.elemNum ≤ k then
        (q.elemNum - 1, q.elemNum - 1, some (machineIndex q.tail (q.elemNum - 1) q.capacity))
      else (q.elemNum, k, some (machineIndex q.tail k q.capacity)) := by
  unfold peekAtmostAt get
  rw [Prog.run_bind, Prog.run_access]
  dsimp only [id]
  rw [if_neg h0.ne', Prog.run_bind, Prog.run_ofChk]
  split
  · rw [Chk.sub_eq h0 hn, pure_bind]
    simp only [Chk.pure_val, Prog.run_bind, Prog.run_access, Prog.run_ofChk, offsetAt_val]
    rfl
  · simp only [Chk.pure_val, Prog.run_bind, Prog.run_access, Prog.run_ofChk, offsetAt_val]
    rfl

/-- `peek_atmost_at(&k, &off)` is right exactly when the queue is empty, or the `k`-th element is
    there and its place before the turn is a word. -/
theorem atmostRight_iff {q : QueueSpsc} (hq : SpscInv q) (ht : AtTail q) (k : ℕ) :
    AtmostRight q k ((peekAtmostAt k).run q).1 ↔
      q.unread.length = 0 ∨ k < q.unread.length ∧ q.tail + k < 2 ^ 64 := by
  have hlen := hq.unread_length
  have hle := hq.elemNum_le
  have hword := hq.word
  rw [hlen]
  rcases Nat.eq_zero_or_pos q.elemNum with h0 | h0
  · have hrun : ((peekAtmostAt k).run q).1 = (0, k, none) := by
      unfold peekAtmostAt get
      rw [Prog.run_bind, Prog.run_access]
      dsimp only [id]
      rw [if_pos h0]
      rfl
    rw [hrun]
    refine iff_of_true ⟨?_, fun h => ?_⟩ (.inl h0)
    · rw [hlen, h0]
    · omega
  · rw [peekAtmostAt_run (by omega) h0]
    by_cases hk : q.elemNum ≤ k
    · -- the number that is returned was counted down
      rw [if_pos hk]
      refine iff_of_false (fun h => ?_) (by omega)
      have h1 : q.elemNum - 1 = q.unread.length := h.1
      omega
    · have hmin : k = min k (q.unread.length - 1) := by omega
      rw [if_neg hk]
      have hidx := machineIndex_eq_iff (tail_lt hq ht) (show k ≤ q.capacity by omega) hword
      have hat := unread_at hq ht (Nat.lt_of_not_le hk)
      constructor
      · rintro ⟨-, h⟩
        obtain ⟨-, o, ho, hu⟩ := h (by omega)
        cases ho
        rw [hat] at hu
        exact .inr ⟨by omega, hidx.mp (Option.some.inj hu).symm⟩
      · intro h
        have hfits : q.tail + k < 2 ^ 64 := by omega
        refine ⟨hlen.symm, fun _ => ⟨hmin, _, rfl, ?_⟩⟩
        rw [hat, hidx.mpr hfits]

/-- In every state in which the reader is between two calls, for all `n` and `k`: the look-ahead
    matches its contract if and only if the `k`-th element is there, where there is any, and no sum of
    `tail` and an index wraps. -/
theorem lookAhead_iff {capacity : ℕ} (h0 : 0 < capacity) (hc : capacity < 2 ^ 64) {c : SpscCfg}
    (h : Reach (sides Counts) (fresh capacity) c) {a : Option (ℕ × ℕ)}
    (hr : c.prog .reader = .ret a) (n k : ℕ) :
    (PeekRight c.mem n ((peek n).run c.mem).1 ∧
      AtmostRight c.mem k ((peekAtmostAt k).run c.mem).1) ↔
    c.mem.tail + min n c.mem.unread.length < 2 ^ 64 ∧
      (c.mem.unread.length = 0 ∨ k < c.mem.unread.length ∧ c.mem.tail + k < 2 ^ 64) := by
  obtain ⟨hq, hk⟩ := reach_known h0 hc h
  have ht : AtTail c.mem := (hk .reader a hr).1
  rw [peekRight_iff hq ht, atmostRight_iff hq ht]

/-- One element in a queue of two. -/
theorem reach_one : ∃ c : SpscCfg, Reach (sides Counts) (fresh 2) c ∧
    c.prog .reader = .ret none ∧ c.mem = ⟨2, 1, 1, 0, 0, 1, [0], 0, 0⟩ := by
  have h0 : Reach (sides Counts) (fresh 2) (fresh 2) := .start
  have hw : ∀ l q, (sides Counts .writer).allowed l q := fun _ _ => trivial
  have h1 := (h0.call .writer () rfl trivial hw).call .writer () rfl trivial hw
  exact ⟨_, h1, rfl, rfl⟩

/-- With one element, `peek(5)` and `peek_atmost_at` for the first element are right. -/
theorem lookAhead_one : ∃ c : SpscCfg, c.mem.unread = [0] ∧
    PeekRight c.mem 5 ((peek 5).run c.mem).1 ∧
    AtmostRight c.mem 0 ((peekAtmostAt 0).run c.mem).1 := by
  obtain ⟨c, h, hr, hm⟩ := reach_one
  refine ⟨c, by rw [hm]; rfl, (lookAhead_iff (by decide) (by decide) h hr 5 0).mpr ?_⟩
  rw [hm]
  decide

/-- With one element, `peek_atmost_at` for the second one returns 0. -/
theorem not_lookAhead_past : ∃ c : SpscCfg, Reach (sides Counts) (fresh 2) c ∧
    c.prog .reader = .ret none ∧ c.mem.unread = [0] ∧
    ((peekAtmostAt 1).run c.mem).1 = (0, 0, some 0) ∧
    ¬ AtmostRight c.mem 1 ((peekAtmostAt 1).run c.mem).1 := by
  obtain ⟨c, h, hr, hm⟩ := reach_one
  refine ⟨c, h, hr, by rw [hm]; rfl, by rw [hm]; rfl, fun hw => ?_⟩
  rw [hm] at hw
  exact absurd hw.1 (by decide)

end QueueSpsc

end Vamos
