import Mathlib.Tactic
import VamosBuffers.Core.QueueRoles
import VamosBuffers.Core.Arbiter

/-! What the consumer sees before it removes anything. `peek` tells of elements that lie in one run of
    slots or, when they wrap, in two:

        ┌──── len2 ────┬ free ┬──── len1 ────┐
        0             head   tail            c

    The binary search of `drop_older_than` runs over one of the two. Its assertions fail on a run of
    one event, so it is followed past them: the search stays inside its run, ends within as many steps
    as there are events, and over increasing ids it finds where `id` belongs. -/

namespace Vamos
open Schemes

namespace Queue

/-! ### Runs of slots -/

section Peek

variable {ε : Type} {N : ℕ}

/-- The first `k` unread elements lie in these runs, the first one from `p` on. -/
structure Lies (p len1 len2 k : ℕ) (q : Queue ε) : Prop where
  ptr : p = q.slotOf q.ring.consumed
  runs : Runs (q.ring.consumed % (q.capacity + 1)) (q.capacity + 1) k len1 len2

theorem Lies.congr {p len1 len2 k : ℕ} {q q' : Queue ε} (h : Lies p len1 len2 k q)
    (hc : q'.capacity = q.capacity) (he : q'.elemSize = q.elemSize)
    (hr : q'.ring.consumed = q.ring.consumed) : Lies p len1 len2 k q' := by
  obtain ⟨hp, hs⟩ := h
  refine ⟨?_, ?_⟩
  · rw [slotOf_congr hc he, hr]; exact hp
  · rw [hc, hr]; exact hs

theorem Lies.stable {p len1 len2 k : ℕ} {q q' : Queue ε} (h : Lies p len1 len2 k q)
    (hr : ProducerStep q q') : Lies p len1 len2 k q' :=
  h.congr hr.capacity hr.elemSize hr.ring.consumed

theorem Lies.first {p len1 len2 k i : ℕ} {q : Queue ε} (h : Lies p len1 len2 k q) (hi : i < len1) :
    p + i * q.elemSize = q.slotOf (q.ring.consumed + i) := by
  rw [h.ptr, slotOf, slotOf, h.runs.mod_first hi, Nat.add_mul]

theorem Lies.second {p len1 len2 k i : ℕ} {q : Queue ε} (h : Lies p len1 len2 k q)
    (hk : k ≤ q.capacity) (hi : i < len2) :
    i * q.elemSize = q.slotOf (q.ring.consumed + (len1 + i)) := by
  rw [slotOf, h.runs.mod_second (by omega) hi]

variable [Slot ε]

theorem QueueInv.slotOf_lt {q : Queue ε} (h : QueueInv q) (k : ℕ) :
    q.slotOf k < 2 ^ 64 := by
  have hk := Nat.mod_lt k (Nat.succ_pos q.capacity)
  have hle := Nat.mul_le_mul_right q.elemSize hk.le
  exact lt_of_le_of_lt hle h.fits

theorem QueueInv.capacity_lt {q : Queue ε} (h : QueueInv q) : q.capacity + 1 < 2 ^ 64 :=
  lt_of_le_of_lt (Nat.le_mul_of_pos_right _ h.pos) h.fits

/-- No queue holds the number that stands for all. -/
theorem QueueInv.lt_all {n : ℕ} {q : Queue ε} (h : QueueInv q) (hn : q.ring.Avail n) :
    n < 2 ^ 64 - 1 := by
  have h1 := hn.le_items
  have h2 := h.ring.written_lt
  have h3 := h.ring.base.max
  omega

/-- Two indices into a queue of elements of two bytes or more can be added. -/
theorem QueueInv.add_lt {n : ℕ} {q : Queue ε} (h : QueueInv q) (hsize : 2 ≤ q.elemSize)
    (hn : n ≤ q.capacity) : n + n < 2 ^ 64 := by
  have h1 := Nat.mul_le_mul_left (q.capacity + 1) hsize
  have h2 := h.fits
  omega

/-- `peek` tells of elements that are there and where they lie, as many as it was asked for or all
    there were. -/
theorem peek_safe {m : ℕ} {q : Queue ε} (n : ℕ) (hq : QueueInv q) (hm : q.ring.Avail m) :
    Safe QueueInv (consumerRole N)
      (fun r q' => ReadSlot q r.1 q' ∧ m ≤ r.1 ∧
        (n ≠ 0 ∧ n ≤ r.1 ∨ q.ring.written ≤ q.ring.consumed + r.1) ∧ (r.2 = none → r.1 = 0) ∧
        ∀ p len1 len2, r.2 = some (p, len1, len2) →
          Lies p len1 len2 (min (if n = 0 then 2 ^ 64 - 1 else n) r.1) q')
      (peek n) q := by
  have hmax := hq.ring.base.max
  have hp := Ringbuf.peek_safe (N := N) (if n = 0 then 2 ^ 64 - 1 else n) hq.ring hm
  refine Safe.bind hq ((onRing_consumer hp).mono fun r q1 i1 hr => ?_)
  obtain ⟨cur, r⟩ := r
  obtain ⟨⟨ht, hmc, -, hall, hnone, hsome⟩, hpop⟩ := hr
  dsimp only at ht hmc hall hnone hsome ⊢
  have hrs : ReadSlot q cur q1 :=
    ⟨ht.avail, ht.consumed, hpop.1, hpop.2, i1.capacity_eq hq ht.capacity⟩
  have hall' : n ≠ 0 ∧ n ≤ cur ∨ q.ring.written ≤ q.ring.consumed + cur := by
    rcases hall with ⟨-, hle⟩ | ⟨hw, -⟩
    · have hlt := i1.lt_all ht.avail
      split at hle
      · omega
      · rename_i h0; exact .inl ⟨h0, hle⟩
    · exact .inr hw
  cases r with
  | none =>
    refine fun q2 h2 _ => ⟨hrs.stable h2, hmc, hall', fun _ => ?_, nofun⟩
    rcases hnone rfl with h0 | h0
    · split at h0 <;> omega
    · exact h0
  | some r =>
    obtain ⟨off, len1, len2⟩ := r
    obtain ⟨hoff, hruns⟩ := hsome off len1 len2 rfl
    subst hoff
    have hl1 : Lies (q1.ring.tail * q1.elemSize) len1 len2
        (min (if n = 0 then 2 ^ 64 - 1 else n) cur) q1 := by
      rw [i1.slots, i1.ring.base.tail, i1.slots] at hruns
      exact ⟨by rw [slotOf, i1.ring.base.tail, i1.slots], hruns⟩
    refine Safe.bind i1 ((slotPtr_consumer i1.ring.tail_lt).mono fun p q2 i2 hr2 => ?_)
    obtain ⟨hp2, h2⟩ := hr2
    refine fun q3 h3 i3 => ⟨(hrs.stable h2).stable h3, hmc, hall', ?_, fun p' l1 l2 he => ?_⟩
    · intro hnone
      cases hnone
    cases he
    rw [hp2]
    exact (hl1.stable h2).stable h3

/-- The slot of the `k`-th element of the runs. -/
theorem runPtr_safe {p len1 len2 j k : ℕ} {q : Queue ε} (hl : Lies p len1 len2 j q)
    (hj : j ≤ q.capacity) (hk : k < j) :
    Safe QueueInv (consumerRole N)
      (fun ptr q' => ptr = q'.slotOf (q'.ring.consumed + k) ∧ ProducerStep q q')
      (runPtr p len1 len2 k) q := by
  refine Safe.load_bind (fun _ => ⟨.refl _, .inl rfl, .inl rfl, nofun⟩) fun q1 h1 i1 => ?_
  have hl1 := hl.stable h1
  have hcap : q1.capacity = q.capacity := h1.capacity
  have hsum := hl.runs.sum
  have hlt := i1.slotOf_lt (q1.ring.consumed + k)
  have hret : Safe QueueInv (consumerRole N)
      (fun ptr q' => ptr = q'.slotOf (q'.ring.consumed + k) ∧ ProducerStep q q')
      (.ret (q1.slotOf (q1.ring.consumed + k))) q1 := fun q2 h2 _ =>
    ⟨by rw [slotOf_congr h2.capacity h2.elemSize, h2.ring.consumed], h1.trans h2⟩
  by_cases hk1 : k < len1
  · have hf := hl1.first hk1
    rw [if_pos hk1, Chk.mul_eq (by omega), pure_bind, Chk.add_eq (by omega), hf, Prog.ofChk_pure]
    exact hret
  · have hword := i1.capacity_lt
    obtain ⟨i, rfl⟩ := Nat.exists_eq_add_of_le (Nat.le_of_not_lt hk1)
    have hs := hl1.second (by omega) (show i < len2 by omega)
    rw [if_neg hk1, Chk.sub_eq (by omega) (by omega), pure_bind, Nat.add_sub_cancel_left,
      Chk.require_eq (by omega), pure_bind, Chk.mul_eq (by omega), hs, Prog.ofChk_pure]
    exact hret

/-- `peek` of `wantNum k` elements tells of all there were, or of the `k`-th and those before it. -/
theorem peek_want_safe {k m : ℕ} {q : Queue ε} (hq : QueueInv q) (hm : q.ring.Avail m) :
    Safe QueueInv (consumerRole N)
      (fun r q' => ReadSlot q r.1 q' ∧ m ≤ r.1 ∧ (k < r.1 ∨ q.ring.written ≤ q.ring.consumed + r.1) ∧
        (r.2 = none → r.1 = 0) ∧ ∀ p len1 len2, r.2 = some (p, len1, len2) →
          Lies p len1 len2 (min (k + 1) r.1) q')
      (peek (wantNum k)) q := by
  refine (peek_safe (wantNum k) hq hm).mono fun r q1 i1 ⟨hrs, hmr, hall, hnone, hsome⟩ => ?_
  have hlt := i1.lt_all hrs.avail
  have hw : wantNum k = k ∧ k = 2 ^ 64 - 1 ∨ wantNum k = k + 1 := by
    unfold wantNum; split <;> omega
  refine ⟨hrs, hmr, by omega, hnone, fun p len1 len2 h => ?_⟩
  have hl := hsome p len1 len2 h
  have hmin : min (if wantNum k = 0 then 2 ^ 64 - 1 else wantNum k) r.1 = min (k + 1) r.1 := by
    split <;> omega
  rw [hmin] at hl
  exact hl

omit [Slot ε] in
theorem ReadSlot.mono {q₀ q : Queue ε} {m n : ℕ} (h : ReadSlot q₀ n q) (hm : m ≤ n) :
    ReadSlot q₀ m q := ⟨h.avail.mono hm, h.consumed, h.popped, h.elemSize, h.capacity⟩

/-- `peek_at` points to the `k`-th element, and gives `NULL` only if there were no more than `k`. -/
theorem peekAt_safe {k m : ℕ} {q : Queue ε} (hq : QueueInv q) (hm : q.ring.Avail m) :
    Safe QueueInv (consumerRole N)
      (fun r q' => ReadSlot q m q' ∧ (∀ p, r = some p →
        q'.ring.Avail (k + 1) ∧ p = q'.slotOf (q'.ring.consumed + k)) ∧
        (r = none → q.ring.written ≤ q.ring.consumed + k))
      (peekAt k) q := by
  refine Safe.bind hq ((peek_want_safe hq hm).mono fun r q1 i1 hr => ?_)
  obtain ⟨n, r⟩ := r
  obtain ⟨hrs, hmn, hall, hnone, hsome⟩ := hr
  dsimp only at hrs hmn hall hnone hsome ⊢
  cases r with
  | none =>
    refine fun q2 h2 _ => ⟨(hrs.stable h2).mono hmn, nofun, fun _ => ?_⟩
    have := hnone rfl
    omega
  | some r =>
    obtain ⟨p, len1, len2⟩ := r
    have hl := hsome p len1 len2 rfl
    have hcap : n ≤ q1.capacity := hrs.avail.le_items.trans i1.items_le
    dsimp only
    by_cases hk : n ≤ k
    · rw [if_pos hk]
      exact fun q2 h2 _ => ⟨(hrs.stable h2).mono hmn, nofun, fun _ => by omega⟩
    · rw [if_neg hk]
      refine Safe.bind i1 ((runPtr_safe hl (by omega) (show k < min (k + 1) n by omega)).mono
        fun ptr q2 i2 ⟨hp, h2⟩ => fun q3 h3 _ => ?_)
      have hr3 := (hrs.stable h2).stable h3
      refine ⟨hr3.mono hmn, fun p' he => ?_, nofun⟩
      cases he
      refine ⟨hr3.avail.mono (by omega), ?_⟩
      rw [hp, slotOf_congr h3.capacity h3.elemSize, h3.ring.consumed]

/-- `peek_atmost_at` points to the `k`-th element or, if there were fewer, to the last. -/
theorem peekAtmostAt_safe {k m : ℕ} {q : Queue ε} (hq : QueueInv q) (hm : q.ring.Avail m) :
    Safe QueueInv (consumerRole N)
      (fun r q' => ReadSlot q m q' ∧ (∀ p, r.2 = some p →
        q'.ring.Avail (r.1 + 1) ∧ p = q'.slotOf (q'.ring.consumed + r.1) ∧ r.1 ≤ k ∧
        (r.1 = k ∨ q.ring.written ≤ q.ring.consumed + (r.1 + 1))) ∧
        (r.2 = none → r.1 = 0 ∧ q.ring.written ≤ q.ring.consumed))
      (peekAtmostAt k) q := by
  refine Safe.bind hq ((peek_want_safe hq hm).mono fun r q1 i1 hr => ?_)
  obtain ⟨n, r⟩ := r
  obtain ⟨hrs, hmn, hall, hnone, hsome⟩ := hr
  dsimp only at hrs hmn hall hnone hsome ⊢
  cases r with
  | none =>
    refine fun q2 h2 _ => ⟨(hrs.stable h2).mono hmn, nofun, fun _ => ⟨rfl, ?_⟩⟩
    have := hnone rfl
    omega
  | some r =>
    obtain ⟨p, len1, len2⟩ := r
    have hl := hsome p len1 len2 rfl
    have hcap : n ≤ q1.capacity := hrs.avail.le_items.trans i1.items_le
    have hpos := hl.runs.pos
    have hsum := hl.runs.sum
    have hi : (if n ≤ k then n - 1 else k) < min (k + 1) n := by split <;> omega
    have hik : (if n ≤ k then n - 1 else k) = k ∨ (if n ≤ k then n - 1 else k) + 1 = n := by
      split <;> omega
    refine Safe.bind i1 ((runPtr_safe hl (by omega) hi).mono fun ptr q2 i2 ⟨hp, h2⟩ => ?_)
    generalize (if n ≤ k then n - 1 else k) = j at hi hik hp ⊢
    intro q3 h3 _
    have hr3 := (hrs.stable h2).stable h3
    refine ⟨hr3.mono hmn, fun p' he => ?_, nofun⟩
    cases he
    refine ⟨hr3.avail.mono (by dsimp only; omega), ?_, by dsimp only; omega, by dsimp only; omega⟩
    rw [hp, slotOf_congr h3.capacity h3.elemSize, h3.ring.consumed]

end Peek

/-! ### Search -/

section Search

variable {N id : ℕ} {ids : ℕ → ℕ}

/-- The consumer of a build without assertions. -/
def releaseRole (N : ℕ) : Role (Queue Event) (Acc QueueLoc) :=
  { consumerRole N with lenient := True }

theorem released {α : Type} {p : QueueProg Event α} {Q : α → Queue Event → Prop}
    {q : Queue Event} (h : Safe QueueInv (consumerRole N) Q p q) :
    Safe QueueInv (releaseRole N) Q p q :=
  h.weaken (fun _ _ hr => hr) (fun _ _ _ hg => hg) (fun _ _ _ => trivial) False.elim

/-- The consumer was told of `n` events, and these are their ids. -/
structure Shows (ids : ℕ → ℕ) (n : ℕ) (q : Queue Event) : Prop where
  avail : q.ring.Avail n
  event : ∀ j < n, ∃ e, q.pushed[q.ring.consumed + j]? = some e ∧ e.id = ids j

theorem Shows.stable {n : ℕ} {q q' : Queue Event} (h : Shows ids n q) (hr : ProducerStep q q') :
    Shows ids n q' := by
  refine ⟨h.avail.stable hr.ring, fun j hj => ?_⟩
  obtain ⟨e, he, hid⟩ := h.event j hj
  obtain ⟨t, ht⟩ := hr.pushed_grows
  obtain ⟨hlt, -⟩ := List.getElem?_eq_some_iff.mp he
  refine ⟨e, ?_, hid⟩
  rw [hr.ring.consumed, ← ht, List.getElem?_append_left hlt]
  exact he

/-- The load of the event at `events + i * elem_size`. -/
theorem eventAt_safe {β : Type} {events i j n : ℕ} {q : Queue Event} (hq : QueueInv q)
    (hs : Shows ids n q) (hj : j < n)
    (hp : events + i * q.elemSize = q.slotOf (q.ring.consumed + j))
    {k : Event → QueueProg Event β} {Q : β → Queue Event → Prop}
    (h : ∀ e q', ProducerStep q q' → QueueInv q' → e.id = ids j →
      Safe QueueInv (releaseRole N) Q (k e) q') :
    Safe QueueInv (releaseRole N) Q (eventAt events q.elemSize i >>= k) q := by
  have hlt := hq.slotOf_lt (q.ring.consumed + j)
  unfold eventAt
  rw [Chk.mul_eq (by omega), Prog.ofChk_pure, Prog.ret_bind, Chk.add_eq (by omega),
    Prog.ofChk_pure, Prog.ret_bind, hp]
  intro q1 h1 i1 _
  have hs1 := hs.stable h1
  have hle := hs1.avail.le_items
  obtain ⟨e, he, hid⟩ := hs1.event j hj
  have hslot : q.slotOf (q.ring.consumed + j) = q1.slotOf (q1.ring.consumed + j) := by
    rw [slotOf_congr h1.capacity h1.elemSize, h1.ring.consumed]
  refine ⟨⟨.refl _, .inl rfl, .inl rfl, fun p hl => ⟨_, Nat.le_add_right _ j, by omega, ?_⟩⟩, i1, ?_⟩
  · obtain rfl : q.slotOf (q.ring.consumed + j) = p := by simpa using hl
    exact hslot
  · have hfill : q1.filled[q1.ring.consumed + j]? = some e := by
      rw [← he, pushed, List.getElem?_take_of_lt (by omega)]
    have hdata : e = q1.data (q1.slotOf (q1.ring.consumed + j)) :=
      i1.data _ e (Nat.le_add_right _ j) (by omega) hfill
    show Safe _ _ _ (k (q1.data (q.slotOf (q.ring.consumed + j)))) q1
    rw [hslot, ← hdata]
    exact h e q1 h1 i1 hid

/-- The ids of the first `len` events increase. -/
def Increase (ids : ℕ → ℕ) (len : ℕ) : Prop := ∀ i j, i < j → j < len → ids i < ids j

/-- Where the search stands in a run of `len` events: everything before `bot` is to be dropped, and
    nothing after `top`. -/
structure Window (id : ℕ) (ids : ℕ → ℕ) (len bot top : ℕ) : Prop where
  order : bot ≤ top
  inside : top < len
  probe : bot < top → bot = 0 ∨ ids bot ≤ id
  below : Increase ids len → ∀ i < bot, ids i ≤ id
  above : Increase ids len → ∀ i, top < i → i < len → id < ids i

/-- One step stays within the window and makes it smaller. -/
theorem Window.narrow {len bot top : ℕ} (h : Window id ids len bot top) (hgo : bot = 0 ∨ bot < top)
    (hlen : len < 2 ^ 64) :
    let r := (Queue.narrow id (ids ((bot + top) / 2)) bot top ((bot + top) / 2)).val
    Window id ids len r.1 r.2 ∧ (r.2 ≠ r.1 → r.2 - r.1 < top - bot) := by
  obtain ⟨ho, hi, hp, hb, ha⟩ := h
  generalize hpv : (bot + top) / 2 = pivot
  unfold Queue.narrow
  by_cases hid : id < ids pivot
  · rw [if_pos hid]
    have habove : Increase ids len → ∀ i, pivot ≤ i → i < len → id < ids i := by
      intro hm i hpi hil
      rcases Nat.eq_or_lt_of_le hpi with rfl | hlt
      · exact hid
      · exact hid.trans (hm _ _ hlt hil)
    by_cases h0 : pivot = 0
    · subst h0
      obtain rfl : bot = 0 := by omega
      rw [if_pos rfl]
      refine ⟨⟨le_rfl, (Nat.zero_le top).trans_lt hi, fun h => absurd h (lt_irrefl 0), fun _ i h =>
        absurd h (Nat.not_lt_zero i), fun hm i _ hil => habove hm i (Nat.zero_le i) hil⟩,
        fun h => absurd rfl h⟩
    · rw [if_neg h0, Chk.sub_eq (by omega) (by omega)]
      -- the event at `bot` is not younger than `id`, so `pivot` is not there
      have hne : bot ≠ pivot := by
        rintro rfl
        rcases hgo with hz | hlt
        · exact h0 hz
        · rcases hp hlt with hz | hz
          · exact h0 hz
          · omega
      simp only [pure_bind, Chk.pure_val]
      exact ⟨⟨by omega, by omega, fun h => hp (by omega), hb,
        fun hm i hpi hil => habove hm i (by omega) hil⟩, fun h => by omega⟩
  · rw [if_neg hid]
    have hle : ids pivot ≤ id := Nat.le_of_not_lt hid
    have hbelow : Increase ids len → ∀ i, i ≤ pivot → ids i ≤ id := by
      intro hm i hip
      rcases Nat.eq_or_lt_of_le hip with rfl | hlt
      · exact hle
      · exact (hm _ _ hlt (by omega)).le.trans hle
    by_cases hbp : bot = pivot
    · subst hbp
      rw [if_pos rfl]
      by_cases heq : ids bot = id
      · simp only [heq, if_true, Chk.bind_val, Chk.pure_val]
        refine ⟨⟨le_rfl, by omega, fun h => absurd h (lt_irrefl bot), hb, fun hm i hbi hil => ?_⟩,
          fun h => absurd rfl h⟩
        rw [← heq]
        exact hm _ _ hbi hil
      · simp only [heq, if_false, Chk.bind_val, Chk.pure_val]
        exact ⟨⟨le_rfl, hi, fun h => absurd h (lt_irrefl top), fun hm i hit => hbelow hm i (by omega),
          ha⟩, fun h => absurd rfl h⟩
    · rw [if_neg hbp]
      exact ⟨⟨by simp only [Chk.pure_val]; omega, hi, fun _ => .inr hle,
        fun hm i hip => hbelow hm i (le_of_lt hip), ha⟩, fun h => by
          simp only [Chk.pure_val]; omega⟩

/-- How many of the first `len` events are to be dropped. -/
structure Older (id : ℕ) (ids : ℕ → ℕ) (len t : ℕ) : Prop where
  le : t ≤ len
  below : Increase ids len → ∀ i < t, ids i ≤ id
  above : Increase ids len → ∀ i, t ≤ i → i < len → id < ids i

theorem Increase.mono {m n : ℕ} (h : Increase ids n) (hm : m ≤ n) : Increase ids m :=
  fun i j hij hj => h i j hij (by omega)

theorem Increase.le {i j n : ℕ} (h : Increase ids n) (hij : i ≤ j) (hj : j < n) : ids i ≤ ids j := by
  rcases Nat.eq_or_lt_of_le hij with rfl | hlt
  · exact le_rfl
  · exact (h i j hlt hj).le

/-- The ids of events that stand one after the other in a sorted list. -/
theorem increase_of_sorted {xs : List Event} {c n : ℕ} (hs : xs.Pairwise fun a b => a.id < b.id)
    (hev : ∀ j < n, ∃ e, xs[c + j]? = some e ∧ e.id = ids j) : Increase ids n := by
  intro i j hij hj
  obtain ⟨a, ha, hai⟩ := hev i (by omega)
  obtain ⟨b, hb, hbj⟩ := hev j hj
  obtain ⟨h1, rfl⟩ := List.getElem?_eq_some_iff.mp ha
  obtain ⟨h2, rfl⟩ := List.getElem?_eq_some_iff.mp hb
  rw [← hai, ← hbj]
  exact List.pairwise_iff_getElem.mp hs _ _ h1 h2 (by omega)

theorem Older.nil : Older id ids 0 0 :=
  ⟨le_rfl, fun _ i hi => absurd hi (Nat.not_lt_zero i), fun _ i _ hi => absurd hi (Nat.not_lt_zero i)⟩

/-- If the first `m` events reach up to `id`, all later ones stay. -/
theorem Older.of_first {m n k : ℕ} (h : Older id ids m k) (hm : m ≤ n) (h0 : 0 < m)
    (hid : id ≤ ids (m - 1)) : Older id ids n k := by
  refine ⟨h.le.trans hm, fun hi => h.below (hi.mono hm), fun hi i hki hin => ?_⟩
  rcases Nat.lt_or_ge i m with hlt | hge
  · exact h.above (hi.mono hm) i hki hlt
  · exact hid.trans_lt (hi (m - 1) i (by omega) hin)

/-- If the first `m` events end before `id`, all of them go, and `id` belongs among the later ones. -/
theorem Older.of_second {m l k : ℕ} (h : Older id (fun i => ids (m + i)) l k)
    (hid : ids (m - 1) < id) : Older id ids (m + l) (m + k) := by
  have hle := h.le
  have hi2 : Increase ids (m + l) → Increase (fun i => ids (m + i)) l := fun hi i j hij hj =>
    hi _ _ (by omega) (by omega)
  refine ⟨by omega, fun hi i hik => ?_, fun hi i hki hil => ?_⟩
  · rcases Nat.lt_or_ge i m with hlt | hge
    · exact (hi.le (show i ≤ m - 1 by omega) (by omega)).trans hid.le
    · obtain ⟨j, rfl⟩ := Nat.exists_eq_add_of_le hge
      exact h.below (hi2 hi) j (by omega)
  · obtain ⟨j, rfl⟩ := Nat.exists_eq_add_of_le (show m ≤ i by omega)
    exact h.above (hi2 hi) j (by omega) (by omega)

/-- What a turn of the search over the run of `len` events after the first `skip` ones may come to, if
    `top - bot` was `span`. -/
def TurnEnds (id : ℕ) (ids : ℕ → ℕ) (skip len span : ℕ) : ℕ ⊕ ℕ × ℕ → Prop
  | .inl k => ∃ t, k = skip + t ∧ Older id (fun i => ids (skip + i)) len t
  | .inr (bot, top) =>
      Window id (fun i => ids (skip + i)) len bot top ∧ bot < top ∧ top - bot < span

section Turn

variable {n events skip len bot top : ℕ} {q : Queue Event}

/-- One turn of the search. -/
theorem searchTurn_safe (hq : QueueInv q) (hsize : 2 ≤ q.elemSize) (hs : Shows ids n q)
    (hn : skip + len ≤ n)
    (hp : ∀ i < len, events + i * q.elemSize = q.slotOf (q.ring.consumed + (skip + i)))
    (hw : Window id (fun i => ids (skip + i)) len bot top) (hgo : bot = 0 ∨ bot < top) :
    Safe QueueInv (releaseRole N)
      (fun r q' => ProducerStep q q' ∧ TurnEnds id ids skip len (top - bot) r)
      (searchTurn id events q.elemSize skip bot top) q := by
  have hcap : n ≤ q.capacity := hs.avail.le_items.trans hq.items_le
  have hlen := hq.add_lt hsize (show len ≤ q.capacity by omega)
  have hsum : (Chk.add bot top).val = bot + top := by
    have h1 := hw.order
    have h2 := hw.inside
    exact Nat.mod_eq_of_lt (by omega)
  refine Safe.ofChk_bind trivial (Safe.ofChk_bind trivial ?_)
  rw [hsum]
  have hpiv : (bot + top) / 2 < len := by have := hw.order; have := hw.inside; omega
  refine eventAt_safe hq hs (by omega) (hp _ hpiv) fun e q1 h1 i1 he => ?_
  obtain ⟨hw', hlt⟩ := hw.narrow hgo (by omega)
  rw [he]
  refine Safe.ofChk_bind trivial ?_
  generalize (narrow id (ids (skip + (bot + top) / 2)) bot top ((bot + top) / 2)).val = r
    at hw' hlt ⊢
  obtain ⟨b, t⟩ := r
  refine Safe.ofChk_bind trivial ?_
  dsimp only at hw' hlt
  split
  case isTrue htb =>
    subst htb
    have hp1 : events + t * q1.elemSize = q1.slotOf (q1.ring.consumed + (skip + t)) := by
      rw [slotOf_congr h1.capacity h1.elemSize, h1.ring.consumed, h1.elemSize]
      exact hp t hw'.inside
    rw [← h1.elemSize]
    refine eventAt_safe i1 (hs.stable h1) (by have := hw'.inside; omega) hp1
      fun e2 q2 h2 i2 he2 => ?_
    have hr2 := h1.trans h2
    split
    case isTrue hid =>
      refine fun q3 h3 _ => ⟨hr2.trans h3, t, rfl, hw'.inside.le, hw'.below, fun hm i hti hil => ?_⟩
      rcases Nat.eq_or_lt_of_le hti with rfl | hlt'
      · omega
      · exact hw'.above hm i hlt' hil
    case isFalse hid =>
      refine fun q3 h3 _ => ⟨hr2.trans h3, t + 1, rfl, hw'.inside, fun hm i hit => ?_, hw'.above⟩
      rcases Nat.eq_or_lt_of_le (Nat.le_of_lt_succ hit) with rfl | hlt'
      · omega
      · exact hw'.below hm i hlt'
  case isFalse htb =>
    have ho := hw'.order
    exact fun q2 h2 _ => ⟨h1.trans h2, hw', by omega, hlt htb⟩

/-- After a turn the run is where it was. -/
theorem ProducerStep.run_ptr {q' : Queue Event} (hr : ProducerStep q q')
    (hp : ∀ i < len, events + i * q.elemSize = q.slotOf (q.ring.consumed + (skip + i))) :
    ∀ i < len, events + i * q'.elemSize = q'.slotOf (q'.ring.consumed + (skip + i)) := by
  intro i hi
  rw [slotOf_congr hr.capacity hr.elemSize, hr.ring.consumed, hr.elemSize]
  exact hp i hi

/-- The search ends within as many turns as there are events, and finds where `id` belongs. -/
theorem searchLoop_safe {fuel : ℕ} (hq : QueueInv q) (hsize : 2 ≤ q.elemSize) (hs : Shows ids n q)
    (hn : skip + len ≤ n)
    (hp : ∀ i < len, events + i * q.elemSize = q.slotOf (q.ring.consumed + (skip + i)))
    (hw : Window id (fun i => ids (skip + i)) len bot top) (hgo : bot = 0 ∨ bot < top)
    (hfuel : top - bot < fuel) :
    Safe QueueInv (releaseRole N)
      (fun r q' => ProducerStep q q' ∧
        ∃ t, r = some (skip + t) ∧ Older id (fun i => ids (skip + i)) len t)
      (searchLoop id events q.elemSize skip fuel bot top) q := by
  -- by induction on the turns: the window gets smaller in each
  induction fuel generalizing bot top q with
  | zero => omega
  | succ fuel ih =>
    refine Safe.bind hq ((searchTurn_safe hq hsize hs hn hp hw hgo).mono fun r q1 i1 ⟨h1, hr⟩ => ?_)
    cases r with
    | inl k =>
      obtain ⟨t, rfl, ho⟩ := hr
      exact fun q2 h2 _ => ⟨h1.trans h2, t, rfl, ho⟩
    | inr r =>
      obtain ⟨b, t⟩ := r
      obtain ⟨hw', hlt, hspan⟩ := hr
      dsimp only
      rw [← h1.elemSize]
      exact (ih i1 (by rw [h1.elemSize]; exact hsize) (hs.stable h1) (h1.run_ptr hp) hw' (.inr hlt)
        (by omega)).mono fun k q' _ ⟨hr, ht⟩ => ⟨h1.trans hr, ht⟩

theorem searchOlder_succ (id elemSize steps : ℕ) :
    searchOlder id events elemSize skip (steps + 1) bot top =
      searchTurn id events elemSize skip bot top >>= fun r => r.elim pure fun (bot, top) =>
        searchOlder id events elemSize skip steps bot top := by
  rw [searchOlder, searchTurn]
  simp only [Prog.bind_assoc]
  congr 1
  funext _
  congr 1
  funext sum
  congr 1
  funext ev
  congr 1
  funext r
  obtain ⟨b, t⟩ := r
  dsimp only
  congr 1
  funext _
  split
  · simp only [Prog.bind_assoc]
    congr 1
    funext ev
    split <;> rfl
  · rfl

/-- The search of a build with assertions, which fails after as many turns as there are events. -/
theorem searchOlder_safe {steps : ℕ} (hq : QueueInv q) (hsize : 2 ≤ q.elemSize) (hs : Shows ids n q)
    (hn : skip + len ≤ n)
    (hp : ∀ i < len, events + i * q.elemSize = q.slotOf (q.ring.consumed + (skip + i)))
    (hw : Window id (fun i => ids (skip + i)) len bot top) (hgo : bot = 0 ∨ bot < top)
    (hsteps : top - bot < steps) :
    Safe QueueInv (releaseRole N)
      (fun k q' => ProducerStep q q' ∧ ∃ t, k = skip + t ∧ Older id (fun i => ids (skip + i)) len t)
      (searchOlder id events q.elemSize skip steps bot top) q := by
  induction steps generalizing bot top q with
  | zero => omega
  | succ steps ih =>
    rw [searchOlder_succ]
    refine Safe.bind hq ((searchTurn_safe hq hsize hs hn hp hw hgo).mono fun r q1 i1 ⟨h1, hr⟩ => ?_)
    cases r with
    | inl k => exact fun q2 h2 _ => ⟨h1.trans h2, hr⟩
    | inr r =>
      obtain ⟨b, t⟩ := r
      obtain ⟨hw', hlt, hspan⟩ := hr
      dsimp only
      rw [← h1.elemSize]
      exact (ih i1 (by rw [h1.elemSize]; exact hsize) (hs.stable h1) (h1.run_ptr hp) hw' (.inr hlt)
        (by omega)).mono fun k q' _ ⟨hr, ht⟩ => ⟨h1.trans hr, ht⟩

end Turn

/-- A search over a run of `len` events, `skip` of which come before it, finds where `id` belongs. -/
def Finds {β : Type} (N id capacity : ℕ)
    (search : (events elemSize skip n top : ℕ) → QueueProg Event β) (found : ℕ → β) : Prop :=
  ∀ ⦃q : Queue Event⦄ ⦃ids : ℕ → ℕ⦄ ⦃n events skip len : ℕ⦄, QueueInv q → q.capacity = capacity →
    2 ≤ q.elemSize → Shows ids n q → skip + len ≤ n → 0 < len →
    (∀ i < len, events + i * q.elemSize = q.slotOf (q.ring.consumed + (skip + i))) →
    Safe QueueInv (releaseRole N)
      (fun r q' => ProducerStep q q' ∧
        ∃ t, r = found (skip + t) ∧ Older id (fun i => ids (skip + i)) len t)
      (search events q.elemSize skip n (len - 1)) q

/-- At the beginning nothing is known of the run. -/
theorem Window.all {len : ℕ} (h : 0 < len) : Window id ids len 0 (len - 1) :=
  ⟨Nat.zero_le _, by omega, fun _ => .inl rfl, fun _ i hi => absurd hi (Nat.not_lt_zero i),
    fun _ i _ _ => by omega⟩

theorem searchLoop_finds {fuel capacity : ℕ} (hf : capacity ≤ fuel) :
    Finds N id capacity
      (fun events elemSize skip _ top => searchLoop id events elemSize skip fuel 0 top) some := by
  intro q ids n events skip len hq hcap hsize hs hn h0 hp
  have hle := hs.avail.le_items.trans hq.items_le
  exact searchLoop_safe hq hsize hs hn hp (.all h0) (.inl rfl) (by omega)

theorem searchOlder_finds {capacity : ℕ} :
    Finds N id capacity (fun events elemSize skip n top => do
      let k ← searchOlder id events elemSize skip n 0 top
      Prog.ofChk (Chk.require (k ≤ n))
      pure k) fun k => k := by
  intro q ids n events skip len hq _ hsize hs hn h0 hp
  refine Safe.bind hq ((searchOlder_safe hq hsize hs hn hp (.all h0) (.inl rfl) (by omega)).mono
    fun k q1 i1 ⟨h1, hk⟩ => ?_)
  exact Safe.ofChk_bind trivial fun q2 h2 _ => ⟨h1.trans h2, hk⟩

/-- The events that the consumer was told of have ids. -/
theorem exists_shows {n : ℕ} {q : Queue Event} (hq : QueueInv q) (hn : q.ring.Avail n) :
    ∃ ids, Shows ids n q := by
  refine ⟨fun j => ((q.pushed[q.ring.consumed + j]?).map Event.id).getD 0, hn, fun j hj => ?_⟩
  have h1 := hn.le_items
  have h2 := hq.pushed_length
  have hlt : q.ring.consumed + j < q.pushed.length := by omega
  exact ⟨q.pushed[q.ring.consumed + j], List.getElem?_eq_getElem hlt, by
    simp [List.getElem?_eq_getElem hlt]⟩

/-- `k` of `drop_older_than`: of the events that the consumer was told of, and these are all there
    were, those up to `id`. -/
theorem olderNumBy_safe {β : Type} {search : (events elemSize skip n top : ℕ) → QueueProg Event β}
    {found : ℕ → β} {q : Queue Event} (hq : QueueInv q) (hsize : 2 ≤ q.elemSize)
    (hfind : Finds N id q.capacity search found) :
    Safe QueueInv (releaseRole N)
      (fun r q' => ∃ n ids k, Shows ids n q' ∧ q.ring.written ≤ q.ring.consumed + n ∧
        r = found k ∧ Older id ids n k)
      (olderNumBy search found id) q := by
  refine Safe.bind hq ((released (peek_safe 0 hq hq.ring.avail_zero)).mono
    fun r q1 i1 hr => ?_)
  obtain ⟨n, r⟩ := r
  obtain ⟨hrs, -, hall, hnone, hsome⟩ := hr
  dsimp only at hrs hall hnone hsome ⊢
  have hall := hall.resolve_left fun h => h.1 rfl
  obtain ⟨ids, hs1⟩ := exists_shows i1 hrs.avail
  cases r with
  | none =>
    obtain rfl : n = 0 := hnone rfl
    exact fun q2 h2 _ => ⟨0, ids, 0, hs1.stable h2, hall, rfl, .nil⟩
  | some r =>
    obtain ⟨p, len1, len2⟩ := r
    have hl := hsome p len1 len2 rfl
    have hsz : 2 ≤ q1.elemSize := by rw [hrs.elemSize]; exact hsize
    rw [if_pos rfl, min_eq_right (i1.lt_all hrs.avail).le] at hl
    have hcap : n ≤ q1.capacity := hrs.avail.le_items.trans i1.items_le
    have hpos := hl.runs.pos
    have hsum := hl.runs.sum
    refine Safe.load_bind (fun _ => ⟨.refl _, .inl rfl, .inl rfl, nofun⟩) fun q2 h2 i2 => ?_
    have hl2 := hl.stable h2
    have hs2 := hs1.stable h2
    have hcap2 : n ≤ q2.capacity := by rw [h2.capacity]; exact hcap
    have hword := i2.capacity_lt
    rw [Chk.require_eq hpos, Prog.ofChk_pure, Prog.ret_bind, Chk.sub_eq hpos (by omega),
      Prog.ofChk_pure, Prog.ret_bind]
    refine eventAt_safe i2 hs2 (j := len1 - 1) (by omega) (hl2.first (by omega))
      fun e q3 h3 i3 he => ?_
    have he : e.id = ids (len1 - 1) := he
    have hl3 := hl2.stable h3
    have hs3 := hs2.stable h3
    have hsz3 : 2 ≤ q3.elemSize := by rw [h3.elemSize, h2.elemSize]; exact hsz
    have hcap3 : q3.capacity = q.capacity := by rw [h3.capacity, h2.capacity, hrs.capacity]
    rw [← h3.elemSize]
    have hall' : q.ring.written ≤ q.ring.consumed + n := hall
    split
    case isTrue hid =>
      -- the first run ends at or after `id`, so all of the second one stays
      have hp : ∀ i < len1, p + i * q3.elemSize = q3.slotOf (q3.ring.consumed + (0 + i)) := by
        intro i hi
        rw [Nat.zero_add]
        exact hl3.first hi
      rw [if_pos rfl]
      refine (hfind i3 hcap3 hsz3 hs3 (by omega) hpos hp).mono fun r q4 i4 ⟨h4, k, hk, ho⟩ => ?_
      simp only [Nat.zero_add] at hk ho
      exact ⟨n, ids, k, hs3.stable h4, hall', hk, ho.of_first (by omega) hpos (he ▸ hid)⟩
    case isFalse hid =>
      -- the whole first run goes
      have hid : ids (len1 - 1) < id := by omega
      split
      case isTrue hlen2 =>
        obtain ⟨-, hoff⟩ := hl3.runs.wrap hlen2
        have hne : ¬ 0 = p := by
          have := Nat.mul_pos hoff i3.pos
          rw [hl3.ptr, slotOf]
          omega
        have hp : ∀ i < len2, 0 + i * q3.elemSize = q3.slotOf (q3.ring.consumed + (len1 + i)) := by
          intro i hi
          rw [Nat.zero_add]
          exact hl3.second (by rw [h3.capacity]; exact hcap2) hi
        rw [Chk.sub_eq hlen2 (by omega), Prog.ofChk_pure, Prog.ret_bind, if_neg hne]
        refine (hfind i3 hcap3 hsz3 hs3 (by omega) hlen2 hp).mono fun r q4 i4 hr4 => ?_
        obtain ⟨h4, t, hk, ho⟩ := hr4
        exact ⟨n, ids, len1 + t, hs3.stable h4, hall', hk, hsum ▸ ho.of_second hid⟩
      case isFalse hlen2 =>
        -- there is no second run, and `id` belongs behind the first
        have hlast : Older id ids len1 len1 := Older.nil.of_second hid
        obtain rfl : n = len1 := by omega
        exact fun q4 h4 _ => ⟨n, ids, n, hs3.stable h4, hall', rfl, hlast⟩

theorem olderNum_safe {q : Queue Event} (hq : QueueInv q) (hsize : 2 ≤ q.elemSize) :
    Safe QueueInv (releaseRole N)
      (fun k q' => ∃ n ids, Shows ids n q' ∧ q.ring.written ≤ q.ring.consumed + n ∧
        Older id ids n k)
      (olderNum id) q := by
  rw [olderNum]
  refine (olderNumBy_safe hq hsize searchOlder_finds).mono fun r q' _ ⟨n, ids, k, hs, hall, hk, ho⟩ => ?_
  subst hk
  exact ⟨n, ids, hs, hall, ho⟩

end Search

end Queue

end Vamos
