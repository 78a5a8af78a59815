import Mathlib.Tactic
import VamosBuffers.Core.SpscRingbuf
import VamosBuffers.Schemes.RelyGuarantee

/-! The two sides of a ring. Everything is said with the unbounded counters `written` and
    `consumed`: the indices are their remainders, the writer's stale tail is the remainder of some
    earlier `consumed`, the reader's stale head of some earlier `written`.

        st ≤ consumed ≤ sh ≤ written < st + capacity
        │        │       │      │
     seenTail   tail  seenHead  head        (each modulo capacity)

    The writer's part of this chain survives whatever the reader does and the other way round, so
    each call is verified alone against any behaviour of the other side. -/

namespace Vamos
open Schemes

namespace Ringbuf

/-- The real indices are the counters' remainders. -/
structure Base (b : Ringbuf) : Prop where
  pos : 0 < b.capacity
  max : b.capacity < 2 ^ 64 - 1 - 1
  head : b.head = b.written % b.capacity
  tail : b.tail = b.consumed % b.capacity

/-- The writer's stale tail is the tail after `st` items had been consumed. -/
structure WriterView (b : Ringbuf) (st : ℕ) : Prop where
  seen : b.seenTail = st % b.capacity
  le : st ≤ b.consumed
  lt : b.written < st + b.capacity

/-- The reader's stale head is the head after `sh` items had been written. -/
structure ReaderView (b : Ringbuf) (sh : ℕ) : Prop where
  seen : b.seenHead = sh % b.capacity
  ge : b.consumed ≤ sh
  le : sh ≤ b.written

/-- The ring invariant. -/
structure RingInv (b : Ringbuf) : Prop where
  base : Base b
  writer : ∃ st, WriterView b st
  reader : ∃ sh, ReaderView b sh

/-- What a step of the writer may change: `head`, the writer's own fields, `written` upwards. -/
structure WriterStep (b b' : Ringbuf) : Prop where
  capacity : b'.capacity = b.capacity
  tail : b'.tail = b.tail
  seenHead : b'.seenHead = b.seenHead
  consumed : b'.consumed = b.consumed
  atHead : b'.atHead = b.atHead
  written : b.written ≤ b'.written

/-- What a step of the reader may change: `tail`, the reader's own fields, `consumed` upwards. -/
structure ReaderStep (b b' : Ringbuf) : Prop where
  capacity : b'.capacity = b.capacity
  head : b'.head = b.head
  seenTail : b'.seenTail = b.seenTail
  wipHead : b'.wipHead = b.wipHead
  wipN : b'.wipN = b.wipN
  written : b'.written = b.written
  atTail : b'.atTail = b.atTail
  consumed : b.consumed ≤ b'.consumed

theorem WriterStep.refl (b : Ringbuf) : WriterStep b b := ⟨rfl, rfl, rfl, rfl, rfl, le_rfl⟩

theorem ReaderStep.refl (b : Ringbuf) : ReaderStep b b :=
  ⟨rfl, rfl, rfl, rfl, rfl, rfl, rfl, le_rfl⟩

theorem WriterStep.trans {b b' b'' : Ringbuf} (h : WriterStep b b') (h' : WriterStep b' b'') :
    WriterStep b b'' :=
  ⟨h'.1.trans h.1, h'.2.trans h.2, h'.3.trans h.3, h'.4.trans h.4, h'.5.trans h.5, h.6.trans h'.6⟩

theorem ReaderStep.trans {b b' b'' : Ringbuf} (h : ReaderStep b b') (h' : ReaderStep b' b'') :
    ReaderStep b b'' :=
  ⟨h'.1.trans h.1, h'.2.trans h.2, h'.3.trans h.3, h'.4.trans h.4, h'.5.trans h.5, h'.6.trans h.6,
    h'.7.trans h.7, h.8.trans h'.8⟩

/-- The writer, moving `head` no further than to `N` items written in all: relies on reader's
    steps, makes writer's steps. -/
def writerRole (N : ℕ) : Role Ringbuf (Acc RingLoc) where
  rely := ReaderStep
  guar _ b b' := WriterStep b b' ∧ (b'.written = b.written ∨ b'.written ≤ N)
  refl := ReaderStep.refl
  trans := ReaderStep.trans

/-- The reader, moving `tail` no further than to `N` items consumed in all: relies on writer's
    steps, makes reader's steps, and records what there is when it loads `head`. -/
def readerRole (N : ℕ) : Role Ringbuf (Acc RingLoc) where
  rely := WriterStep
  guar _ b b' := ReaderStep b b' ∧ (b'.consumed = b.consumed ∨ b'.consumed ≤ N) ∧
    (b'.atHead = b.atHead ∨ b'.atHead = none ∨ b'.atHead = some (b.written - b.consumed))
  refl := WriterStep.refl
  trans := WriterStep.trans

theorem writerRole_load {N : ℕ} {x : RingLoc} (b : Ringbuf) :
    (writerRole N).guar (.load x) b b := ⟨.refl b, .inl rfl⟩

theorem readerRole_load {N : ℕ} {x : RingLoc} (b : Ringbuf) :
    (readerRole N).guar (.load x) b b := ⟨.refl b, .inl rfl, .inl rfl⟩

variable {N : ℕ}

/-! ### The invariant -/

namespace RingInv

variable {b : Ringbuf} (h : RingInv b)
include h

theorem consumed_le : b.consumed ≤ b.written := by
  obtain ⟨sh, hsh⟩ := h.reader
  exact hsh.ge.trans hsh.le

theorem written_lt : b.written < b.consumed + b.capacity := by
  obtain ⟨st, hst⟩ := h.writer
  have h1 := hst.lt
  have h2 := hst.le
  omega

theorem lt_word : b.capacity < 2 ^ 64 := by have := h.base.max; omega

theorem head_lt : b.head < b.capacity := by rw [h.base.head]; exact Nat.mod_lt _ h.base.pos

theorem tail_lt : b.tail < b.capacity := by rw [h.base.tail]; exact Nat.mod_lt _ h.base.pos

/-- The number of items is the distance of the indices. -/
theorem ringDist_items : ringDist b.head b.tail b.capacity = b.written - b.consumed := by
  rw [h.base.head, h.base.tail]
  exact ringDist_mod h.consumed_le h.written_lt

end RingInv

/-- A reader's step leaves the writer's view as it was. -/
theorem WriterView.stable {b b' : Ringbuf} {st : ℕ} (h : WriterView b st) (hs : ReaderStep b b') :
    WriterView b' st := by
  refine ⟨?_, h.le.trans hs.consumed, ?_⟩
  · rw [hs.seenTail, hs.capacity]; exact h.seen
  · rw [hs.written, hs.capacity]; exact h.lt

/-- A writer's step leaves the reader's view as it was. -/
theorem ReaderView.stable {b b' : Ringbuf} {sh : ℕ} (h : ReaderView b sh) (hs : WriterStep b b') :
    ReaderView b' sh := by
  refine ⟨?_, ?_, h.le.trans hs.written⟩
  · rw [hs.seenHead, hs.capacity]; exact h.seen
  · rw [hs.consumed]; exact h.ge

theorem WriterView.seen_lt {b : Ringbuf} {st : ℕ} (h : WriterView b st) (hb : RingInv b) :
    b.seenTail < b.capacity := by
  rw [h.seen]; exact Nat.mod_lt _ hb.base.pos

theorem ReaderView.seen_lt {b : Ringbuf} {sh : ℕ} (h : ReaderView b sh) (hb : RingInv b) :
    b.seenHead < b.capacity := by
  rw [h.seen]; exact Nat.mod_lt _ hb.base.pos

/-- A writer's step keeps the invariant if it leaves the writer's own part in order. -/
theorem RingInv.writerStep {b b' : Ringbuf} (h : RingInv b) (hs : WriterStep b b')
    (hh : b'.head = b'.written % b'.capacity) (hv : ∃ st, WriterView b' st) : RingInv b' := by
  refine ⟨⟨?_, ?_, hh, ?_⟩, hv, ?_⟩
  · rw [hs.capacity]; exact h.base.pos
  · rw [hs.capacity]; exact h.base.max
  · rw [hs.tail, hs.consumed, hs.capacity]; exact h.base.tail
  · obtain ⟨sh, v⟩ := h.reader; exact ⟨sh, v.stable hs⟩

/-- A reader's step keeps the invariant if it leaves the reader's own part in order. -/
theorem RingInv.readerStep {b b' : Ringbuf} (h : RingInv b) (hs : ReaderStep b b')
    (ht : b'.tail = b'.consumed % b'.capacity) (hv : ∃ sh, ReaderView b' sh) : RingInv b' := by
  refine ⟨⟨?_, ?_, ?_, ht⟩, ?_, hv⟩
  · rw [hs.capacity]; exact h.base.pos
  · rw [hs.capacity]; exact h.base.max
  · rw [hs.head, hs.written, hs.capacity]; exact h.base.head
  · obtain ⟨st, v⟩ := h.writer; exact ⟨st, v.stable hs⟩

/-- A fresh ring. -/
theorem init_inv {c : ℕ} (h : (init c).ok = true) :
    RingInv (init c).val ∧ (init c).val.capacity = c := by
  simp only [init, Chk.bind_ok, Chk.require_ok] at h
  obtain ⟨h0, hmax, -⟩ := h
  have hv : (init c).val = ⟨c, 0, 0, 0, 0, 0, 0, 0, 0, none, none⟩ := rfl
  rw [hv]
  have hz := Nat.zero_mod c
  exact ⟨⟨⟨h0, hmax, hz.symm, hz.symm⟩, ⟨0, hz.symm, le_rfl, by simpa using h0⟩,
    ⟨0, hz.symm, le_rfl, le_rfl⟩⟩, rfl⟩

/-! ### Writer -/

/-- There is room for `n` items even if the reader consumes nothing more. -/
def Offer (b : Ringbuf) (n : ℕ) : Prop := ∃ st, WriterView b st ∧ b.written + n < st + b.capacity

theorem Offer.stable {b b' : Ringbuf} {n : ℕ} (h : Offer b n) (hs : ReaderStep b b') :
    Offer b' n := by
  obtain ⟨st, hv, hn⟩ := h
  exact ⟨st, hv.stable hs, by rw [hs.written, hs.capacity]; exact hn⟩

theorem Offer.mono {b : Ringbuf} {m n : ℕ} (h : Offer b n) (hm : m ≤ n) : Offer b m := by
  obtain ⟨st, hv, hn⟩ := h
  exact ⟨st, hv, by omega⟩

/-- An offer never exceeds the slots that are free. -/
theorem Offer.le_free {b : Ringbuf} {n : ℕ} (h : Offer b n) (hb : RingInv b) :
    n ≤ b.capacity - 1 - (b.written - b.consumed) := by
  obtain ⟨st, hv, hn⟩ := h
  have := hv.le
  have := hb.consumed_le
  omega

/-- What `get_write_off` computes from the head and the stale tail. -/
theorem getWriteOff_view {b : Ringbuf} {st : ℕ} (h : RingInv b) (hv : WriterView b st) :
    ∃ n w, getWriteOff b.head b.seenTail b.capacity = pure (n + w, n, w) ∧
      b.written + (n + w) + 1 = st + b.capacity ∧ (n = 0 → w = 0) := by
  have hlt := hv.lt
  have hst : st ≤ b.written := hv.le.trans h.consumed_le
  have hd : ringDist b.head b.seenTail b.capacity = b.written - st := by
    rw [h.base.head, hv.seen]; exact ringDist_mod hst hlt
  obtain ⟨n, w, he, hs⟩ := getWriteOff_eq h.head_lt (hv.seen_lt h) h.lt_word
  have ht := hs.total
  exact ⟨n, w, he, by omega, hs.first⟩

theorem recordTail_inv {b : Ringbuf} (h : RingInv b) (x : Option ℕ) :
    WriterStep b { b with atTail := x } ∧ RingInv { b with atTail := x } := by
  have hs : WriterStep b { b with atTail := x } := ⟨rfl, rfl, rfl, rfl, rfl, le_rfl⟩
  obtain ⟨st, v⟩ := h.writer
  exact ⟨hs, h.writerStep hs h.base.head ⟨st, v.seen, v.le, v.lt⟩⟩

/-- The writer sees the same in both states. -/
structure SameView (b b' : Ringbuf) : Prop where
  capacity : b'.capacity = b.capacity
  head : b'.head = b.head
  seenTail : b'.seenTail = b.seenTail
  written : b'.written = b.written
  atTail : b'.atTail = b.atTail
  consumed : b.consumed ≤ b'.consumed

theorem ReaderStep.view {b b' : Ringbuf} (h : ReaderStep b b') : SameView b b' :=
  ⟨h.capacity, h.head, h.seenTail, h.written, h.atTail, h.consumed⟩

theorem WriterView.same {b b' : Ringbuf} {st : ℕ} (h : WriterView b st) (hs : SameView b b') :
    WriterView b' st := by
  refine ⟨?_, h.le.trans hs.consumed, ?_⟩
  · rw [hs.seenTail, hs.capacity]; exact h.seen
  · rw [hs.written, hs.capacity]; exact h.lt

/-- The numbers come from the stale tail as it is now; if the call has loaded `tail`, that is the tail
    at the load. -/
structure Seen (r : ℕ × ℕ × ℕ) (b : Ringbuf) : Prop where
  nums : getWriteOff b.head b.seenTail b.capacity = pure r
  load : ∀ i, b.atTail = some i → ∃ st, WriterView b st ∧ b.written = st + i

theorem Seen.same {r : ℕ × ℕ × ℕ} {b b' : Ringbuf} (h : Seen r b) (hs : SameView b b') :
    Seen r b' := by
  refine ⟨?_, fun i hi => ?_⟩
  · rw [hs.head, hs.seenTail, hs.capacity]; exact h.nums
  · obtain ⟨st, hv, hw⟩ := h.load i (hs.atTail ▸ hi)
    exact ⟨st, hv.same hs, by rw [hs.written]; exact hw⟩

/-- The numbers of `get_write_off` that the writer may act on, for a call that began in `b₀`: an
    offer at the head it loaded. -/
structure Numbers (b₀ : Ringbuf) (r : ℕ × ℕ × ℕ) (b : Ringbuf) : Prop where
  sum : r.1 = r.2.1 + r.2.2
  room : Offer b r.1
  head : b.head = b₀.head
  capacity : b.capacity = b₀.capacity
  written : b.written = b₀.written
  seen : Seen r b

/-- The writer's call, begun in `b₀`, has found the ring full: when it loaded `tail`, and so already
    at the start. -/
structure FoundFull (b₀ b : Ringbuf) : Prop where
  atTail : b.atTail = some (b.capacity - 1)
  start : b₀.consumed + b₀.capacity ≤ b₀.written + 1

theorem FoundFull.of_rely {b₀ b₁ b : Ringbuf} (h : FoundFull b₁ b) (hs : ReaderStep b₀ b₁) :
    FoundFull b₀ b := by
  refine ⟨h.atTail, ?_⟩
  have h1 := h.start
  rw [hs.capacity, hs.written] at h1
  have := hs.consumed
  omega

/-- A reload of `tail` gives all the room there was at the load. -/
theorem refreshTail_safe (b : Ringbuf) :
    Safe RingInv (writerRole N)
      (fun r b' => Numbers b r b' ∧ (r.2.1 = 0 → FoundFull b b') ∧ b'.atTail ≠ none)
      (refreshTail b.head b.capacity) b := by
  unfold refreshTail
  refine Safe.access_bind fun b1 h1 i1 => ⟨⟨(recordTail_inv i1 _).1, .inl rfl⟩, (recordTail_inv i1 _).2, ?_⟩
  refine Safe.access_bind fun b2 h2 i2 => ?_
  have s2 : WriterStep b2 { b2 with seenTail := b1.tail } := ⟨rfl, rfl, rfl, rfl, rfl, le_rfl⟩
  -- the new stale tail is the tail after the `b1.consumed` items that were gone at the load
  have v2 : WriterView { b2 with seenTail := b1.tail } b1.consumed := by
    refine ⟨?_, h2.consumed, ?_⟩
    · show b1.tail = b1.consumed % b2.capacity
      rw [h2.capacity]; exact i1.base.tail
    · show b2.written < b1.consumed + b2.capacity
      rw [h2.written, h2.capacity]; exact i1.written_lt
  refine ⟨⟨s2, .inl rfl⟩, i2.writerStep s2 i2.base.head ⟨_, v2⟩, ?_⟩
  refine Safe.load_bind writerRole_load fun b3 h3 i3 => ?_
  have v3 := v2.stable h3
  obtain ⟨n, w, he, hn, hz⟩ := getWriteOff_view i3 v3
  have hh : b3.head = b.head := h3.head.trans (h2.head.trans h1.head)
  have hc : b3.capacity = b.capacity := h3.capacity.trans (h2.capacity.trans h1.capacity)
  have hw : b3.written = b.written := h3.written.trans (h2.written.trans h1.written)
  have hw1 : b1.written = b.written := h1.written
  have hle := i1.consumed_le
  have hat : b3.atTail = some (b1.written - b1.consumed) := h3.atTail.trans h2.atTail
  have hseen : Seen (n + w, n, w) b3 := by
    refine ⟨he, fun i hi => ⟨_, v3, ?_⟩⟩
    rw [hat] at hi
    cases hi
    omega
  rw [← hh, ← hc, he, Prog.ofChk_pure]
  intro b4 h4 i4
  refine ⟨⟨rfl, ⟨_, v3.stable h4, ?_⟩, h4.head.trans hh, h4.capacity.trans hc,
    h4.written.trans hw, hseen.same h4.view⟩, fun h0 => ⟨?_, ?_⟩, ?_⟩
  · rw [h4.written, h4.capacity]; omega
  · have := hz h0
    rw [h4.atTail, hat, h4.capacity]
    congr 1
    simp only at h0
    omega
  · have := hz h0
    have := h1.consumed
    simp only at h0
    omega
  · rw [h4.atTail, hat]; nofun

/-- What the writer knows after asking for room: it was offered `n` items at its head. -/
structure Offered (off n : ℕ) (b : Ringbuf) : Prop where
  off : off = b.head
  room : Offer b n
  wipHead : b.wipHead = b.head
  wipN : b.wipN = n

theorem Offered.stable {off n : ℕ} {b b' : Ringbuf} (h : Offered off n b) (hs : ReaderStep b b') :
    Offered off n b' :=
  ⟨by rw [hs.head]; exact h.off, h.room.stable hs, by rw [hs.wipHead, hs.head]; exact h.wipHead,
    by rw [hs.wipN]; exact h.wipN⟩

/-- The last access of the writer's calls: `write_in_progress` records what was offered. -/
theorem setWip_safe {α : Type} {b : Ringbuf} {n : ℕ} (ho : Offer b n) (a : α) :
    Safe RingInv (writerRole N)
      (fun r b' => r = a ∧ Offered b.head n b' ∧ SameView b b')
      (do setWip b.head n; pure a) b := by
  refine Safe.access_bind fun b1 h1 i1 => ?_
  have s1 : WriterStep b1 { b1 with wipHead := b.head, wipN := n } :=
    ⟨rfl, rfl, rfl, rfl, rfl, le_rfl⟩
  obtain ⟨st, v, hn⟩ := ho.stable h1
  have v1 : WriterView { b1 with wipHead := b.head, wipN := n } st := ⟨v.seen, v.le, v.lt⟩
  refine ⟨⟨s1, .inl rfl⟩, i1.writerStep s1 i1.base.head ⟨st, v1⟩,
    fun b2 h2 i2 => ⟨rfl, ?_, ?_⟩⟩
  · have o1 : Offered b.head n { b1 with wipHead := b.head, wipN := n } :=
      ⟨h1.head.symm, ⟨st, v1, hn⟩, h1.head.symm, rfl⟩
    exact o1.stable h2
  · exact ⟨h2.capacity.trans h1.capacity, h2.head.trans h1.head, h2.seenTail.trans h1.seenTail,
      h2.written.trans h1.written, h2.atTail.trans h1.atTail, h1.consumed.trans h2.consumed⟩

/-- The first `get_write_off` of a call, and the second one where it is taken: the numbers are an
    offer, whichever of the two they come from. -/
theorem refreshTailIf_safe {b : Ringbuf} (hb : RingInv b) (h0 : b.atTail = none) (stale : Bool)
    {r : ℕ × ℕ × ℕ} (hr : getWriteOff b.head b.seenTail b.capacity = pure r) :
    Safe RingInv (writerRole N)
      (fun r' b' => Numbers b r' b' ∧ (r'.2.1 = 0 → r.2.1 = 0 ∧ stale = false ∨ FoundFull b b') ∧
        (b'.atTail = none → r' = r ∧ stale = false))
      (refreshTailIf stale b.head b.capacity r) b := by
  unfold refreshTailIf
  cases stale with
  | true =>
    exact (refreshTail_safe b).mono fun r' b' _ h =>
      ⟨h.1, fun h0 => .inr (h.2.1 h0), fun hn => absurd hn h.2.2⟩
  | false =>
    obtain ⟨st, v⟩ := hb.writer
    obtain ⟨n, w, he, hn, -⟩ := getWriteOff_view hb v
    obtain rfl : (n + w, n, w) = r := congrArg Chk.val (he.symm.trans hr)
    have ho : Offer b (n + w) := ⟨st, v, by omega⟩
    have hseen : Seen (n + w, n, w) b := ⟨hr, fun i hi => by rw [h0] at hi; cases hi⟩
    exact fun b' hs _ =>
      ⟨⟨rfl, ho.stable hs, hs.head, hs.capacity, hs.written, hseen.same hs.view⟩,
        fun h => .inl ⟨h, rfl⟩, fun _ => ⟨rfl, rfl⟩⟩

/-- A call begins with the present indices: nothing of the writer's has moved. -/
theorem beginWrite_safe (b : Ringbuf) :
    Safe RingInv (writerRole N)
      (fun r b' => r = (b'.head, b'.capacity, b'.seenTail) ∧ b'.written = b.written ∧
        b'.capacity = b.capacity ∧ b.consumed ≤ b'.consumed ∧ b'.atTail = none) beginWrite b := by
  refine Safe.access_bind fun b1 h1 i1 => ⟨⟨(recordTail_inv i1 _).1, .inl rfl⟩, (recordTail_inv i1 _).2, ?_⟩
  refine Safe.load_bind writerRole_load fun b2 h2 i2 => fun b3 h3 i3 => ⟨?_, ?_, ?_, ?_, ?_⟩
  · rw [h3.head, h3.capacity, h3.seenTail]
    exact Prod.ext h2.head.symm (Prod.ext h2.capacity.symm rfl)
  · exact h3.written.trans (h2.written.trans h1.written)
  · exact h3.capacity.trans (h2.capacity.trans h1.capacity)
  · exact h1.consumed.trans (h2.consumed.trans h3.consumed)
  · exact h3.atTail.trans h2.atTail

/-- What a writer's call for `req` elements found: numbers from the stale tail it leaves, and fewer
    than `req` only after a load of `tail`. -/
structure Found (req n wrapN : ℕ) (b : Ringbuf) : Prop where
  seen : Seen (n + wrapN, n, wrapN) b
  enough : b.atTail = none → req ≤ n + wrapN

theorem Found.same {req n wrapN : ℕ} {b b' : Ringbuf} (h : Found req n wrapN b)
    (hs : SameView b b') : Found req n wrapN b' :=
  ⟨h.seen.same hs, fun h0 => h.enough (hs.atTail ▸ h0)⟩

/-- The number is short of the request only if there was no more room at the load of `tail`. -/
theorem Found.at_load {req n wrapN i : ℕ} {b : Ringbuf} (h : Found req n wrapN b) (hb : RingInv b)
    (hi : b.atTail = some i) : n + wrapN = b.capacity - 1 - i := by
  obtain ⟨st, hv, hw⟩ := h.seen.load i hi
  obtain ⟨n', w', he, hn, -⟩ := getWriteOff_view hb hv
  have hc := congrArg (fun x => x.val.1) (he.symm.trans h.seen.nums)
  simp only [Chk.pure_val] at hc
  omega

/-- The body that the writer's calls share: the first `get_write_off`, and the second one when that
    gave fewer than `req` elements. -/
theorem atLeast_safe {b : Ringbuf} (hb : RingInv b) (h0 : b.atTail = none) (req : ℕ) :
    ∃ r, getWriteOff b.head b.seenTail b.capacity = pure r ∧
      Safe RingInv (writerRole N)
        (fun r' b' => Numbers b r' b' ∧ Found req r'.2.1 r'.2.2 b' ∧
          (r'.2.1 = 0 → 0 < req → FoundFull b b'))
        (refreshTailIf (r.1 < req) b.head b.capacity r) b := by
  obtain ⟨st, v⟩ := hb.writer
  obtain ⟨n, w, he, -, hz⟩ := getWriteOff_view hb v
  refine ⟨_, he, (refreshTailIf_safe hb h0 _ he).mono fun r b1 _ hr => ?_⟩
  obtain ⟨hN, hz1, hn⟩ := hr
  refine ⟨hN, ⟨?_, fun ha => ?_⟩, fun h1 hreq => (hz1 h1).resolve_left ?_⟩
  · rw [← hN.sum]; exact hN.seen
  · obtain ⟨rfl, hst⟩ := hn ha
    simpa using hst
  · -- the cached numbers are kept only when they are enough
    rintro ⟨hn0, hst⟩
    have hn0 : n = 0 := hn0
    simp [hn0, hz hn0] at hst
    omega

/-- `write_off` and `acquire` offer what they report. -/
theorem writeOffAtLeast_safe {b : Ringbuf} (hb : RingInv b) (req : ℕ) :
    Safe RingInv (writerRole N)
      (fun r b' => Offered r.1 (r.2.1 + r.2.2) b' ∧ b'.written = b.written ∧
        Found req r.2.1 r.2.2 b')
      (writeOffAtLeast req) b := by
  refine Safe.bind hb ((beginWrite_safe b).mono fun r b1 i1 hr => ?_)
  obtain ⟨rfl, hw1, -, -, h0⟩ := hr
  dsimp only
  obtain ⟨r, he, hs⟩ := atLeast_safe (N := N) i1 h0 req
  rw [he, Prog.ofChk_pure, Prog.ret_bind]
  refine Safe.bind i1 (hs.mono fun r b2 i2 hr => ?_)
  obtain ⟨⟨hsum, ho, hh2, -, hw2, -⟩, hf, -⟩ := hr
  rw [hsum] at ho
  have hlt := ho.le_free i2
  have := i2.lt_word
  rw [Chk.add_eq (by omega), Prog.ofChk_pure, Prog.ret_bind, ← hh2]
  refine (setWip_safe ho _).mono fun a b3 _ ha => ?_
  obtain ⟨rfl, ho3, hv⟩ := ha
  exact ⟨ho3, hv.written.trans (hw2.trans hw1), hf.same hv⟩

/-- `acquire_nowrap` offers what it reports. -/
theorem acquireNowrap_safe {b : Ringbuf} (hb : RingInv b) (req : ℕ) :
    Safe RingInv (writerRole N)
      (fun r b' => Offered r.1 r.2 b' ∧ b'.written = b.written ∧ ∃ wrapN, Found req r.2 wrapN b')
      (acquireNowrap req) b := by
  refine Safe.bind hb ((beginWrite_safe b).mono fun r b1 i1 hr => ?_)
  obtain ⟨rfl, hw1, -, -, h0⟩ := hr
  dsimp only
  obtain ⟨r, he, hs⟩ := atLeast_safe (N := N) i1 h0 req
  rw [he, Prog.ofChk_pure, Prog.ret_bind]
  refine Safe.bind i1 (hs.mono fun r b2 i2 hr => ?_)
  obtain ⟨⟨hsum, ho, hh2, -, hw2, -⟩, hf, -⟩ := hr
  rw [← hh2]
  refine (setWip_safe (ho.mono (m := r.2.1) (by omega)) _).mono fun a b3 _ ha => ?_
  obtain ⟨rfl, ho3, hv⟩ := ha
  exact ⟨ho3, hv.written.trans (hw2.trans hw1), _, hf.same hv⟩

theorem nowrapNum_safe {b : Ringbuf} (h0 : b.atTail = none) (seenTail : ℕ) :
    Safe RingInv (writerRole N)
      (fun r b' => Numbers b r b' ∧ Found 1 r.2.1 r.2.2 b' ∧ (r.2.1 = 0 → FoundFull b b'))
      (nowrapNum b.head b.capacity seenTail) b := by
  unfold nowrapNum
  split
  · refine (refreshTail_safe b).mono fun r b' _ ⟨hN, hz, hn⟩ =>
      ⟨hN, ⟨?_, fun h => absurd h hn⟩, hz⟩
    rw [← hN.sum]; exact hN.seen
  · refine Safe.load_bind writerRole_load fun b1 h1 i1 => ?_
    obtain ⟨r, he, hs⟩ := atLeast_safe (N := N) i1 (h1.atTail.trans h0) 1
    rw [h1.head, h1.capacity] at he hs
    have hz : (r.1 == 0) = decide (r.1 < 1) := by rw [Bool.eq_iff_iff]; simp
    rw [he, Prog.ofChk_pure, Prog.ret_bind, hz]
    exact hs.mono fun r b2 _ ⟨hN, hf, hz2⟩ => ⟨⟨hN.sum, hN.room, hN.head.trans h1.head,
      hN.capacity.trans h1.capacity, hN.written.trans h1.written, hN.seen⟩, hf,
      fun h0 => (hz2 h0 Nat.one_pos).of_rely h1⟩

/-- `write_off_nowrap` offers what it reports, and reports `0` only if the ring was full when it
    loaded `tail`. -/
theorem writeOffNowrap_safe {b : Ringbuf} (hb : RingInv b) :
    Safe RingInv (writerRole N)
      (fun r b' => Offered r.1 r.2 b' ∧ b'.written = b.written ∧ (r.2 = 0 → FoundFull b b') ∧
        ∃ wrapN, Found 1 r.2 wrapN b')
      writeOffNowrap b := by
  refine Safe.bind hb ((beginWrite_safe b).mono fun r b1 i1 hr => ?_)
  obtain ⟨rfl, hw1, hc1, hr1, h0⟩ := hr
  dsimp only
  refine Safe.bind i1 ((nowrapNum_safe h0 _).mono fun r b2 i2 hr => ?_)
  obtain ⟨⟨hs, ho, hh2, hc2, hw2, -⟩, hf, hz⟩ := hr
  rw [← hh2]
  refine (setWip_safe (ho.mono (m := r.2.1) (by omega)) _).mono fun a b3 _ ha => ?_
  obtain ⟨rfl, ho3, hv⟩ := ha
  refine ⟨ho3, hv.written.trans (hw2.trans hw1), fun h0 => ?_, _, hf.same hv⟩
  obtain ⟨hat, hst⟩ := hz h0
  exact ⟨by rw [hv.atTail, hv.capacity]; exact hat, by omega⟩

/-- `write_finish(n)` for at most the `m` items offered: `head` moves by `n`, no assertion fails. -/
theorem writeFinish_safe {b : Ringbuf} {off m n : ℕ} (ho : Offered off m b) (h0 : 0 < n)
    (hn : n ≤ m) (hc : b.capacity + n < 2 ^ 64 - 1) (hl : b.written + n ≤ N) :
    Safe RingInv (writerRole N) (fun _ b' => b'.written = b.written + n) (writeFinish n) b := by
  unfold writeFinish
  refine Safe.load_bind writerRole_load fun b1 h1 i1 => ?_
  have o1 := ho.stable h1
  have hf := o1.room.le_free i1
  rw [checkCount_eq (by omega) (by rw [h1.capacity]; exact hc), Prog.ofChk_pure, Prog.ret_bind]
  refine Safe.load_bind writerRole_load fun b2 h2 i2 => ?_
  refine Safe.load_bind writerRole_load fun b3 h3 i3 => ?_
  have o2 := o1.stable h2
  rw [Chk.require_eq (o2.wipHead.trans h3.head.symm), Chk.require_eq (by rw [o2.wipN]; exact hn),
    Prog.ofChk_pure, Prog.ret_bind, Prog.ret_bind]
  refine Safe.load_bind writerRole_load fun b4 h4 i4 => ?_
  have hcap : b4.capacity = b1.capacity := h4.capacity.trans (h3.capacity.trans h2.capacity)
  rw [i4.base.head, ← hcap, moveIndex_eq i4.base.pos (by omega) (by rw [hcap, h1.capacity]; omega),
    Prog.ofChk_pure, Prog.ret_bind]
  refine Safe.load_bind writerRole_load fun b5 h5 i5 => ?_
  obtain ⟨st, v5, hst⟩ := (((o2.stable h3).stable h4).stable h5).room
  have hle := i5.consumed_le
  have hle2 := v5.le
  rw [← h5.written, ← h5.capacity, Chk.require_eq (by
    rw [i5.base.tail]; exact mod_ne_mod (by omega) (by omega)), Prog.ofChk_pure, Prog.ret_bind]
  refine Safe.access fun b6 h6 i6 => ?_
  have v6 := v5.stable h6
  have s6 : WriterStep b6
      { b6 with head := (b5.written + n) % b5.capacity, written := b6.written + n } :=
    ⟨rfl, rfl, rfl, rfl, rfl, by simp⟩
  have v7 : WriterView
      { b6 with head := (b5.written + n) % b5.capacity, written := b6.written + n } st :=
    ⟨v6.seen, v6.le, by simp only; rw [h6.written, h6.capacity]; omega⟩
  have hw : b6.written = b.written := by
    rw [h6.written, h5.written, h4.written, h3.written, h2.written, h1.written]
  refine ⟨⟨s6, .inr (by simp only; omega)⟩,
    i6.writerStep s6 (by simp only; rw [h6.written, h6.capacity]) ⟨st, v7⟩, fun b7 h7 _ => ?_⟩
  rw [h7.written]
  simp only
  rw [hw]

/-! ### Reader -/

/-- There are `n` items to read even if the writer writes nothing more. -/
def Avail (b : Ringbuf) (n : ℕ) : Prop := ∃ sh, ReaderView b sh ∧ b.consumed + n ≤ sh

theorem Avail.stable {b b' : Ringbuf} {n : ℕ} (h : Avail b n) (hs : WriterStep b b') :
    Avail b' n := by
  obtain ⟨sh, hv, hn⟩ := h
  exact ⟨sh, hv.stable hs, by rw [hs.consumed]; exact hn⟩

theorem Avail.mono {b : Ringbuf} {m n : ℕ} (h : Avail b n) (hm : m ≤ n) : Avail b m := by
  obtain ⟨sh, hv, hn⟩ := h
  exact ⟨sh, hv, by omega⟩

/-- What the reader is told never exceeds the items present. -/
theorem Avail.max {b : Ringbuf} {m n : ℕ} (h : Avail b m) (h' : Avail b n) :
    Avail b (max m n) := by
  rcases max_choice m n with he | he
  · rw [he]; exact h
  · rw [he]; exact h'

theorem Avail.le_items {b : Ringbuf} {n : ℕ} (h : Avail b n) : n ≤ b.written - b.consumed := by
  obtain ⟨sh, hv, hn⟩ := h
  have := hv.le
  omega

theorem RingInv.avail_zero {b : Ringbuf} (h : RingInv b) : Avail b 0 := by
  obtain ⟨sh, v⟩ := h.reader
  exact ⟨sh, v, v.ge⟩

theorem ReaderView.ringDist_seen {b : Ringbuf} {sh : ℕ} (hv : ReaderView b sh) (h : RingInv b) :
    ringDist b.seenHead b.tail b.capacity = sh - b.consumed := by
  rw [hv.seen, h.base.tail]
  exact ringDist_mod hv.ge (by have := hv.le; have := h.written_lt; omega)

/-- What `get_written_num` computes from the stale head and the tail. -/
theorem getWrittenNum_view {b : Ringbuf} {sh : ℕ} (h : RingInv b) (hv : ReaderView b sh) :
    getWrittenNum b.seenHead b.tail b.capacity = pure (sh - b.consumed) := by
  rw [getWrittenNum_eq (hv.seen_lt h) h.tail_lt h.lt_word, hv.ringDist_seen h]

theorem recordHead_inv {b : Ringbuf} (h : RingInv b) (x : Option ℕ) :
    ReaderStep b { b with atHead := x } ∧ RingInv { b with atHead := x } := by
  have hs : ReaderStep b { b with atHead := x } :=
    ⟨rfl, rfl, rfl, rfl, rfl, rfl, rfl, le_rfl⟩
  obtain ⟨sh, v⟩ := h.reader
  exact ⟨hs, h.readerStep hs h.base.tail ⟨sh, v.seen, v.ge, v.le⟩⟩

/-- `seen_head` set to the head after `sh` items, loaded earlier in the call. -/
theorem storeSeenHead_inv {b : Ringbuf} (sh : ℕ) (h : RingInv b) (hge : b.consumed ≤ sh)
    (hle : sh ≤ b.written) :
    ReaderStep b { b with seenHead := sh % b.capacity } ∧
      RingInv { b with seenHead := sh % b.capacity } ∧
      ReaderView { b with seenHead := sh % b.capacity } sh := by
  have hs : ReaderStep b { b with seenHead := sh % b.capacity } :=
    ⟨rfl, rfl, rfl, rfl, rfl, rfl, rfl, le_rfl⟩
  have hv : ReaderView { b with seenHead := sh % b.capacity } sh := ⟨rfl, hge, hle⟩
  exact ⟨hs, h.readerStep hs h.base.tail ⟨_, hv⟩, hv⟩

/-- What the reader knows after asking for items, in a call begun in `b₀`: it was told of `n` items
    at its tail. -/
structure Told (b₀ : Ringbuf) (off n : ℕ) (b : Ringbuf) : Prop where
  off : off = b.tail
  avail : Avail b n
  consumed : b.consumed = b₀.consumed
  capacity : b.capacity = b₀.capacity

theorem Told.stable {b₀ b b' : Ringbuf} {off n : ℕ} (h : Told b₀ off n b) (hs : WriterStep b b') :
    Told b₀ off n b' :=
  ⟨by rw [hs.tail]; exact h.off, h.avail.stable hs, by rw [hs.consumed]; exact h.consumed,
    by rw [hs.capacity]; exact h.capacity⟩

/-- The number comes from the stale head as it is now; if the call has loaded `head`, that many items
    were there at the load. -/
structure Counted (n : ℕ) (b : Ringbuf) : Prop where
  num : n = ringDist b.seenHead b.tail b.capacity
  load : ∀ i, b.atHead = some i → i = n

theorem Counted.stable {n : ℕ} {b b' : Ringbuf} (h : Counted n b) (hs : WriterStep b b') :
    Counted n b' := by
  refine ⟨?_, fun i hi => h.load i (hs.atHead ▸ hi)⟩
  rw [hs.seenHead, hs.tail, hs.capacity]
  exact h.num

/-- Items counted from the stale head of an earlier state were there already. -/
theorem Counted.le_items {n : ℕ} {b₀ b : Ringbuf} (h : Counted n b) (hb : RingInv b₀)
    (ht : b.tail = b₀.tail) (hc : b.capacity = b₀.capacity) (hs : b.seenHead = b₀.seenHead) :
    b₀.consumed + n ≤ b₀.written := by
  obtain ⟨sh, v⟩ := hb.reader
  have hn := h.num
  rw [hs, ht, hc, v.ringDist_seen hb] at hn
  have := v.le
  have := v.ge
  omega

/-- A call begins with the present indices: nothing of the reader's has moved. -/
theorem beginRead_safe {b : Ringbuf} {m : ℕ} (hm : Avail b m) :
    Safe RingInv (readerRole N)
      (fun r b' => r = (b'.tail, b'.capacity, b'.seenHead) ∧ Avail b' m ∧
        b'.consumed = b.consumed ∧ b'.tail = b.tail ∧ b'.capacity = b.capacity ∧
        b.written ≤ b'.written ∧ b'.atHead = none ∧ b'.seenHead = b.seenHead) beginRead b := by
  refine Safe.access_bind fun b1 h1 i1 =>
    ⟨⟨(recordHead_inv i1 _).1, .inl rfl, .inr (.inl rfl)⟩, (recordHead_inv i1 _).2, ?_⟩
  refine Safe.load_bind readerRole_load fun b2 h2 i2 => fun b3 h3 i3 =>
    ⟨?_, ?_, ?_, ?_, ?_, ?_, ?_, ?_⟩
  · rw [h3.tail, h3.capacity, h3.seenHead]
    exact Prod.ext h2.tail.symm (Prod.ext h2.capacity.symm rfl)
  · obtain ⟨sh, v, hn⟩ := hm.stable h1
    have v1 : Avail { b1 with atHead := none } m := ⟨sh, ⟨v.seen, v.ge, v.le⟩, hn⟩
    exact (v1.stable h2).stable h3
  · exact h3.consumed.trans (h2.consumed.trans h1.consumed)
  · exact h3.tail.trans (h2.tail.trans h1.tail)
  · exact h3.capacity.trans (h2.capacity.trans h1.capacity)
  · exact h1.written.trans (h2.written.trans h3.written)
  · exact h3.atHead.trans h2.atHead
  · exact h3.seenHead.trans (h2.seenHead.trans h1.seenHead)

/-- The load of `head` and the store to `seen_head`, as `read_off_nowrap` and `peek` make them: the
    new stale head is the head after `sh` items, no fewer than there were. -/
theorem reloadHead_safe {α : Type} {b : Ringbuf} {m : ℕ} (hm : Avail b m)
    {Q : α → Ringbuf → Prop} {g : ℕ → RingProg α}
    (h : ∀ sh b', ReaderView b' sh → b.consumed + m ≤ sh → b.written ≤ sh →
      b'.consumed = b.consumed → b'.tail = b.tail → b'.capacity = b.capacity →
      b'.atHead = some (sh - b'.consumed) → RingInv b' →
      Safe RingInv (readerRole N) Q (g b'.seenHead) b') :
    Safe RingInv (readerRole N) Q
      (do
        let head ← loadHeadR
        Prog.store .seenHead fun b => { b with seenHead := head }
        g head) b := by
  refine Safe.access_bind fun b1 h1 i1 =>
    ⟨⟨(recordHead_inv i1 _).1, .inl rfl, .inr (.inr rfl)⟩, (recordHead_inv i1 _).2, ?_⟩
  refine Safe.access_bind fun b2 h2 i2 => ?_
  have hc : b2.consumed = b1.consumed := h2.consumed
  have hk : b2.capacity = b1.capacity := h2.capacity
  obtain ⟨s2, i2', v2⟩ := storeSeenHead_inv b1.written i2 (hc ▸ i1.consumed_le) h2.written
  have e2 : b1.head = b1.written % b2.capacity := by rw [hk]; exact i1.base.head
  rw [e2]
  refine ⟨⟨s2, .inl rfl, .inl rfl⟩, i2', h _ _ v2 ?_ h1.written (hc.trans h1.consumed)
    (h2.tail.trans h1.tail) (hk.trans h1.capacity) ?_ i2'⟩
  · have := (hm.stable h1).le_items
    have := i1.consumed_le
    have := h1.consumed
    omega
  · show b2.atHead = some (b1.written - b2.consumed)
    rw [hc]; exact h2.atHead

/-- A reload of `head` tells of all the items there were at the load. -/
theorem refreshHead_safe {b : Ringbuf} {m : ℕ} (hm : Avail b m) :
    Safe RingInv (readerRole N)
      (fun n b' => Told b b.tail n b' ∧ m ≤ n ∧
        (b'.atHead = some n ∧ b.written ≤ b.consumed + n) ∧ Counted n b')
      (refreshHead b.tail b.capacity) b := by
  refine reloadHead_safe hm fun sh b1 v1 hsh hw hc1 ht1 hk1 ha1 i1 => ?_
  refine Safe.load_bind readerRole_load fun b2 h2 i2 => ?_
  have v2 := v1.stable h2
  have hc : b2.consumed = b.consumed := h2.consumed.trans hc1
  have ha2 : b2.atHead = some (sh - b2.consumed) := by rw [h2.atHead, ha1, h2.consumed]
  have hcount : Counted (sh - b2.consumed) b2 :=
    ⟨(v2.ringDist_seen i2).symm, fun i hi => by rw [ha2] at hi; cases hi; rfl⟩
  rw [← ht1, ← hk1, ← h2.tail, ← h2.capacity, getWrittenNum_view i2 v2, Prog.ofChk_pure]
  intro b3 h3 i3
  have v3 := v2.stable h3
  have hc3 : b3.consumed = b2.consumed := h3.consumed
  refine ⟨⟨h3.tail.symm, ⟨sh, v3, ?_⟩, hc3.trans hc,
    h3.capacity.trans (h2.capacity.trans hk1)⟩, by omega, ⟨?_, by omega⟩, hcount.stable h3⟩
  · have := v3.ge; omega
  · rw [h3.atHead, ha2]

/-- The first `get_written_num` of a call, and the second one where it is taken. The number is still
    `stale` only if a reload of `head` gave it; without a reload the stale head is as it was. -/
theorem readNum_safe {b : Ringbuf} {m : ℕ} (hb : RingInv b) (hm : Avail b m) (stale : ℕ → Bool) :
    Safe RingInv (readerRole N)
      (fun r b' => Told b r.1 r.2 b' ∧ m ≤ r.2 ∧
        (stale r.2 = true → b'.atHead = some r.2 ∧ b.written ≤ b.consumed + r.2) ∧
        Counted r.2 b' ∧ (b'.atHead = none → b'.seenHead = b.seenHead))
      (readNum stale) b := by
  refine Safe.bind hb ((beginRead_safe hm).mono fun r b1 i1 hr => ?_)
  obtain ⟨rfl, hm1, hc1, ht1, hk1, hw1, ha1, hs1⟩ := hr
  obtain ⟨sh, v, hn⟩ := hm1
  dsimp only
  rw [getWrittenNum_view i1 v, Prog.ofChk_pure, Prog.ret_bind]
  have tail : ∀ n b2, Told b1 b1.tail n b2 → m ≤ n →
      (stale n = true → b2.atHead = some n ∧ b1.written ≤ b1.consumed + n) → Counted n b2 →
      (b2.atHead = none → b2.seenHead = b.seenHead) →
      Safe RingInv (readerRole N)
        (fun r b' => Told b r.1 r.2 b' ∧ m ≤ r.2 ∧
          (stale r.2 = true → b'.atHead = some r.2 ∧ b.written ≤ b.consumed + r.2) ∧
          Counted r.2 b' ∧ (b'.atHead = none → b'.seenHead = b.seenHead))
        (pure (b1.tail, n)) b2 := by
    intro n b2 ht hmn hs hcount hold b3 h3 i3
    have t3 := ht.stable h3
    exact ⟨⟨t3.off, t3.avail, t3.consumed.trans hc1, t3.capacity.trans hk1⟩, hmn,
      fun h => ⟨h3.atHead.trans (hs h).1, by have := (hs h).2; dsimp only; omega⟩,
      hcount.stable h3, fun h => h3.seenHead.trans (hold (h3.atHead ▸ h))⟩
  unfold refreshHeadIf
  cases hst : stale (sh - b1.consumed) with
  | true =>
    refine Safe.bind i1 ((refreshHead_safe ⟨sh, v, hn⟩).mono fun n b2 _ h => ?_)
    exact tail n b2 h.1 h.2.1 (fun _ => h.2.2.1) h.2.2.2 fun h0 => by
      rw [h.2.2.1.1] at h0; cases h0
  | false =>
    refine tail _ b1 ⟨rfl, ⟨sh, v, ?_⟩, rfl, rfl⟩ (by omega) (fun h => ?_)
      ⟨(v.ringDist_seen i1).symm, fun i hi => ?_⟩ fun _ => hs1
    · have := v.ge; omega
    · rw [hst] at h; cases h
    · rw [ha1] at hi; cases hi

/-- `consume(n)` of at most the `m` items told: `tail` moves by `n`, no assertion fails. -/
theorem consume_safe {b : Ringbuf} {m n : ℕ} (hm : Avail b m) (h0 : 0 < n) (hn : n ≤ m)
    (hc : b.capacity + n < 2 ^ 64 - 1) (hl : b.consumed + n ≤ N) :
    Safe RingInv (readerRole N)
      (fun _ b' => b'.consumed = b.consumed + n ∧ Avail b' (m - n) ∧ b'.atHead = b.atHead)
      (consume n) b := by
  unfold consume
  rw [Chk.require_eq h0, Prog.ofChk_pure, Prog.ret_bind]
  refine Safe.load_bind readerRole_load fun b1 h1 i1 => ?_
  have hle := (hm.stable h1).le_items
  have hlt := i1.written_lt
  rw [checkCount_eq (by omega) (by rw [h1.capacity]; exact hc), Prog.ofChk_pure, Prog.ret_bind]
  refine Safe.load_bind readerRole_load fun b2 h2 i2 => ?_
  rw [i2.base.tail, ← h2.capacity, moveIndex_eq i2.base.pos
    (by rw [h2.capacity]; omega) (by rw [h2.capacity, h1.capacity]; omega), Prog.ofChk_pure,
    Prog.ret_bind]
  refine Safe.access fun b3 h3 i3 => ?_
  obtain ⟨sh, v3, hs3⟩ := ((hm.stable h1).stable h2).stable h3
  have s3 : ReaderStep b3
      { b3 with tail := (b2.consumed + n) % b2.capacity, consumed := b3.consumed + n } :=
    ⟨rfl, rfl, rfl, rfl, rfl, rfl, rfl, by simp⟩
  have v4 : ReaderView
      { b3 with tail := (b2.consumed + n) % b2.capacity, consumed := b3.consumed + n } sh :=
    ⟨v3.seen, by simp only; omega, v3.le⟩
  have hw : b3.consumed = b.consumed := by rw [h3.consumed, h2.consumed, h1.consumed]
  refine ⟨⟨s3, .inr (by simp only; omega), .inl rfl⟩,
    i3.readerStep s3 (by simp only; rw [h3.consumed, h3.capacity]) ⟨sh, v4⟩,
    fun b4 h4 _ => ⟨?_, Avail.stable ⟨sh, v4, by simp only; omega⟩ h4, ?_⟩⟩
  · rw [h4.consumed]
    simp only
    rw [hw]
  · rw [h4.atHead]
    exact h3.atHead.trans (h2.atHead.trans h1.atHead)

/-- `consume_upto(n)` consumes at most `n` items, and as many of them as the reader knew of. It takes
    all it was asked for, or what there was when it loaded `head`. -/
theorem consumeUpto_safe {b : Ringbuf} {m n : ℕ} (hb : RingInv b) (hm : Avail b m)
    (hn : n ≤ b.capacity) (hc : b.capacity + n < 2 ^ 64 - 1) (hl : b.consumed + n ≤ N) :
    Safe RingInv (readerRole N)
      (fun k b' => k ≤ n ∧ min m n ≤ k ∧ b'.consumed = b.consumed + k ∧ Avail b' (m - k) ∧
        (∀ i, b'.atHead = some i → k = min n i) ∧
        (b'.atHead = none → k = n ∧ b.consumed + k ≤ b.written))
      (consumeUpto n) b := by
  unfold consumeUpto
  refine Safe.load_bind readerRole_load fun b1 h1 i1 => ?_
  rw [checkCount_eq (by rw [h1.capacity]; exact hn) (by rw [h1.capacity]; exact hc),
    Prog.ofChk_pure, Prog.ret_bind]
  refine Safe.bind i1 ((readNum_safe i1 (hm.stable h1) _).mono fun r b2 i2 hr => ?_)
  obtain ⟨ht, hmr, hstale, hcount, hold⟩ := hr
  obtain ⟨off, k⟩ := r
  have hcons : b2.consumed = b.consumed := ht.consumed.trans h1.consumed
  have hcap : b2.capacity = b.capacity := ht.capacity.trans h1.capacity
  dsimp only at hmr hstale hcount hold ⊢
  have hmin : (if k < n then k else n) = min n k := by split <;> omega
  have hload : ∀ i, b2.atHead = some i → min n k = min n i := fun i hi => by rw [hcount.load i hi]
  have hnone : b2.atHead = none → min n k = n ∧ b.consumed + min n k ≤ b.written := by
    intro h0
    have htail : b2.tail = b.tail := by rw [i2.base.tail, hb.base.tail, hcons, hcap]
    have := hcount.le_items hb htail hcap ((hold h0).trans h1.seenHead)
    have hk : ¬ k < n := fun hk => by
      rw [(hstale (by simpa using hk)).1] at h0; cases h0
    omega
  rw [hmin]
  by_cases h0 : 0 < min n k
  · rw [if_pos h0]
    refine Safe.bind i2 ((consume_safe ht.avail h0 (Nat.min_le_right n k) (by omega)
      (by omega)).mono fun _ b3 _ ⟨hc3, hav3, ha3⟩ => fun b4 h4 _ => ?_)
    have ha4 : b4.atHead = b2.atHead := h4.atHead.trans ha3
    dsimp only
    rw [ha4]
    exact ⟨Nat.min_le_left n k, by omega, by rw [h4.consumed, hc3, hcons],
      (hav3.stable h4).mono (by omega), hload, hnone⟩
  · rw [if_neg h0]
    refine fun b3 h3 _ => ?_
    dsimp only
    rw [h3.atHead]
    exact ⟨Nat.min_le_left n k, by omega, by rw [h3.consumed, hcons]; omega,
      (ht.avail.stable h3).mono (by dsimp only; omega), hload, hnone⟩

theorem peekNum_safe {b : Ringbuf} {m : ℕ} (n : ℕ) (hb : RingInv b) (hm : Avail b m)
    (ha : b.atHead = none) :
    ∃ cur, getWrittenNum b.seenHead b.tail b.capacity = pure cur ∧
      Safe RingInv (readerRole N)
        (fun r b' => Told b b.tail r.2 b' ∧ m ≤ r.2 ∧ r.1 < b.capacity ∧
          r.2 = ringDist r.1 b.tail b.capacity ∧ Counted r.2 b' ∧
          (n ≠ 0 ∧ n ≤ r.2 ∨ b.written ≤ b.consumed + r.2 ∧ b'.atHead = some r.2))
        (peekNum n b.tail b.capacity b.seenHead cur) b := by
  obtain ⟨sh, v, hsh⟩ := hm
  refine ⟨sh - b.consumed, getWrittenNum_view hb v, ?_⟩
  unfold peekNum
  split
  · refine reloadHead_safe ⟨sh, v, hsh⟩ fun sh' b1 v1 hsh1 hw1 hc1 ht1 hk1 ha1 i1 => ?_
    have hw := getWrittenNum_view i1 v1
    have hd := v1.ringDist_seen i1
    have hlt := v1.seen_lt i1
    have hcount : Counted (sh' - b1.consumed) b1 :=
      ⟨hd.symm, fun i hi => by rw [ha1] at hi; cases hi; rfl⟩
    rw [ht1, hk1] at hw hd
    rw [hk1] at hlt
    rw [hw, Prog.ofChk_pure, Prog.ret_bind]
    refine fun b2 h2 _ => ⟨⟨?_, ⟨sh', v1.stable h2, ?_⟩, h2.consumed.trans hc1,
      h2.capacity.trans hk1⟩, by omega, hlt, hd.symm, hcount.stable h2, .inr ⟨by omega, ?_⟩⟩
    · rw [h2.tail, ht1]
    · rw [h2.consumed]; have := v1.ge; omega
    · rw [h2.atHead, ha1]
  · rename_i hcur
    refine fun b2 h2 _ => ⟨⟨h2.tail.symm, ⟨sh, v.stable h2, ?_⟩, h2.consumed, h2.capacity⟩,
      by omega, v.seen_lt hb, (v.ringDist_seen hb).symm, ?_, .inl (by omega)⟩
    · rw [h2.consumed]; have := v.ge; omega
    · have hcount : Counted (sh - b.consumed) b :=
        ⟨(v.ringDist_seen hb).symm, fun i hi => by rw [ha] at hi; cases hi⟩
      exact hcount.stable h2

/-- `peek` tells of items that are there, and where they lie; its assertions hold. It tells of as many
    as it was asked for, or of all there were. -/
theorem peek_safe {b : Ringbuf} {m : ℕ} (n : ℕ) (hb : RingInv b) (hm : Avail b m) :
    Safe RingInv (readerRole N)
      (fun r b' => Told b b'.tail r.1 b' ∧ m ≤ r.1 ∧ Counted r.1 b' ∧
        (n ≠ 0 ∧ n ≤ r.1 ∨ b.written ≤ b.consumed + r.1 ∧ b'.atHead = some r.1) ∧
        (r.2 = none → n = 0 ∨ r.1 = 0) ∧
        ∀ off len1 len2, r.2 = some (off, len1, len2) →
          off = b'.tail ∧ Runs off b'.capacity (min n r.1) len1 len2)
      (peek n) b := by
  refine Safe.bind hb ((beginRead_safe hm).mono fun r b1 i1 hr => ?_)
  obtain ⟨rfl, hm1, hc1, ht1, hk1, hw1, ha1, -⟩ := hr
  obtain ⟨cur, he, hp⟩ := peekNum_safe n i1 hm1 ha1
  dsimp only
  rw [he, Prog.ofChk_pure, Prog.ret_bind]
  refine Safe.bind i1 (hp.mono fun r b2 i2 hr => ?_)
  obtain ⟨head, cur⟩ := r
  obtain ⟨ht, hmc, hlt, hcur, hcount, hall⟩ := hr
  dsimp only at ht hmc hlt hcur hcount hall ⊢
  have told : ∀ b3, WriterStep b2 b3 → Told b b3.tail cur b3 := fun b3 h3 =>
    let t := ht.stable h3
    ⟨rfl, t.avail, t.consumed.trans hc1, t.capacity.trans hk1⟩
  have all : ∀ b3, WriterStep b2 b3 →
      n ≠ 0 ∧ n ≤ cur ∨ b.written ≤ b.consumed + cur ∧ b3.atHead = some cur := fun b3 h3 =>
    hall.imp_right fun ⟨hw, ha⟩ => ⟨by omega, by rw [h3.atHead]; exact ha⟩
  by_cases h0 : n = 0
  · rw [if_pos h0]
    exact fun b3 h3 _ => ⟨told b3 h3, hmc, hcount.stable h3, all b3 h3, fun _ => .inl h0, nofun⟩
  rw [if_neg h0]
  by_cases hz : cur = 0
  · subst hz
    rw [if_pos rfl]
    exact fun b3 h3 _ => ⟨told b3 h3, hmc, hcount.stable h3, all b3 h3, fun _ => .inr rfl, nofun⟩
  rw [if_neg hz]
  have hn : (if cur < n then cur else n) = min n cur := by split <;> omega
  rw [hn, Chk.require_eq (by omega), Prog.ofChk_pure, Prog.ret_bind]
  obtain ⟨len1, len2, hs, hl⟩ := peekSplit_eq (n := min n cur) hlt i1.tail_lt i1.lt_word
    (by omega) (by omega)
  rw [hs, Prog.ofChk_pure, Prog.ret_bind]
  dsimp only
  rw [Chk.require_eq hl.sum, Prog.ofChk_pure, Prog.ret_bind]
  refine fun b3 h3 _ =>
    ⟨told b3 h3, hmc, hcount.stable h3, all b3 h3, nofun, fun off l1 l2 h => ?_⟩
  cases h
  refine ⟨ht.off.trans h3.tail.symm, ?_⟩
  rw [h3.capacity, ht.capacity]
  exact hl

/-! ### Queries -/

/-- `size` asked by the reader: no fewer items than there were, and no more than there are. -/
theorem size_reader_safe (b : Ringbuf) :
    Safe RingInv (readerRole N)
      (fun n b' => b.written ≤ b.consumed + n ∧ b'.consumed + n ≤ b'.written ∧
        b'.consumed = b.consumed)
      size b := by
  unfold size
  refine Safe.load_bind readerRole_load fun b1 h1 i1 => ?_
  refine Safe.load_bind readerRole_load fun b2 h2 i2 => ?_
  rw [h2.tail, getWrittenNum_eq i1.head_lt i1.tail_lt i1.lt_word, i1.ringDist_items,
    Prog.ofChk_pure]
  have hle := i1.consumed_le
  refine fun b3 h3 _ => ⟨?_, ?_, h3.consumed.trans (h2.consumed.trans h1.consumed)⟩
  · have := h1.written
    have := h1.consumed
    omega
  · have := h2.written
    have := h3.written
    rw [h3.consumed, h2.consumed]
    omega

/-- Someone who only looks, while nothing is written any more. -/
def lookerRole : Role Ringbuf (Acc RingLoc) where
  rely := ReaderStep
  guar _ b b' := b' = b
  refl := ReaderStep.refl
  trans := ReaderStep.trans

/-- `size` asked while nothing is written: no fewer items than there are. -/
theorem size_looker_safe (b : Ringbuf) :
    Safe RingInv lookerRole (fun n b' => b'.written ≤ b'.consumed + n) size b := by
  unfold size
  refine Safe.load_bind (fun _ => rfl) fun b1 h1 i1 => ?_
  refine Safe.load_bind (fun _ => rfl) fun b2 h2 i2 => ?_
  rw [← h2.head, ← h2.capacity, getWrittenNum_eq i2.head_lt i2.tail_lt i2.lt_word,
    i2.ringDist_items, Prog.ofChk_pure]
  intro b3 h3 _
  have := h3.written
  have := h3.consumed
  omega

/-- `free_num` asked by the writer: slots that are free, all of them when `tail` was loaded. -/
theorem freeNum_writer_safe (b : Ringbuf) :
    Safe RingInv (writerRole N)
      (fun n b' => b'.written + n < b'.consumed + b'.capacity ∧ b'.written = b.written ∧
        b'.capacity = b.capacity ∧ b.consumed + b.capacity ≤ b.written + n + 1)
      freeNum b := by
  unfold freeNum
  refine Safe.load_bind writerRole_load fun b1 h1 i1 => ?_
  refine Safe.load_bind writerRole_load fun b2 h2 i2 => ?_
  rw [← h2.head, ← h2.capacity, getFreeNum_eq i2.head_lt i2.tail_lt i2.lt_word, i2.ringDist_items,
    Prog.ofChk_pure]
  have hw := h2.written.trans h1.written
  have hc := h2.capacity.trans h1.capacity
  have h12 := h1.consumed.trans h2.consumed
  have hle := i2.consumed_le
  have hlt := i2.written_lt
  refine fun b3 h3 _ => ⟨?_, h3.written.trans hw, h3.capacity.trans hc, by omega⟩
  have := h3.consumed
  rw [h3.written, h3.capacity]
  omega

end Ringbuf

end Vamos
