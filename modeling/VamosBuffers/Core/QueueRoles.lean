import Mathlib.Tactic
import VamosBuffers.Core.ParQueue
import VamosBuffers.Core.RingbufRoles

/-! The two sides of a queue. On top of the ring's counters the queue says where the elements are:
    the `k`-th element ever written, while it is unread, lies in the slot of `k`.

        consumed ≤ k < written      data (slotOf k) begins with filled[k]

    The producer fills only the slot of `written`, which is none of these, and the consumer touches
    no slot, so the ring's roles carry over. -/

namespace Vamos
open Schemes

namespace Queue

variable {ε : Type}

/-- The slot of the `k`-th element. -/
def slotOf (q : Queue ε) (k : ℕ) : ℕ := k % (q.capacity + 1) * q.elemSize

/-- The elements written so far, in order. -/
def pushed (q : Queue ε) : List ε := q.filled.take q.ring.written

/-- What a step of the producer may change: nothing of the consumer's and no unread element. -/
structure ProducerStep (q q' : Queue ε) : Prop where
  ring : Ringbuf.WriterStep q.ring q'.ring
  capacity : q'.capacity = q.capacity
  elemSize : q'.elemSize = q.elemSize
  popped : q'.popped = q.popped
  filled : ∀ k, k < q.ring.written → q'.filled[k]? = q.filled[k]?
  data : ∀ k, q.ring.consumed ≤ k → k < q.ring.written → q'.data (q.slotOf k) = q.data (q.slotOf k)

/-- What the producer relies on: nothing of its own and no slot changes. -/
structure ConsumerMoves (q q' : Queue ε) : Prop where
  ring : Ringbuf.ReaderStep q.ring q'.ring
  capacity : q'.capacity = q.capacity
  elemSize : q'.elemSize = q.elemSize
  data : q'.data = q.data
  filled : q'.filled = q.filled

/-- What a step of the consumer may change. A `pop` records the element at `tail`, when as many
    elements have been popped as consumed. -/
structure ConsumerStep (q q' : Queue ε) : Prop extends ConsumerMoves q q' where
  popped : q'.popped = q.popped ∨ q.popped.length = q.ring.consumed ∧
    q.ring.consumed < q.ring.written ∧ q'.popped = q.popped ++ [q.data (q.slotOf q.ring.consumed)]

theorem ProducerStep.refl (q : Queue ε) : ProducerStep q q :=
  ⟨.refl _, rfl, rfl, rfl, fun _ _ => rfl, fun _ _ _ => rfl⟩

theorem ConsumerMoves.refl (q : Queue ε) : ConsumerMoves q q := ⟨.refl _, rfl, rfl, rfl, rfl⟩

theorem ConsumerStep.refl (q : Queue ε) : ConsumerStep q q := ⟨.refl q, .inl rfl⟩

theorem ConsumerMoves.trans {q q' q'' : Queue ε} (h : ConsumerMoves q q')
    (h' : ConsumerMoves q' q'') : ConsumerMoves q q'' :=
  ⟨h.ring.trans h'.ring, h'.2.trans h.2, h'.3.trans h.3, h'.4.trans h.4, h'.5.trans h.5⟩

theorem slotOf_congr {q q' : Queue ε} (hc : q'.capacity = q.capacity)
    (he : q'.elemSize = q.elemSize) (k : ℕ) : q'.slotOf k = q.slotOf k := by
  rw [slotOf, slotOf, hc, he]

theorem ProducerStep.trans {q q' q'' : Queue ε} (h : ProducerStep q q') (h' : ProducerStep q' q'') :
    ProducerStep q q'' := by
  refine ⟨h.ring.trans h'.ring, h'.capacity.trans h.capacity, h'.elemSize.trans h.elemSize,
    h'.popped.trans h.popped, fun k hk => ?_, fun k hc hk => ?_⟩
  · rw [h'.filled k (hk.trans_le h.ring.written), h.filled k hk]
  · rw [← h.data k hc hk, ← slotOf_congr h.capacity h.elemSize]
    exact h'.data k (by rw [h.ring.consumed]; exact hc) (hk.trans_le h.ring.written)

/-- What has been written stays written. -/
theorem ProducerStep.pushed_take {q q' : Queue ε} (h : ProducerStep q q') :
    q'.pushed.take q.ring.written = q.pushed := by
  rw [Queue.pushed, Queue.pushed, List.take_take, min_eq_left h.ring.written]
  refine List.ext_getElem? fun k => ?_
  rcases Nat.lt_or_ge k q.ring.written with hk | hk
  · rw [List.getElem?_take_of_lt hk, List.getElem?_take_of_lt hk, h.filled k hk]
  · rw [List.getElem?_take_eq_none hk, List.getElem?_take_eq_none hk]

theorem ProducerStep.pushed_grows {q q' : Queue ε} (h : ProducerStep q q') :
    q.pushed <+: q'.pushed := by
  rw [← h.pushed_take]
  exact List.take_prefix _ _

/-- A step that publishes nothing. -/
theorem ProducerStep.pushed_eq {q q' : Queue ε} (h : ProducerStep q q')
    (hw : q'.ring.written = q.ring.written) : q'.pushed = q.pushed := by
  rw [← h.pushed_take, ← hw, Queue.pushed, List.take_take, min_self]

/-- One that is held to no more elements than there are publishes nothing. -/
theorem ProducerStep.written_eq {N : ℕ} {q q' : Queue ε} (h : ProducerStep q q')
    (hlim : q'.ring.written = q.ring.written ∨ q'.ring.written ≤ N) (hN : N ≤ q.ring.written) :
    q'.ring.written = q.ring.written := by
  have hle : q.ring.written ≤ q'.ring.written := h.ring.written
  omega

/-- The producer, writing up to `N` elements in all. It stores only to the slot of the next
    element. -/
def producerRole (N : ℕ) : Role (Queue ε) (Acc QueueLoc) where
  rely := ConsumerMoves
  guar l q q' := ProducerStep q q' ∧ (q'.ring.written = q.ring.written ∨ q'.ring.written ≤ N) ∧
    ∀ p, l = .store (.data p) → p = q.slotOf q.ring.written
  refl := ConsumerMoves.refl
  trans := ConsumerMoves.trans

/-- One that is held to no more elements than were consumed consumes nothing. -/
theorem ConsumerMoves.consumed_eq {N : ℕ} {q q' : Queue ε} (h : ConsumerMoves q q')
    (hlim : q'.ring.consumed = q.ring.consumed ∨ q'.ring.consumed ≤ N)
    (hN : N ≤ q.ring.consumed) : q'.ring.consumed = q.ring.consumed := by
  have hle : q.ring.consumed ≤ q'.ring.consumed := h.ring.consumed
  omega

/-- The consumer, consuming up to `N` elements in all. It loads only slots of unread elements. -/
def consumerRole (N : ℕ) : Role (Queue ε) (Acc QueueLoc) where
  rely := ProducerStep
  guar l q q' := ConsumerStep q q' ∧ (q'.ring.consumed = q.ring.consumed ∨ q'.ring.consumed ≤ N) ∧
    (q'.ring.atHead = q.ring.atHead ∨ q'.ring.atHead = none ∨
      q'.ring.atHead = some (q.ring.written - q.ring.consumed)) ∧
    ∀ p, l = .load (.data p) → ∃ k, q.ring.consumed ≤ k ∧ k < q.ring.written ∧ p = q.slotOf k
  refl := ProducerStep.refl
  trans := ProducerStep.trans

/-- The producer's part of the queue is as it was. -/
structure SameSlots (q q' : Queue ε) : Prop where
  capacity : q'.capacity = q.capacity
  elemSize : q'.elemSize = q.elemSize
  data : q'.data = q.data
  filled : q'.filled = q.filled

theorem SameSlots.refl (q : Queue ε) : SameSlots q q := ⟨rfl, rfl, rfl, rfl⟩

theorem SameSlots.trans {q q' q'' : Queue ε} (h : SameSlots q q') (h' : SameSlots q' q'') :
    SameSlots q q'' := ⟨h'.1.trans h.1, h'.2.trans h.2, h'.3.trans h.3, h'.4.trans h.4⟩

theorem ConsumerMoves.same {q q' : Queue ε} (h : ConsumerMoves q q') : SameSlots q q' :=
  ⟨h.capacity, h.elemSize, h.data, h.filled⟩

section Roles

variable [Slot ε]

/-- The queue invariant. -/
structure QueueInv (q : Queue ε) : Prop where
  ring : Ringbuf.RingInv q.ring
  slots : q.ring.capacity = q.capacity + 1
  pos : 0 < q.elemSize
  fits : (q.capacity + 1) * q.elemSize < 2 ^ 64
  filled : q.ring.written ≤ q.filled.length
  data : ∀ k x, q.ring.consumed ≤ k → k < q.ring.written → q.filled[k]? = some x →
    Slot.Holds x (q.data (q.slotOf k))

namespace QueueInv

variable {q : Queue ε} (h : QueueInv q)
include h

theorem capacity_eq {q₀ : Queue ε} (h₀ : QueueInv q₀) (hc : q.ring.capacity = q₀.ring.capacity) :
    q.capacity = q₀.capacity := by
  have := h.slots
  have := h₀.slots
  omega

theorem items_le : q.ring.written - q.ring.consumed ≤ q.capacity := by
  have := h.ring.written_lt
  have := h.slots
  omega

/-- The slots of elements less than a turn apart differ. -/
theorem slotOf_ne {i j : ℕ} (hij : i < j) (hj : j ≤ i + q.capacity) : q.slotOf j ≠ q.slotOf i := by
  intro he
  have hm := Nat.eq_of_mul_eq_mul_right h.pos he
  exact mod_ne_mod hij (by omega) hm

/-- The slot of the next element shares no byte with an unread element's. -/
theorem slot_disjoint {k : ℕ} (hc : q.ring.consumed ≤ k) (hk : k < q.ring.written) :
    q.slotOf q.ring.written + q.elemSize ≤ q.slotOf k ∨
      q.slotOf k + q.elemSize ≤ q.slotOf q.ring.written := by
  have hi := h.items_le
  have hne : q.ring.written % (q.capacity + 1) ≠ k % (q.capacity + 1) :=
    mod_ne_mod hk (by omega)
  unfold slotOf
  rw [← Nat.succ_mul, ← Nat.succ_mul]
  rcases Nat.lt_or_gt_of_ne hne with hlt | hgt
  · exact .inl (Nat.mul_le_mul_right _ hlt)
  · exact .inr (Nat.mul_le_mul_right _ hgt)

/-- A pointer to a slot of the queue does not wrap. -/
theorem mul_eq {off : ℕ} (ho : off < q.ring.capacity) :
    Chk.mul off q.elemSize = pure (off * q.elemSize) := by
  refine Chk.mul_eq (lt_of_le_of_lt (Nat.mul_le_mul_right _ ?_) h.fits)
  have := h.slots
  omega

end QueueInv

theorem init_inv {capacity elemSize : ℕ} {data : ℕ → ε}
    (h : (init capacity elemSize data).ok = true) :
    QueueInv (init capacity elemSize data).val ∧
      (init capacity elemSize data).val.capacity = capacity ∧
      (init capacity elemSize data).val.elemSize = elemSize := by
  have hc := h
  simp only [init, Chk.bind_ok, Chk.require_ok, Chk.add_ok, Chk.mul_ok] at hc
  obtain ⟨-, he, hlt, hr, hm, -⟩ := hc
  have hn : (Chk.add capacity 1).val = capacity + 1 := by rw [Chk.add_eq hlt]; rfl
  rw [hn] at hr hm
  have hv : (init capacity elemSize data).val =
      ⟨(Ringbuf.init (capacity + 1)).val, capacity, elemSize, data, [], []⟩ := by
    simp only [init, Chk.bind_val, Chk.pure_val, hn]
  obtain ⟨hri, hrc⟩ := Ringbuf.init_inv hr
  rw [hv]
  refine ⟨⟨hri, hrc, he, hm, Nat.zero_le _, fun k x _ hk => ?_⟩, rfl, rfl⟩
  exact absurd hk (Nat.not_lt_zero k)

variable {N : ℕ}

/-! ### Producer -/

/-- The ring moves under the writer: the invariant stays if what it publishes has been filled in. -/
theorem QueueInv.setRing_writer {q : Queue ε} {b : Ringbuf} (h : QueueInv q)
    (hs : Ringbuf.WriterStep q.ring b) (hb : Ringbuf.RingInv b)
    (hf : ∀ k, q.ring.written ≤ k → k < b.written →
      ∃ x, q.filled[k]? = some x ∧ Slot.Holds x (q.data (q.slotOf k))) :
    QueueInv { q with ring := b } ∧ ProducerStep q { q with ring := b } := by
  refine ⟨⟨hb, hs.capacity.trans h.slots, h.pos, h.fits, ?_, fun k x hc hk hx => ?_⟩,
    hs, rfl, rfl, rfl, fun _ _ => rfl, fun _ _ _ => rfl⟩
  · show b.written ≤ q.filled.length
    by_cases hw : q.ring.written < b.written
    · obtain ⟨x, hx, -⟩ := hf (b.written - 1) (by omega) (by omega)
      have := (List.getElem?_eq_some_iff.mp hx).1
      omega
    · exact (not_lt.mp hw).trans h.filled
  · have hc' : q.ring.consumed ≤ k := hs.consumed ▸ hc
    rcases lt_or_ge k q.ring.written with hk' | hk'
    · exact h.data k x hc' hk' hx
    · obtain ⟨y, hy, hh⟩ := hf k hk' hk
      obtain rfl : y = x := Option.some.inj (hy.symm.trans hx)
      exact hh

theorem QueueInv.pushed_length {q : Queue ε} (h : QueueInv q) :
    q.pushed.length = q.ring.written := by
  rw [Queue.pushed, List.length_take, min_eq_left h.filled]

omit [Slot ε] in
/-- The ring moves under a writer that may publish one element `x`: either nothing is published or
    `x` is. -/
theorem setRing_pushed {q₀ q : Queue ε} {b : Ringbuf} {x : ε} (hs : SameSlots q₀ q)
    (hw : q₀.ring.written ≤ q.ring.written) (hx : q₀.filled[q₀.ring.written]? = some x)
    (hst : Ringbuf.WriterStep q.ring b)
    (hl : b.written = q.ring.written ∨ b.written ≤ q₀.ring.written + 1) :
    b.written = q.ring.written ∧ { q with ring := b }.pushed = q.pushed ∨
      b.written = q.ring.written + 1 ∧ q.ring.written = q₀.ring.written ∧
        { q with ring := b }.pushed = q.pushed ++ [x] := by
  rcases Nat.lt_or_ge q.ring.written b.written with hlt | hge
  · have hb : b.written = q.ring.written + 1 := by omega
    have hq : q.ring.written = q₀.ring.written := by omega
    refine .inr ⟨hb, hq, ?_⟩
    show q.filled.take b.written = q.filled.take q.ring.written ++ [x]
    rw [hb, List.take_add_one, hq, hs.filled, hx]
    rfl
  · have hb : b.written = q.ring.written := le_antisymm hge hst.written
    refine .inl ⟨hb, ?_⟩
    show q.filled.take b.written = q.filled.take q.ring.written
    rw [hb]

/-- A writer's call on the ring is a producer's call on the queue, if the elements it may publish
    have been filled in. -/
theorem onRing_producer {α : Type} {p : RingProg α} {Q : α → Ringbuf → Prop} {q : Queue ε}
    (hf : ∀ k, q.ring.written ≤ k → k < N →
      ∃ x, q.filled[k]? = some x ∧ Slot.Holds x (q.data (q.slotOf k)))
    (h : Safe Ringbuf.RingInv (Ringbuf.writerRole N) Q p q.ring) :
    Safe QueueInv (producerRole N) (fun a q' => Q a q'.ring ∧ SameSlots q q') (onRing p) q := by
  have hz := Safe.zoom (I := QueueInv) (ρ := producerRole N) (L := ringLens)
    (φ := Acc.map QueueLoc.ring) (p := p) (s := q)
    (fun q' => SameSlots q q' ∧ q.ring.written ≤ q'.ring.written)
    (fun q' i => i.ring) (fun q' q'' _ hr _ => hr.ring) (fun _ _ _ => trivial) ?_ ?_
    id ⟨.refl q, le_rfl⟩ h
  · exact hz.mono fun a q' _ hq => ⟨hq.1, hq.2.1⟩
  · rintro q' q'' ⟨hs, hw⟩ hr -
    exact ⟨hs.trans hr.same, by rw [hr.ring.written]; exact hw⟩
  · rintro l q' b - ⟨hs, hw⟩ hi hb ⟨hst, hlim⟩
    obtain ⟨hi', hp⟩ := hi.setRing_writer hst hb fun k hk hkb => by
      rcases hlim with he | hle
      · exact absurd (he ▸ hkb) (not_lt.mpr hk)
      · rw [hs.filled, hs.data, slotOf_congr hs.capacity hs.elemSize]
        exact hf k (hw.trans hk) (hkb.trans_le hle)
    refine ⟨⟨hp, hlim, fun p hl => ?_⟩, hi', ⟨hs.1, hs.2, hs.3, hs.4⟩, hw.trans hst.written⟩
    cases l <;> cases hl

/-- A producer's call that publishes nothing. -/
theorem onRing_asks {α : Type} {p : RingProg α} {Q : α → Ringbuf → Prop} {q : Queue ε}
    (h : Safe Ringbuf.RingInv (Ringbuf.writerRole 0) Q p q.ring) :
    Safe QueueInv (producerRole N) (fun a q' => Q a q'.ring ∧ SameSlots q q') (onRing p) q := by
  refine (onRing_producer (fun k _ hk => absurd hk (Nat.not_lt_zero k)) h).weaken
    (fun _ _ hr => hr) (fun l q q' hg => ⟨hg.1, hg.2.1.imp_right fun h0 => ?_, hg.2.2⟩)
    (fun _ _ _ => trivial) id
  omega

/-- The producer holds the slot of the next element. -/
structure WriteSlot (p : ℕ) (q : Queue ε) : Prop where
  ptr : p = q.slotOf q.ring.written
  room : ∃ n, 0 < n ∧ Ringbuf.Offered q.ring.head n q.ring

omit [Slot ε] in
theorem WriteSlot.stable {p : ℕ} {q q' : Queue ε} (h : WriteSlot p q) (hr : ConsumerMoves q q') :
    WriteSlot p q' := by
  obtain ⟨n, hn, ho⟩ := h.room
  refine ⟨?_, n, hn, ?_⟩
  · rw [slotOf_congr hr.capacity hr.elemSize, hr.ring.written]; exact h.ptr
  · rw [hr.ring.head]; exact ho.stable hr.ring

/-- The slot at a valid index. -/
theorem slotPtr_producer {off : ℕ} {q : Queue ε} (ho : off < q.ring.capacity) :
    Safe QueueInv (producerRole N)
      (fun p q' => p = off * q'.elemSize ∧ ConsumerMoves q q') (slotPtr off) q := by
  refine Safe.load_bind (fun _ => ⟨.refl _, .inl rfl, nofun⟩) fun q1 h1 i1 => ?_
  rw [i1.mul_eq (by rw [h1.ring.capacity]; exact ho), Prog.ofChk_pure]
  exact fun q2 h2 _ => ⟨by rw [h2.elemSize], h1.trans h2⟩

/-- `write_ptr` gives the next slot, or `NULL` if the queue was full when it loaded `tail`. -/
theorem writePtr_safe {q : Queue ε} (hq : QueueInv q) :
    Safe QueueInv (producerRole N)
      (fun r q' => SameSlots q q' ∧ q'.ring.written = q.ring.written ∧
        (∀ p, r = some p → WriteSlot p q') ∧
        (r = none → Ringbuf.FoundFull q.ring q'.ring))
      writePtr q := by
  refine Safe.bind hq ((onRing_asks (Ringbuf.writeOffNowrap_safe hq.ring)).mono fun r q1 i1 hr => ?_)
  obtain ⟨off, n⟩ := r
  obtain ⟨⟨ho, hw, hz, -⟩, hs⟩ := hr
  obtain rfl : off = q1.ring.head := ho.off
  dsimp only at hz ⊢
  split
  · rename_i hn
    refine Safe.bind i1 ((slotPtr_producer i1.ring.head_lt).mono fun p q2 i2 ⟨hp, hm⟩ => ?_)
    refine fun q3 h3 i3 => ⟨hs.trans (hm.trans h3).same, ?_, ?_, nofun⟩
    · rw [(hm.trans h3).ring.written, hw]
    · rintro p' hp'
      obtain rfl : p = p' := Option.some.inj hp'
      refine WriteSlot.stable ⟨?_, n, hn, ho⟩ (hm.trans h3)
      rw [hp, hm.elemSize, slotOf, ← i1.slots, ← i1.ring.base.head]
  · refine fun q2 h2 i2 => ⟨hs.trans h2.same, ?_, nofun, fun _ => ?_⟩
    · rw [h2.ring.written, hw]
    obtain ⟨hat, hst⟩ := hz (by omega)
    exact ⟨by rw [h2.ring.atTail, h2.ring.capacity]; exact hat, hst⟩

/-- The next element is in its slot. -/
structure Filled (x : ε) (q : Queue ε) : Prop where
  filled : q.filled[q.ring.written]? = some x
  data : Slot.Holds x (q.data (q.slotOf q.ring.written))

theorem Filled.stable {x : ε} {q q' : Queue ε} (h : Filled x q) (hr : ConsumerMoves q q') :
    Filled x q' := by
  refine ⟨?_, ?_⟩
  · rw [hr.filled, hr.ring.written]; exact h.filled
  · rw [hr.data, hr.ring.written, slotOf_congr hr.capacity hr.elemSize]; exact h.data

omit [Slot ε] in
theorem ConsumerMoves.pushed {q q' : Queue ε} (hr : ConsumerMoves q q') : q'.pushed = q.pushed := by
  rw [Queue.pushed, Queue.pushed, hr.filled, hr.ring.written]

/-- The queue after `x` is filled into the slot of the next element: no unread element moved. -/
theorem QueueInv.fill {p : ℕ} {q : Queue ε} (h : QueueInv q) (hp : WriteSlot p q) (x : ε) :
    let q' : Queue ε := { q with data := Function.update q.data p (Slot.put (q.data p) x),
                                 filled := q.filled.take q.ring.written ++ [x] }
    QueueInv q' ∧ ProducerStep q q' ∧ Filled x q' ∧ q'.pushed = q.pushed := by
  intro q'
  have hlen : (q.filled.take q.ring.written).length = q.ring.written := by
    rw [List.length_take, min_eq_left h.filled]
  have hne : ∀ k, q.ring.consumed ≤ k → k < q.ring.written → q.slotOf k ≠ p := fun k hc hk => by
    have := h.items_le
    rw [hp.ptr]
    exact (h.slotOf_ne hk (by omega)).symm
  have hfill : ∀ k, k < q.ring.written → q'.filled[k]? = q.filled[k]? := fun k hk => by
    rw [List.getElem?_append_left (by rw [hlen]; exact hk), List.getElem?_take_of_lt hk]
  have hdata : ∀ k, q.ring.consumed ≤ k → k < q.ring.written →
      q'.data (q.slotOf k) = q.data (q.slotOf k) := fun k hc hk =>
    Function.update_of_ne (hne k hc hk) _ _
  refine ⟨⟨h.ring, h.slots, h.pos, h.fits, ?_, fun k y hc hk hy => ?_⟩,
    ⟨.refl _, rfl, rfl, rfl, hfill, hdata⟩, ⟨?_, ?_⟩, ?_⟩
  · show q.ring.written ≤ (q.filled.take q.ring.written ++ [x]).length
    rw [List.length_append, hlen]; omega
  · show Slot.Holds y (q'.data (q.slotOf k))
    rw [hdata k hc hk]
    exact h.data k y hc hk (by rw [← hfill k hk]; exact hy)
  · show (q.filled.take q.ring.written ++ [x])[q.ring.written]? = some x
    rw [List.getElem?_append_right (by rw [hlen]), hlen, Nat.sub_self]; rfl
  · show Slot.Holds x (Function.update q.data p _ (q.slotOf q.ring.written))
    rw [← hp.ptr, Function.update_self]
    exact Slot.put_holds _ x
  · show (q.filled.take q.ring.written ++ [x]).take q.ring.written = q.filled.take q.ring.written
    rw [List.take_append_of_le_length (by rw [hlen]), List.take_take, min_self]

/-- `fill` leaves the element in its slot. -/
theorem fill_safe {p : ℕ} {x : ε} {q : Queue ε} (hp : WriteSlot p q) :
    Safe QueueInv (producerRole N)
      (fun _ q' => WriteSlot p q' ∧ Filled x q' ∧ q'.pushed = q.pushed ∧
        q'.ring.written = q.ring.written)
      (fill p x) q := by
  refine Safe.access fun q1 h1 i1 => ?_
  have hp1 := hp.stable h1
  obtain ⟨i2, hs, hx, hpush⟩ := i1.fill hp1 x
  refine ⟨⟨hs, .inl rfl, fun p' hl => ?_⟩, i2, fun q3 h3 i3 => ⟨?_, hx.stable h3, ?_, ?_⟩⟩
  · obtain rfl : p = p' := by simpa using hl
    exact hp1.ptr
  · have hp2 : WriteSlot p { q1 with data := Function.update q1.data p (Slot.put (q1.data p) x),
                                      filled := q1.filled.take q1.ring.written ++ [x] } :=
      ⟨hp1.ptr, hp1.room⟩
    exact hp2.stable h3
  · rw [h3.pushed, hpush, h1.pushed]
  · rw [h3.ring.written]; exact h1.ring.written

/-- `write_finish` publishes the element that was filled in. -/
theorem writeFinish_safe {p : ℕ} {x : ε} {q : Queue ε} (hq : QueueInv q) (hp : WriteSlot p q)
    (hx : Filled x q) (hl : q.ring.written + 1 ≤ N) :
    Safe QueueInv (producerRole N)
      (fun _ q' => SameSlots q q' ∧ q'.ring.written = q.ring.written + 1 ∧
        q'.pushed = q.pushed ++ [x])
      writeFinish q := by
  obtain ⟨n, hn, ho⟩ := hp.room
  have hmax := hq.ring.base.max
  have hw := Ringbuf.writeFinish_safe (N := q.ring.written + 1) ho Nat.one_pos hn (by omega) le_rfl
  have hs := onRing_producer (N := q.ring.written + 1) (fun k h1 h2 => by
    obtain rfl : k = q.ring.written := by omega
    exact ⟨x, hx.filled, hx.data⟩) hw
  have hs' : Safe QueueInv (producerRole N) _ writeFinish q :=
    hs.weaken (fun _ _ hr => hr) (fun l q q' hg =>
      ⟨hg.1, hg.2.1.imp_right fun h => h.trans hl, hg.2.2⟩) (fun _ _ _ => trivial) id
  refine hs'.mono fun a q' _ hq' => ?_
  obtain ⟨hw', hsame⟩ := hq'
  refine ⟨hsame, hw', ?_⟩
  rw [Queue.pushed, Queue.pushed, hsame.filled, hw', List.take_add_one, hx.filled]
  rfl

/-- `write_finish` on a queue inside a larger memory. What the thread has to show of each access is
    only what becomes of the elements: they stay as they are, or the one filled in is appended. -/
theorem publish_safe {σ Λ : Type} {I : σ → Prop} {ρ : Role σ Λ} {L : Lens σ (Queue ε)}
    {φ : Acc QueueLoc → Λ} (F : σ → Prop) {p : ℕ} {x : ε} {s : σ}
    (hI : ∀ t, I t → QueueInv (L.get t))
    (hR : ∀ t t', ρ.rely t t' → ConsumerMoves (L.get t) (L.get t'))
    (hF : ∀ t t', F t → ρ.rely t t' → I t' → F t')
    (hG : ∀ l t q, F t → I t → QueueInv q → ProducerStep (L.get t) q →
      (q.ring.written = (L.get t).ring.written ∧ q.pushed = (L.get t).pushed ∨
        (L.get t).pushed = (L.get s).pushed ∧ q.pushed = (L.get s).pushed ++ [x]) →
      ρ.guar (φ l) t (L.set q t) ∧ I (L.set q t) ∧ F (L.set q t))
    (hs : I s) (hp : WriteSlot p (L.get s)) (hx : Filled x (L.get s)) (hf : F s) :
    Safe I ρ (fun _ t => (L.get t).pushed = (L.get s).pushed ++ [x] ∧
      (L.get t).ring.written = (L.get s).ring.written + 1 ∧ F t) (writeFinish.zoom L φ) s := by
  obtain ⟨n, hn, ho⟩ := hp.room
  have hmax := (hI s hs).ring.base.max
  have hw := Ringbuf.writeFinish_safe (N := (L.get s).ring.written + 1) ho Nat.one_pos hn (by omega)
    le_rfl
  unfold writeFinish onRing
  rw [Prog.zoom_zoom]
  have hz := Safe.zoom (I := I) (ρ := ρ) (L := L.comp ringLens)
    (φ := fun l => φ (Acc.map QueueLoc.ring l)) (s := s)
    (fun t => (SameSlots (L.get s) (L.get t) ∧ (L.get s).ring.written ≤ (L.get t).ring.written) ∧ F t)
    (fun t i => (hI t i).ring) (fun t t' _ hr _ => (hR t t' hr).ring) (fun _ _ _ => trivial) ?_ ?_
    False.elim ⟨⟨.refl _, le_rfl⟩, hf⟩ hw
  · refine hz.mono fun _ t _ ⟨hw', ⟨hsame, _⟩, hf'⟩ => ?_
    have hw' : (L.get t).ring.written = (L.get s).ring.written + 1 := hw'
    refine ⟨?_, hw', hf'⟩
    rw [pushed, pushed, hsame.filled, hw', List.take_add_one, hx.filled]
    rfl
  · rintro t t' ⟨⟨hsame, hle⟩, hf'⟩ hr i
    have hm := hR t t' hr
    exact ⟨⟨hsame.trans hm.same, by rw [hm.ring.written]; exact hle⟩, hF t t' hf' hr i⟩
  · rintro l t b - ⟨⟨hsame, hle⟩, hf'⟩ hi hri ⟨hst, hlim⟩
    have hst : Ringbuf.WriterStep (L.get t).ring b := hst
    have hlim : b.written = (L.get t).ring.written ∨ b.written ≤ (L.get s).ring.written + 1 := hlim
    -- what is published is the element in the slot
    obtain ⟨hq', hps⟩ := (hI t hi).setRing_writer hst hri fun k hk hkb => by
      obtain rfl : k = (L.get s).ring.written := by omega
      rw [hsame.filled, hsame.data, slotOf_congr hsame.capacity hsame.elemSize]
      exact ⟨x, hx.filled, hx.data⟩
    have hpub : b.written = (L.get t).ring.written ∧
        { L.get t with ring := b }.pushed = (L.get t).pushed ∨
        (L.get t).pushed = (L.get s).pushed ∧
          { L.get t with ring := b }.pushed = (L.get s).pushed ++ [x] := by
      rcases setRing_pushed hsame hle hx.filled hst hlim with h | ⟨-, hw0, he⟩
      · exact .inl h
      · have hsame' : (L.get t).pushed = (L.get s).pushed := by
          rw [pushed, pushed, hsame.filled, hw0]
        exact .inr ⟨hsame', by rw [he, hsame']⟩
    obtain ⟨hg, hi', hf''⟩ := hG _ t { L.get t with ring := b } hf' hi hq' hps hpub
    have hset : (L.comp ringLens).set b t = L.set { L.get t with ring := b } t := rfl
    rw [hset]
    refine ⟨hg, hi', ⟨?_, ?_⟩, hf''⟩
    · rw [L.get_set]
      exact hsame.trans ⟨rfl, rfl, rfl, rfl⟩
    · rw [L.get_set]
      exact hle.trans hst.written

/-- `push` appends its element, or refuses because the queue was full when it loaded `tail`. -/
theorem push_safe {x : ε} {q : Queue ε} (hx : Slot.size x ≤ q.elemSize)
    (hl : q.ring.written + 1 ≤ N) :
    Safe QueueInv (producerRole N)
      (fun r q' => (r = true → q'.pushed = q.pushed ++ [x]) ∧
        (r = false → q'.pushed = q.pushed ∧ q'.ring.atTail = some q'.capacity))
      (push x) q := by
  refine Safe.load_bind (fun _ => ⟨.refl _, .inl rfl, nofun⟩) fun q1 h1 i1 => ?_
  rw [Chk.require_eq (by rw [h1.elemSize]; exact hx), Prog.ofChk_pure, Prog.ret_bind]
  refine Safe.bind i1 ((writePtr_safe i1).mono fun r q2 i2 hr => ?_)
  obtain ⟨hs, hw, hsome, hnone⟩ := hr
  have hpush : q2.pushed = q.pushed := by
    rw [← h1.pushed, Queue.pushed, Queue.pushed, hs.filled, hw]
  cases r with
  | some p =>
    refine Safe.bind i2 ((fill_safe (hsome p rfl)).mono fun _ q3 i3 ⟨hp3, hx3, hpu3, hw3⟩ => ?_)
    refine Safe.bind i3 ((writeFinish_safe i3 hp3 hx3 ?_).mono fun _ q4 i4 ⟨_, _, hpu4⟩ => ?_)
    · rw [hw3, hw, h1.ring.written]; exact hl
    · refine fun q5 h5 _ => ⟨fun _ => ?_, nofun⟩
      rw [h5.pushed, hpu4, hpu3, hpush]
  | none =>
    refine fun q3 h3 i3 => ⟨nofun, fun _ => ⟨by rw [h3.pushed, hpush], ?_⟩⟩
    have hat := (hnone rfl).atTail
    rw [h3.ring.atTail, hat, h3.capacity, i2.slots, Nat.add_sub_cancel]

/-! ### Consumer -/

/-- A reader's call on the ring is a consumer's call on the queue. -/
theorem onRing_consumer {α : Type} {p : RingProg α} {Q : α → Ringbuf → Prop} {q : Queue ε}
    (h : Safe Ringbuf.RingInv (Ringbuf.readerRole N) Q p q.ring) :
    Safe QueueInv (consumerRole N)
      (fun a q' => Q a q'.ring ∧ q'.popped = q.popped ∧ q'.elemSize = q.elemSize)
      (onRing p) q := by
  refine Safe.zoom (I := QueueInv) (ρ := consumerRole N) (L := ringLens)
    (φ := Acc.map QueueLoc.ring) (p := p) (s := q)
    (fun q' => q'.popped = q.popped ∧ q'.elemSize = q.elemSize)
    (fun q' i => i.ring) (fun q' q'' _ hr _ => hr.ring) (fun _ _ _ => trivial) ?_ ?_ id ⟨rfl, rfl⟩ h
  · exact fun q' q'' hp hr _ => ⟨hr.popped.trans hp.1, hr.elemSize.trans hp.2⟩
  · rintro l q' b - hp hi hb ⟨hst, hlim, hat⟩
    refine ⟨⟨⟨⟨hst, rfl, rfl, rfl, rfl⟩, .inl rfl⟩, hlim, hat, fun p hl => ?_⟩, ?_, hp⟩
    · cases l <;> cases hl
    · refine ⟨hb, hst.capacity.trans hi.slots, hi.pos, hi.fits, ?_, fun k x hc hk hx => ?_⟩
      · exact hst.written.trans_le hi.filled
      · exact hi.data k x (hst.consumed.trans hc) (hst.written ▸ hk) hx

theorem slotPtr_consumer {off : ℕ} {q : Queue ε} (ho : off < q.ring.capacity) :
    Safe QueueInv (consumerRole N)
      (fun p q' => p = off * q.elemSize ∧ ProducerStep q q') (slotPtr off) q := by
  refine Safe.load_bind (fun _ => ⟨.refl _, .inl rfl, .inl rfl, nofun⟩) fun q1 h1 i1 => ?_
  rw [i1.mul_eq (by rw [h1.ring.capacity]; exact ho), Prog.ofChk_pure]
  exact fun q2 h2 _ => ⟨by rw [h1.elemSize], h1.trans h2⟩

/-- The consumer was told of `n` elements, the first of them at `tail`. -/
structure ReadSlot (q₀ : Queue ε) (n : ℕ) (q : Queue ε) : Prop where
  avail : q.ring.Avail n
  consumed : q.ring.consumed = q₀.ring.consumed
  popped : q.popped = q₀.popped
  elemSize : q.elemSize = q₀.elemSize
  capacity : q.capacity = q₀.capacity

omit [Slot ε] in
theorem ReadSlot.stable {q₀ q q' : Queue ε} {n : ℕ} (h : ReadSlot q₀ n q) (hr : ProducerStep q q') :
    ReadSlot q₀ n q' :=
  ⟨h.avail.stable hr.ring, hr.ring.consumed.trans h.consumed, hr.popped.trans h.popped,
    hr.elemSize.trans h.elemSize, hr.capacity.trans h.capacity⟩

omit [Slot ε] in
theorem ReadSlot.consumed_lt {q₀ q : Queue ε} {n : ℕ} (h : ReadSlot q₀ n q) (hn : 0 < n) :
    q.ring.consumed < q.ring.written := by
  have := h.avail.le_items
  omega

/-- `read_off_nowrap` on the queue's ring tells of elements that are there, and of none only if the
    queue was empty when it loaded `head`. -/
theorem readOff_safe {q : Queue ε} {m : ℕ} (hq : QueueInv q) (hm : q.ring.Avail m) :
    Safe QueueInv (consumerRole N)
      (fun r q' => ReadSlot q r.2 q' ∧ m ≤ r.2 ∧ r.1 = q'.ring.tail ∧
        (r.2 = 0 → q'.ring.atHead = some 0 ∧ q.ring.written ≤ q.ring.consumed) ∧
        Ringbuf.Counted r.2 q'.ring)
      (onRing Ringbuf.readOffNowrap) q := by
  refine (onRing_consumer (Ringbuf.readNum_safe hq.ring hm _)).mono fun r q' i' hr => ?_
  obtain ⟨⟨ht, hmr, hs, hn, -⟩, hp⟩ := hr
  refine ⟨⟨ht.avail, ht.consumed, hp.1, hp.2, i'.capacity_eq hq ht.capacity⟩, hmr, ht.off,
    fun h0 => ?_, hn⟩
  obtain ⟨hat, hw⟩ := hs (by simp [h0])
  exact ⟨by rw [hat, h0], by omega⟩

/-- The slot of the element at `tail`. -/
theorem slotPtr_tail {q₀ q : Queue ε} {n : ℕ} (hq : QueueInv q) (hr : ReadSlot q₀ n q) :
    Safe QueueInv (consumerRole N)
      (fun p q' => p = q'.slotOf q'.ring.consumed ∧ ReadSlot q₀ n q' ∧ ProducerStep q q')
      (slotPtr q.ring.tail) q := by
  refine (slotPtr_consumer hq.ring.tail_lt).mono fun p q' _ ⟨hp, hs⟩ => ⟨?_, hr.stable hs, hs⟩
  rw [hp, slotOf_congr hs.capacity hs.elemSize, hs.ring.consumed, slotOf, ← hq.slots,
    ← hq.ring.base.tail]

/-- `peek1` tells of elements that are there and points to the first. -/
theorem peek1_safe {q : Queue ε} {m : ℕ} (hq : QueueInv q) (hm : q.ring.Avail m) :
    Safe QueueInv (consumerRole N)
      (fun r q' => ReadSlot q r.1 q' ∧ m ≤ r.1 ∧
        (∀ p, r.2 = some p → 0 < r.1 ∧ p = q'.slotOf q'.ring.consumed) ∧
        (r.2 = none → r.1 = 0 ∧ q'.ring.atHead = some 0 ∧ q.ring.written ≤ q.ring.consumed) ∧
        Ringbuf.Counted r.1 q'.ring)
      peek1 q := by
  refine Safe.bind hq ((readOff_safe hq hm).mono fun r q1 i1 hr => ?_)
  obtain ⟨off, n⟩ := r
  obtain ⟨hr, hmn, hoff, hz, hcount⟩ := hr
  dsimp only at hr hmn hoff hz hcount ⊢
  subst hoff
  split
  · rename_i hn
    refine Safe.bind i1 ((slotPtr_tail i1 hr).mono fun p q2 i2 ⟨hp, hr2, hm2⟩ => ?_)
    refine fun q3 h3 i3 => ⟨hr2.stable h3, hmn, fun p' hp' => ⟨hn, ?_⟩, nofun,
      (hcount.stable hm2.ring).stable h3.ring⟩
    obtain rfl : p = p' := Option.some.inj hp'
    rw [hp, slotOf_congr h3.capacity h3.elemSize, h3.ring.consumed]
  · obtain ⟨hat, hw⟩ := hz (by omega)
    exact fun q2 h2 i2 => ⟨hr.stable h2, hmn, nofun,
      fun _ => ⟨by omega, h2.ring.atHead.trans hat, hw⟩, hcount.stable h2.ring⟩

/-- `top` points to the oldest element, and gives `NULL` only if the queue was empty when it loaded
    `head`. -/
theorem top_safe {q : Queue ε} (hq : QueueInv q) :
    Safe QueueInv (consumerRole N)
      (fun r q' => (∀ p, r = some p → q'.ring.Avail 1 ∧ p = q'.slotOf q'.ring.consumed) ∧
        (r = none → q'.ring.atHead = some 0))
      top q := by
  refine Safe.bind hq ((peek1_safe hq hq.ring.avail_zero).mono fun r q1 _ hr => fun q2 h2 _ => ?_)
  obtain ⟨hr, -, hsome, hnone, -⟩ := hr
  refine ⟨fun p hp => ⟨?_, ?_⟩, fun hp => ?_⟩
  · exact (hr.avail.stable h2.ring).mono (hsome p hp).1
  · rw [slotOf_congr h2.capacity h2.elemSize, h2.ring.consumed]
    exact (hsome p hp).2
  · rw [h2.ring.atHead]; exact (hnone hp).2.1

/-- `drop` of at most the elements the consumer was told of. -/
theorem drop_safe {q : Queue ε} {m n : ℕ} (hm : q.ring.Avail m) (h0 : 0 < n)
    (hn : n ≤ m) (hc : q.ring.capacity + n < 2 ^ 64 - 1) (hl : q.ring.consumed + n ≤ N) :
    Safe QueueInv (consumerRole N)
      (fun _ q' => q'.ring.consumed = q.ring.consumed + n ∧ q'.ring.Avail (m - n) ∧
        q'.popped = q.popped)
      (drop n) q :=
  (onRing_consumer (Ringbuf.consume_safe hm h0 hn hc hl)).mono fun _ _ _ h =>
    ⟨h.1.1, h.1.2.1, h.2.1⟩

/-- `pop` of a consumer that only pops: the element at `tail`, or nothing because the queue was empty
    when it loaded `head`. -/
theorem pop_safe {q : Queue ε} (hq : QueueInv q) (hp : q.popped.length = q.ring.consumed)
    (hl : q.ring.consumed + 1 ≤ N) :
    Safe QueueInv (consumerRole N)
      (fun r q' => q'.popped.length = q'.ring.consumed ∧
        (∀ x, r = some x → q'.popped = q.popped ++ [x]) ∧
        (r = none → q'.popped = q.popped ∧ q'.ring.atHead = some 0))
      pop q := by
  refine Safe.bind hq ((readOff_safe hq hq.ring.avail_zero).mono fun r q1 i1 hr => ?_)
  obtain ⟨off, n⟩ := r
  obtain ⟨hr, -, hoff, hz, -⟩ := hr
  dsimp only at hr hoff hz ⊢
  subst hoff
  split
  · rename_i hn
    refine Safe.bind i1 ((slotPtr_tail i1 hr).mono fun p q2 i2 ⟨hp2, hr2, _⟩ => ?_)
    refine Safe.access_bind fun q3 h3 i3 => ?_
    have hr3 := hr2.stable h3
    have hlen : q3.popped.length = q3.ring.consumed := by rw [hr3.popped, hp, hr3.consumed]
    have hp3 : p = q3.slotOf q3.ring.consumed := by
      rw [hp2, slotOf_congr h3.capacity h3.elemSize, h3.ring.consumed]
    -- the copy is recorded; the element is still unread
    refine ⟨⟨⟨⟨.refl _, rfl, rfl, rfl, rfl⟩, .inr ⟨hlen, hr3.consumed_lt hn, by rw [hp3]⟩⟩, .inl rfl,
      .inl rfl, fun p' hl' => ⟨_, le_rfl, hr3.consumed_lt hn, ?_⟩⟩, ?_, ?_⟩
    · obtain rfl : p = p' := by simpa using hl'
      exact hp3
    · exact ⟨i3.ring, i3.slots, i3.pos, i3.fits, i3.filled, i3.data⟩
    have i4 : QueueInv { q3 with popped := q3.popped ++ [q3.data p] } :=
      ⟨i3.ring, i3.slots, i3.pos, i3.fits, i3.filled, i3.data⟩
    have hmax : q3.ring.capacity + 1 < 2 ^ 64 - 1 := by have := i3.ring.base.max; omega
    refine Safe.bind i4 ((drop_safe (q := { q3 with popped := q3.popped ++ [q3.data p] })
      hr3.avail Nat.one_pos hn hmax (hr3.consumed ▸ hl)).mono fun _ q5 i5 ⟨hc5, _, hp5⟩ => ?_)
    refine fun q6 h6 _ => ⟨?_, fun x hx => ?_, nofun⟩
    · rw [h6.popped, hp5, List.length_append, hlen, h6.ring.consumed, hc5]; rfl
    · obtain rfl : q3.data p = x := Option.some.inj hx
      rw [h6.popped, hp5, hr3.popped]
  · refine fun q2 h2 i2 => ⟨?_, nofun, fun _ => ⟨?_, ?_⟩⟩
    · rw [h2.popped, hr.popped, hp, h2.ring.consumed, hr.consumed]
    · rw [h2.popped, hr.popped]
    · rw [h2.ring.atHead]; exact (hz (by omega)).1

end Roles

end Queue

end Vamos
