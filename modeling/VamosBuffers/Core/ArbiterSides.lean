import Mathlib.Tactic
import VamosBuffers.Core.ArbiterRoles
import VamosBuffers.Core.QueuePeek

/-! The two ends of a stream. The source pushes numbered events and destroys the buffer once. The
    arbiter removes items, with `drop` and `drop_older_than`, and asks whether the stream is done:

        dropped_num = 0, buffer empty ─▶ destroyed, SHM ring empty ─▶ dropped_num = 0, buffer empty

    Only the second half of that question counts. Once the ring is destroyed and empty it stays so;
    `dropped_num = 0` then settles everything, and the buffer that is empty after that stays empty. -/

namespace Vamos
open Schemes

namespace StreamMem

/-! ### Removal -/

section Removal

variable {I : StreamMem → Prop} {ρ : Role StreamMem StreamAcc} {m : StreamMem}

/-- A role that may remove items from the arbiter buffer. -/
structure Removes (I : StreamMem → Prop) (ρ : Role StreamMem StreamAcc) : Prop where
  queue : ∀ m, I m → Queue.QueueInv m.arb ∧ 24 ≤ m.arb.elemSize
  rely : ∀ m m', ρ.rely m m' → Queue.ProducerStep m.arb m'.arb
  guar : ∀ l m q, I m → Queue.QueueInv q → Queue.ConsumerMoves m.arb q →
    ρ.guar (.arb l) m { m with arb := q } ∧ I { m with arb := q }
  lenient : ρ.lenient

/-- Nothing was removed in between. -/
structure Unmoved (m m' : StreamMem) : Prop where
  pushed : m.arb.pushed <+: m'.arb.pushed
  consumed : m'.arb.ring.consumed = m.arb.ring.consumed

theorem Unmoved.trans {m m' m'' : StreamMem} (h : Unmoved m m') (h' : Unmoved m' m'') :
    Unmoved m m'' := ⟨h.1.trans h'.1, h'.2.trans h.2⟩

theorem Unmoved.of_rely {m m' : StreamMem} (h : Queue.ProducerStep m.arb m'.arb) : Unmoved m m' :=
  ⟨h.pushed_grows, h.ring.consumed⟩

/-- A call on the arbiter buffer that removes nothing. -/
theorem Removes.asks {α : Type} {p : QueueProg Event α} {Q : α → Queue Event → Prop}
    (h : Removes I ρ) (hs : Safe Queue.QueueInv (Queue.releaseRole 0) Q p m.arb) :
    Safe I ρ (fun a m' => Q a m'.arb ∧ Unmoved m m') (onArb p) m := by
  refine Safe.zoom (I := I) (ρ := ρ) (L := arbLens) (φ := StreamAcc.arb) (p := p) (s := m)
    (Unmoved m) (fun m' i => (h.queue m' i).1) (fun m' m'' _ hr _ => h.rely m' m'' hr)
    (fun _ _ _ => trivial) ?_ ?_ (fun _ => h.lenient) ⟨List.prefix_rfl, rfl⟩ hs
  · exact fun m' m'' hu hr _ => hu.trans (.of_rely (h.rely m' m'' hr))
  · rintro l m' q - hu hi hq ⟨hst, hlim, -, -⟩
    obtain ⟨hg, hi'⟩ := h.guar l m' q hi hq hst.toConsumerMoves
    have hc := hst.toConsumerMoves.consumed_eq hlim (Nat.zero_le _)
    exact ⟨hg, hi', hu.trans ⟨(hst.toConsumerMoves.pushed.symm ▸ List.prefix_rfl), hc⟩⟩

/-- `vms_par_queue_drop` of items that the arbiter was told of. -/
theorem Removes.drops {n k : ℕ} (h : Removes I ρ) (hm : I m) (ha : m.arb.ring.Avail n) (h0 : 0 < k)
    (hk : k ≤ n) :
    Safe I ρ (fun _ m' => m.arb.pushed <+: m'.arb.pushed ∧
      m'.arb.ring.consumed = m.arb.ring.consumed + k) (onArb (Queue.drop k)) m := by
  obtain ⟨hq, hsize⟩ := h.queue m hm
  have hcap : m.arb.ring.capacity + k < 2 ^ 64 - 1 := by
    have h1 := ha.le_items
    have h2 := hq.items_le
    have h3 := Nat.mul_le_mul_left (m.arb.capacity + 1) hsize
    have h4 := hq.fits
    have h5 := hq.slots
    omega
  have hd := Queue.released (Queue.drop_safe (N := m.arb.ring.consumed + k) ha h0 hk hcap le_rfl)
  have hz := Safe.zoom (I := I) (ρ := ρ) (L := arbLens) (φ := StreamAcc.arb) (s := m)
    (fun m' => m.arb.pushed <+: m'.arb.pushed) (fun m' i => (h.queue m' i).1)
    (fun m' m'' _ hr _ => h.rely m' m'' hr) (fun _ _ _ => trivial) ?_ ?_ (fun _ => h.lenient)
    List.prefix_rfl hd
  · exact hz.mono fun _ m' _ hq => ⟨hq.2, hq.1.1⟩
  · exact fun m' m'' hp hr _ => hp.trans (h.rely m' m'' hr).pushed_grows
  · rintro l m' q - hp hi hq ⟨hst, -, -, -⟩
    obtain ⟨hg, hi'⟩ := h.guar l m' q hi hq hst.toConsumerMoves
    have hpu : q.pushed = m'.arb.pushed := hst.toConsumerMoves.pushed
    exact ⟨hg, hi', hp.trans (hpu ▸ List.prefix_rfl)⟩

/-- The item that was removed last. -/
def LastRemoved (e : Event) (m : StreamMem) : Prop :=
  0 < m.arb.ring.consumed ∧ m.arb.pushed[m.arb.ring.consumed - 1]? = some e

/-- `vms_arbiter_buffer_drop`, given that the id of the item removed last may be reported. -/
theorem bufferDrop_safe {k : ℕ} (h : Removes I ρ) (hm : I m)
    (hset : ∀ e m', I m' → LastRemoved e m' →
      Safe I ρ (fun _ _ => True) (setLastProcessedId e.id) m') :
    Safe I ρ (fun _ _ => True) (bufferDrop k) m := by
  unfold bufferDrop
  refine Safe.bind hm ((h.asks (Queue.released (Queue.peekAtmostAt_safe
    (h.queue m hm).1 (h.queue m hm).1.ring.avail_zero))).mono fun r m1 i1 hr => ?_)
  obtain ⟨i, r⟩ := r
  obtain ⟨⟨-, hsome, -⟩, -⟩ := hr
  dsimp only at hsome ⊢
  cases r with
  | none => exact fun _ _ _ => trivial
  | some p =>
    obtain ⟨ha, hp, -, -⟩ := hsome p rfl
    refine Safe.access_bind fun m2 g2 i2 => ?_
    have h2 := h.rely m1 m2 g2
    have hq2 := (h.queue m2 i2).1
    have ha2 := ha.stable h2.ring
    have hle := ha2.le_items
    have hlen := hq2.pushed_length
    -- the item at the index that was found
    obtain ⟨e, he⟩ : ∃ e, m2.arb.pushed[m2.arb.ring.consumed + i]? = some e :=
      ⟨_, List.getElem?_eq_getElem (by omega)⟩
    have hdata : e = m2.arb.data p := by
      have hfill : m2.arb.filled[m2.arb.ring.consumed + i]? = some e := by
        rw [← he, Queue.pushed, List.getElem?_take_of_lt (by omega)]
      rw [hp, ← Queue.slotOf_congr h2.capacity h2.elemSize, ← h2.ring.consumed]
      exact hq2.data _ e (Nat.le_add_right _ i) (by omega) hfill
    refine ⟨(h.guar _ m2 m2.arb i2 hq2 (.refl _)).1, i2, ?_⟩
    show Safe I ρ _ (onArb (Queue.drop ((i + 1) % 2 ^ 64)) >>= fun _ =>
      setLastProcessedId (m2.arb.data p).id >>= fun _ => pure ((i + 1) % 2 ^ 64)) m2
    have hi1 : (i + 1) % 2 ^ 64 = i + 1 := by
      have h3 := hq2.ring.written_lt
      have h4 := hq2.ring.lt_word
      exact Nat.mod_eq_of_lt (by omega)
    rw [hi1, ← hdata]
    refine Safe.bind i2 ((h.drops i2 ha2 (Nat.succ_pos i) le_rfl).mono fun _ m3 i3 hr3 => ?_)
    obtain ⟨hpre, hc⟩ := hr3
    have hlast : LastRemoved e m3 := by
      refine ⟨by omega, ?_⟩
      obtain ⟨t, ht⟩ := hpre
      rw [hc, show m2.arb.ring.consumed + (i + 1) - 1 = m2.arb.ring.consumed + i by omega, ← ht,
        List.getElem?_append_left (by omega)]
      exact he
    exact Safe.bind i3 ((hset e m3 i3 hlast).mono fun _ m4 _ _ => fun _ _ _ => trivial)

/-- The items from the `c`-th on, up to `id`, were removed since `m`; all that there were then have
    been considered. -/
def RemovedUpto (id : ℕ) (m m' : StreamMem) : Prop :=
  ∃ n k ids, 0 < k ∧ Queue.Older id ids n k ∧ m.arb.ring.written ≤ m.arb.ring.consumed + n ∧
    m'.arb.ring.consumed = m.arb.ring.consumed + k ∧
    ∀ j < n, ∃ e, m'.arb.pushed[m.arb.ring.consumed + j]? = some e ∧ e.id = ids j

/-- `vms_arbiter_buffer_drop_older_than`, given that `id` may be reported. -/
theorem dropOlderThan_safe {id : ℕ} (h : Removes I ρ) (hm : I m)
    (hset : ∀ m', I m' → m.arb.pushed <+: m'.arb.pushed → RemovedUpto id m m' →
      Safe I ρ (fun _ _ => True) (setLastProcessedId id) m') :
    Safe I ρ (fun _ _ => True) (dropOlderThan id) m := by
  obtain ⟨hq, hsize⟩ := h.queue m hm
  refine Safe.bind hm ((h.asks (Queue.olderNum_safe hq (by omega))).mono fun k m1 i1 hr => ?_)
  obtain ⟨⟨n, ids, hs, hall, ho⟩, hu⟩ := hr
  split
  case isTrue hk =>
    refine Safe.bind i1 ((h.drops i1 hs.avail hk ho.le).mono fun _ m2 i2 ⟨hpre, hc⟩ => ?_)
    refine Safe.bind i2 ((hset m2 i2 (hu.pushed.trans hpre)
      ⟨n, k, ids, hk, ho, hall, by rw [hc, hu.consumed], fun j hj => ?_⟩).mono
      fun _ m3 _ _ => fun _ _ _ => trivial)
    obtain ⟨e, he, hid⟩ := hs.event j hj
    obtain ⟨t, ht⟩ := hpre
    obtain ⟨hlt, -⟩ := List.getElem?_eq_some_iff.mp he
    refine ⟨e, ?_, hid⟩
    rw [← hu.consumed, ← ht, List.getElem?_append_left hlt]
    exact he
  case isFalse => exact fun _ _ _ => trivial

end Removal

variable {f : Event → Bool} {strict : Prop} {m : StreamMem}

/-! ### Arbiter -/

/-- Removing items changes nothing that the items tell. -/
theorem StreamInv.consumerMoves {q : Queue Event} (h : StreamInv f strict m)
    (hq : Queue.QueueInv q) (hs : Queue.ConsumerMoves m.arb q) :
    StreamInv f strict { m with arb := q } := by
  have hp := hs.pushed
  refine ⟨h.shm, hq, h.shmSize, hs.elemSize ▸ h.arbSize, h.source, h.few, hs.capacity ▸ h.threshold,
    ?_, ?_, fun hqt => ?_⟩
  · show ∃ E, E <+: _ ∧ ItemsTell strict q.pushed E
    rw [hp]; exact h.items
  · show strict → q.pushed.Pairwise _
    rw [hp]; exact h.ids
  · show ItemsTell strict q.pushed _
    rw [hp]; exact h.quiet hqt

theorem arbiter_removes : Removes (StreamInv f strict) arbiterRole where
  queue _ h := ⟨h.arb, h.arbSize⟩
  rely _ _ h := h.arb
  guar _ _ _ h hq hs := ⟨⟨hs, rfl, rfl, rfl⟩, h.consumerMoves hq hs⟩
  lenient := trivial

/-- Whatever is reported, the stream does not depend on it. -/
theorem setLastProcessedId_safe (id : ℕ) :
    Safe (StreamInv f strict) arbiterRole (fun _ _ => True) (setLastProcessedId id) m := by
  refine Safe.access_bind fun m1 _ i1 => ⟨.refl m1, i1, ?_⟩
  refine Safe.ofChk_bind trivial ?_
  refine Safe.access fun m2 _ i2 => ⟨⟨.refl _, rfl, rfl, rfl⟩, ?_, fun _ _ _ => trivial⟩
  exact ⟨i2.shm, i2.arb, i2.shmSize, i2.arbSize, i2.source, i2.few, i2.threshold, i2.items, i2.ids,
    i2.quiet⟩

/-- The stream has ended and its ring is empty: both stay so. -/
theorem Drained.forArbiter {m m' : StreamMem} (h : Drained m) (hr : ForArbiter m m')
    (hm' : StreamInv f strict m') : Drained m' := by
  obtain ⟨hd, hs⟩ := hr.closed h.1
  have h1 := h.2
  have h2 : m'.shm.ring.written = m.shm.ring.written := hs.ring.written
  have h3 : m.shm.ring.consumed ≤ m'.shm.ring.consumed := hs.ring.consumed
  have h4 := hm'.shm.ring.consumed_le
  exact ⟨hd, by omega⟩

/-- `is_ready` asked by the arbiter: if the answer is no, nothing is left. -/
theorem isReady_arbiter_safe :
    Safe (StreamInv f strict) arbiterRole (fun r m' => r = false → Drained m') isReady m := by
  refine Safe.access_bind fun m1 h1 i1 => ⟨.refl m1, i1, ?_⟩
  cases hd : m1.destroyed with
  | false => exact fun _ _ _ h => by cases h
  | true =>
    simp only [if_true]
    have hz := Safe.zoom (I := StreamInv f strict) (ρ := arbiterRole)
      (L := shmLens.comp Queue.ringLens) (φ := fun l => StreamAcc.shm (Acc.map QueueLoc.ring l))
      (s := m1) (fun m' => m'.destroyed = true) (fun m' i => i.shm.ring)
      (fun m' m'' hd' hr _ => (hr.closed hd').2.ring) (fun _ _ _ => trivial)
      (fun m' m'' hd' hr _ => (hr.closed hd').1) ?_ False.elim hd
      (Ringbuf.size_looker_safe m1.shm.ring)
    · unfold onShm Queue.size Queue.onRing
      rw [Prog.zoom_zoom]
      refine Safe.bind i1 (hz.mono fun n m2 i2 ⟨hn, hd2⟩ => fun m3 h3 i3 hr => ?_)
      have hn : m2.shm.ring.written ≤ m2.shm.ring.consumed + n := hn
      have hn0 : n = 0 := by simpa using hr
      have hc := i2.shm.ring.consumed_le
      have hdr : Drained m2 := ⟨hd2, by omega⟩
      exact hdr.forArbiter h3 i3
    · rintro l m' b - hd' hi - (rfl : b = m'.shm.ring)
      exact ⟨.refl m', hi, hd'⟩

/-- The stream is done: everything is settled and the arbiter buffer is empty. -/
def Done (m : StreamMem) : Prop := Settled m ∧ m.arb.ring.consumed = m.arb.ring.written

theorem Done.stable {m m' : StreamMem} (h : Done m) (hr : ForArbiter m m') : Done m' := by
  obtain ⟨hs, hw⟩ := hr.settled h.1
  exact ⟨hs, by rw [hr.arb.ring.consumed, hw]; exact h.2⟩

/-- The second half of the question: asked of a stream that has ended and whose ring is empty, the
    answer yes means that it is done. -/
theorem isDrained_safe :
    Safe (StreamInv f strict) arbiterRole (fun r m' => Drained m → r = true → Done m')
      isDrained m := by
  refine Safe.access_bind fun m1 h1 i1 => ⟨.refl m1, i1, ?_⟩
  split
  case isFalse => exact fun _ _ _ _ h => by cases h
  case isTrue h0 =>
    have hsz := Queue.released (Queue.onRing_consumer (q := m1.arb)
      (Ringbuf.size_reader_safe (N := 0) m1.arb.ring))
    have hz := Safe.zoom (I := StreamInv f strict) (ρ := arbiterRole) (L := arbLens)
      (φ := StreamAcc.arb) (s := m1) (fun m' => Settled m1 → Settled m' ∧
        m'.arb.ring.written = m1.arb.ring.written) (fun m' i => i.arb) (fun m' m'' _ hr _ => hr.arb)
      (fun _ _ _ => trivial) ?_ ?_ (fun _ => trivial) (fun h => ⟨h, rfl⟩) hsz
    · refine Safe.bind i1 (hz.mono fun n m2 i2 hq => fun m3 h3 i3 hdr hn => ?_)
      obtain ⟨⟨⟨hw, -, hc⟩, -⟩, hset⟩ := hq
      have hw : m1.arb.ring.written ≤ m1.arb.ring.consumed + n := hw
      have hc : m2.arb.ring.consumed = m1.arb.ring.consumed := hc
      obtain ⟨hs2, hw2⟩ := hset ⟨(hdr.forArbiter h1 i1).1, (hdr.forArbiter h1 i1).2, h0⟩
      have hn0 : n = 0 := by simpa using hn
      have hle := i2.arb.ring.consumed_le
      have hdone : Done m2 := ⟨hs2, by omega⟩
      exact hdone.stable h3
    · rintro m' m'' hF hr - hs
      obtain ⟨hs', hw'⟩ := hF hs
      obtain ⟨hs'', hw''⟩ := hr.settled hs'
      exact ⟨hs'', hw''.trans hw'⟩
    · rintro l m' q - hF hi hq ⟨hst, -, -, -⟩
      have hrm : Removes (StreamInv f strict) arbiterRole := arbiter_removes
      obtain ⟨hg, hi'⟩ := hrm.guar l m' q hi hq hst.toConsumerMoves
      exact ⟨hg, hi', fun hs => ⟨(hF hs).1, hst.ring.written.trans (hF hs).2⟩⟩

/-- `vms_arbiter_buffer_is_done` is right when it says yes. -/
theorem isDone_safe (hm : StreamInv f strict m) :
    Safe (StreamInv f strict) arbiterRole (fun r m' => r = true → Done m') isDone m := by
  refine Safe.bind hm ((isDrained_safe).mono fun r m1 i1 _ => ?_)
  cases r with
  | false => exact fun _ _ _ h => by cases h
  | true =>
    simp only [if_true]
    refine Safe.bind i1 (isReady_arbiter_safe.mono fun ready m2 i2 hdr => ?_)
    cases ready with
    | true => exact fun _ _ _ h => by cases h
    | false => exact isDrained_safe.mono fun r m3 _ h => h (hdr rfl)

/-! ### Source -/

/-- Pushing numbered events keeps the invariant: nothing has been consumed. -/
theorem StreamInv.producerStep {q : Queue Event} (h : StreamInv f strict m)
    (hq : Queue.QueueInv q) (hs : Queue.ProducerStep m.shm q)
    (hsrc : ∀ k e, q.pushed[k]? = some e → e.id = k + 1 ∧ e.isHole = false)
    (hfew : q.ring.written < 2 ^ 64) : StreamInv f strict { m with shm := q } := by
  refine ⟨hq, h.arb, hs.elemSize ▸ h.shmSize, h.arbSize, hsrc, hfew, h.threshold, ?_, h.ids,
    fun hqt => ?_⟩
  · obtain ⟨E, hE, ht⟩ := h.items
    exact ⟨E, hE.trans (hs.pushed_grows.filter f), ht⟩
  · -- all is quiet only if nothing was pushed
    have h1 : q.ring.consumed = q.ring.written := hqt.1
    have h2 : q.ring.consumed = m.shm.ring.consumed := hs.ring.consumed
    have h3 : m.shm.ring.written ≤ q.ring.written := hs.ring.written
    have h4 := h.shm.ring.consumed_le
    have hp := hs.pushed_eq (by omega)
    show ItemsTell strict m.arb.pushed ((q.pushed.take q.ring.consumed).filter f)
    rw [hp, h2]
    exact h.quiet ⟨by omega, hqt.2⟩

/-- An invariant of a stream that the source keeps: it pushes numbered events, and destroys the
    buffer. -/
class Supplies (I : StreamMem → Prop) : Prop extends Streams I where
  pushes : ∀ {m q}, I m → Queue.QueueInv q → Queue.ProducerStep m.shm q →
    (∀ k e, q.pushed[k]? = some e → e.id = k + 1 ∧ e.isHole = false) → q.ring.written < 2 ^ 64 →
    I { m with shm := q }
  destroys : ∀ {m}, I m → I { m with destroyed := true }

instance : Supplies (StreamInv f strict) where
  ok h := h.ok
  pushes h := h.producerStep
  destroys h := ⟨h.shm, h.arb, h.shmSize, h.arbSize, h.source, h.few, h.threshold, h.items, h.ids,
    h.quiet⟩

/-- The source has pushed `n` events and the buffer is not destroyed. -/
structure Active (n : ℕ) (m : StreamMem) : Prop where
  alive : m.destroyed = false
  written : m.shm.ring.written = n

theorem Active.stable {n : ℕ} {m m' : StreamMem} (h : Active n m) (hr : ForSource m m') :
    Active n m' := ⟨hr.destroyed.trans h.alive, hr.shm.ring.written.trans h.written⟩

section Source

variable {I : StreamMem → Prop} [Supplies I]

/-- A call on the SHM ring that publishes nothing. -/
theorem onShm_source {α : Type} {p : QueueProg Event α} {Q : α → Queue Event → Prop} {n : ℕ}
    (ha : Active n m) (h : Safe Queue.QueueInv (Queue.producerRole 0) Q p m.shm) :
    Safe I sourceRole (fun a m' => Q a m'.shm ∧ Active n m') (onShm p) m := by
  refine Safe.zoom (I := I) (ρ := sourceRole) (L := shmLens) (φ := StreamAcc.shm)
    (p := p) (s := m) (Active n) (fun m' i => (Streams.ok i).shm) (fun m' m'' _ hr _ => hr.shm)
    (fun _ _ _ => trivial) (fun m' m'' ha' hr _ => ha'.stable hr) ?_ id ha h
  rintro l m' q - ha' hi hq ⟨hst, hlim, -⟩
  have hw := hst.written_eq hlim (Nat.zero_le _)
  have hp : q.pushed = m'.shm.pushed := hst.pushed_eq hw
  refine ⟨⟨hst, ha'.alive, rfl, rfl⟩,
    Supplies.pushes hi hq hst ?_ (hw ▸ (Streams.ok hi).few), ⟨ha'.alive, hw.trans ha'.written⟩⟩
  rw [hp]; exact (Streams.ok hi).source

/-- `write_finish` on the SHM ring: the event in the slot becomes the newest one. -/
theorem shmWriteFinish_safe {p n : ℕ} {e : Event} (hm : I m) (ha : Active n m)
    (hp : Queue.WriteSlot p m.shm) (he : Queue.Filled e m.shm) (hid : e.id = n + 1)
    (hhole : e.isHole = false) (hn : e.id < 2 ^ 64) :
    Safe I sourceRole (fun _ m' => Active (n + 1) m')
      (onShm Queue.writeFinish) m := by
  have hz := Queue.publish_safe (I := I) (ρ := sourceRole) (L := shmLens)
    (φ := StreamAcc.shm) (p := p) (x := e) (s := m) (fun m' => m'.destroyed = false)
    (fun m' i => (Streams.ok i).shm) (fun m' m'' hr => hr.shm)
    (fun m' m'' hd hr _ => hr.destroyed.trans hd) ?_ hm hp he ha.alive
  · exact hz.mono fun _ m' _ ⟨_, hw, hd⟩ => ⟨hd, hw.trans (congrArg (· + 1) ha.written)⟩
  · intro l m' q hd hi hq hst hpub
    have hpub : q.ring.written = m'.shm.ring.written ∧ q.pushed = m'.shm.pushed ∨
      m'.shm.pushed = m.shm.pushed ∧ q.pushed = m.shm.pushed ++ [e] := hpub
    have hlen : m.shm.pushed.length = n := (Streams.ok hm).shm.pushed_length.trans ha.written
    -- the new event has the next number
    have hsrc : ∀ k x, q.pushed[k]? = some x → x.id = k + 1 ∧ x.isHole = false := by
      intro k x hx
      rcases hpub with ⟨-, hpu⟩ | ⟨hsame, hpu⟩
      · rw [hpu] at hx
        exact (Streams.ok hi).source k x hx
      · rw [hpu] at hx
        rcases Nat.lt_or_ge k m.shm.pushed.length with hk | hk
        · rw [List.getElem?_append_left hk] at hx
          exact (Streams.ok hm).source k x hx
        · obtain rfl : k = n := by
            have := (List.getElem?_eq_some_iff.mp hx).1
            simp only [List.length_append, List.length_singleton] at this
            omega
          rw [List.getElem?_append_right hk, hlen, Nat.sub_self] at hx
          obtain rfl : e = x := Option.some.inj hx
          exact ⟨hid, hhole⟩
    have hfew : q.ring.written < 2 ^ 64 := by
      have h1 := (Streams.ok hi).few
      have h2 := hq.pushed_length
      rcases hpub with ⟨hw, -⟩ | ⟨-, hpu⟩
      · exact hw ▸ h1
      · rw [hpu, List.length_append, hlen, List.length_singleton] at h2
        omega
    exact ⟨⟨hst, hd, rfl, rfl⟩, Supplies.pushes hi hq hst hsrc hfew, hd⟩

omit [Supplies I] in
/-- `assert(!destroyed)`. -/
theorem checkAlive_safe {β : Type} {n : ℕ} {k : Unit → StreamProg β} {Q : β → StreamMem → Prop}
    (ha : Active n m)
    (h : ∀ m', ForSource m m' → I m' → Safe I sourceRole Q (k ()) m') :
    Safe I sourceRole Q (checkAlive >>= k) m := by
  intro m1 h1 i1 _
  have ha1 := ha.stable h1
  refine ⟨⟨.refl _, ha1.alive, rfl, rfl⟩, i1, ?_⟩
  show Safe _ _ _ (check (m1.destroyed = false) >>= k) m1
  rw [check_eq ha1.alive]
  exact h m1 h1 i1

/-- `vms_shm_buffer_push` of the next event. -/
theorem shmPush_safe {n : ℕ} {e : Event} (ha : Active n m)
    (hid : e.id = n + 1) (hhole : e.isHole = false) (hn : e.id < 2 ^ 64) :
    Safe I sourceRole
      (fun ok m' => Active (if ok = true then n + 1 else n) m') (shmPush e) m := by
  refine checkAlive_safe ha fun m1 h1 i1 => ?_
  have ha1 := ha.stable h1
  refine Safe.access_bind fun m2 h2 i2 => ⟨⟨.refl _, (ha1.stable h2).alive, rfl, rfl⟩, i2, ?_⟩
  have ha2 := ha1.stable h2
  have hsize : Slot.size e ≤ m2.shm.elemSize := (Streams.ok i2).shmSize
  show Safe _ _ _ (check (Slot.size e ≤ m2.shm.elemSize) >>= _) m2
  rw [check_eq hsize, Prog.ret_bind]
  refine Safe.bind i2 (checkAlive_safe ha2 fun m3 h3 i3 => ?_)
  have ha3 := ha2.stable h3
  refine (onShm_source ha3 (Queue.writePtr_safe (Streams.ok i3).shm)).mono fun r m4 i4 hr => ?_
  obtain ⟨⟨-, -, hsome, -⟩, ha4⟩ := hr
  cases r with
  | none => exact fun m5 h5 _ => ha4.stable h5
  | some p =>
    refine Safe.bind i4 ((onShm_source ha4 (Queue.fill_safe (hsome p rfl))).mono
      fun _ m5 i5 ⟨⟨hp, hx, _⟩, ha5⟩ => ?_)
    refine Safe.bind i5 (checkAlive_safe ha5 fun m6 h6 i6 => ?_)
    refine (shmWriteFinish_safe i6 (ha5.stable h6) (hp.stable h6.shm) (hx.stable h6.shm) hid hhole
      hn).mono fun _ m7 _ ha7 => fun m8 h8 _ => ha7.stable h8

/-- `vms_shm_buffer_destroy`. -/
theorem shmDestroy_safe {n : ℕ} (ha : Active n m) :
    Safe I sourceRole (fun _ m' => m'.destroyed = true) shmDestroy m := by
  exact Safe.access fun m1 h1 i1 => ⟨⟨.refl _, (ha.stable h1).alive, rfl, rfl⟩, Supplies.destroys i1,
    fun m2 h2 _ => ForSource.destroyed h2⟩

end Source

end StreamMem

end Vamos
