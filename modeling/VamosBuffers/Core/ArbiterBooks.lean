import Mathlib.Tactic
import VamosBuffers.Core.ArbiterRoles

/-! The manager's books. Two accesses move an event: the store to the arbiter buffer's `head`, which
    writes an item, and the store to the SHM ring's `tail`, which consumes an event. An event is
    consumed only after it has been written or counted in `dropped_num`, and `dropped_num` is cleared
    only after its hole has been written, so the books never show less than there is. -/

namespace Vamos
open Schemes

namespace StreamMem

variable {f : Event → Bool} {strict : Prop} {I : StreamMem → Prop} {ρ : Role StreamMem StreamAcc}

/-! ### Writing an item -/

/-- One item more in the arbiter buffer. -/
structure Written (x : Event) (m m' : StreamMem) : Prop where
  shm : ShmKept m m'
  avail : ∀ n, m.shm.ring.Avail n → m'.shm.ring.Avail n
  drop : m'.drop = m.drop
  pushed : m'.arb.pushed = m.arb.pushed ++ [x]
  written : m'.arb.ring.written = m.arb.ring.written + 1
  capacity : m'.arb.ring.capacity = m.arb.ring.capacity
  removed : m.arb.ring.consumed ≤ m'.arb.ring.consumed

theorem Written.held {x : Event} {d : Dropping} {m m' m'' : StreamMem} (h : Written x m m')
    (hh : Held d m' m'') (hd : d = m'.drop) : Written x m m'' :=
  ⟨h.shm.trans hh.shm, fun n hn => hh.avail n (h.avail n hn), hh.drop.trans (hd.trans h.drop),
    hh.arb.pushed.trans h.pushed, hh.arb.written.trans h.written, hh.arb.capacity.trans h.capacity,
    h.removed.trans hh.arb.removed⟩

theorem Written.room {x : Event} {n : ℕ} {m m' : StreamMem} (h : Written x m m')
    (hr : Room (n + 1) m) : Room n m' := by
  have := h.removed
  unfold Room at *
  rw [h.written, h.capacity]
  omega

/-- On the way to that. -/
structure Writing (m m' : StreamMem) : Prop where
  shm : ShmKept m m'
  avail : ∀ n, m.shm.ring.Avail n → m'.shm.ring.Avail n
  drop : m'.drop = m.drop
  capacity : m'.arb.ring.capacity = m.arb.ring.capacity
  removed : m.arb.ring.consumed ≤ m'.arb.ring.consumed

theorem Writing.stable [Streams I] {m m' m'' : StreamMem} (h : Writing m m') (hm : I m')
    (hr : ForManager m' m'') : Writing m m'' := by
  have hh := hr.held hm
  exact ⟨h.shm.trans hh.shm, fun n hn => hh.avail n (h.avail n hn), hh.drop.trans h.drop,
    hh.arb.capacity.trans h.capacity, h.removed.trans hh.arb.removed⟩

/-- `write_finish` on the arbiter buffer: the item in the slot becomes the newest one. What has to be
    shown is that the invariant may hold of the items with the new one. -/
theorem arbPublish_safe [Carries I ρ] {p : ℕ} {x : Event} {m : StreamMem} (hm : I m)
    (hp : Queue.WriteSlot p m.arb) (hx : Queue.Filled x m.arb)
    (hG : ∀ l m' q, Writing m m' → I m' → Queue.QueueInv q → Queue.ProducerStep m'.arb q →
      (q.ring.written = m'.arb.ring.written ∧ q.pushed = m'.arb.pushed ∨
        q.pushed = m.arb.pushed ++ [x]) →
      ρ.guar (.arb l) m' { m' with arb := q } ∧ I { m' with arb := q }) :
    Safe I ρ (fun _ m' => Written x m m') (onArb Queue.writeFinish) m := by
  have hz := Queue.publish_safe (I := I) (ρ := ρ) (L := arbLens) (φ := StreamAcc.arb) (p := p) (x := x)
    (s := m) (fun m' => Writing m m' ∧ I m') (fun m' i => (Streams.ok i).arb)
    (fun m' m'' hr => (Carries.rely I hr).arb) ?_ ?_ hm hp hx
    ⟨⟨.of_eq rfl rfl, fun _ h => h, rfl, rfl, le_rfl⟩, hm⟩
  · exact hz.mono fun _ m' _ ⟨hpu, hw, hwr, _⟩ =>
      ⟨hwr.shm, hwr.avail, hwr.drop, hpu, hw, hwr.capacity, hwr.removed⟩
  · exact fun m' m'' hh hr i => ⟨hh.1.stable hh.2 (Carries.rely I hr), i⟩
  · rintro l m' q ⟨hwr, -⟩ hi hq hst hpub
    obtain ⟨hg, hinv⟩ := hG l m' q hwr hi hq hst (hpub.imp id And.right)
    refine ⟨hg, hinv, ⟨hwr.shm.trans (.of_eq rfl rfl), hwr.avail, hwr.drop,
      hst.ring.capacity.trans hwr.capacity, ?_⟩, hinv⟩
    exact hwr.removed.trans hst.ring.consumed.ge

/-- So it is with the books, where they may show the new item. -/
theorem arbWriteFinish_safe {p : ℕ} {x : Event} {m : StreamMem} (hm : StreamInv f strict m)
    (hp : Queue.WriteSlot p m.arb) (hx : Queue.Filled x m.arb) (hb : ¬ Quiet m)
    (hitems : ∃ E, E <+: m.shm.pushed.filter f ∧ ItemsTell strict (m.arb.pushed ++ [x]) E)
    (hids : strict → (m.arb.pushed ++ [x]).Pairwise fun a b => a.id < b.id) :
    Safe (StreamInv f strict) (managerRole f strict) (fun _ m' => Written x m m')
      (onArb Queue.writeFinish) m := by
  refine arbPublish_safe hm hp hx fun l m' q hwr hi hq hst hpub => ?_
  have hb' : ¬ Quiet m' := hwr.shm.busy (fun h => hwr.drop ▸ h) hm hi hb
  refine ⟨⟨.refl _, hst, rfl, fun hs => absurd hs.2 hb'⟩, hi.shm, hq, hi.shmSize,
    hst.elemSize ▸ hi.arbSize, hi.source, hi.few, hst.capacity ▸ hi.threshold, ?_, ?_,
    fun hqt => absurd hqt hb'⟩
  · show ∃ E, E <+: m'.shm.pushed.filter f ∧ ItemsTell strict q.pushed E
    rcases hpub with ⟨-, he⟩ | he
    · rw [he]; exact hi.items
    · obtain ⟨E, hE, ht⟩ := hitems
      refine ⟨E, hE.trans (hwr.shm.pushed.filter f), ?_⟩
      rw [he]; exact ht
  · intro hs
    show q.pushed.Pairwise _
    rcases hpub with ⟨-, he⟩ | he
    · rw [he]; exact hi.ids hs
    · rw [he]; exact hids hs

/-- `write_ptr` on the arbiter buffer, when there is room. -/
theorem arbWritePtr_safe [Carries I ρ] {m : StreamMem} (hm : I m) (hr : Room 1 m) :
    Safe I ρ (fun r m' => Held m.drop m m' ∧ ∃ p, r = some p ∧ Queue.WriteSlot p m'.arb)
      (onArb Queue.writePtr) m := by
  refine (onArb_asks hm (Queue.writePtr_safe (Streams.ok hm).arb)).mono fun r m' _ hq => ⟨hq.2, ?_⟩
  obtain ⟨⟨-, -, hsome, hnone⟩, -⟩ := hq
  cases r with
  | some p => exact ⟨p, rfl, hsome p rfl⟩
  | none =>
    have hfull := (hnone rfl).start
    unfold Room at hr
    omega

/-- The item is filled into the slot. -/
theorem arbFill_safe [Carries I ρ] {p : ℕ} {x : Event} {m : StreamMem} (hm : I m)
    (hp : Queue.WriteSlot p m.arb) :
    Safe I ρ (fun _ m' => Held m.drop m m' ∧ Queue.WriteSlot p m'.arb ∧ Queue.Filled x m'.arb)
      (onArb (Queue.fill p x)) m :=
  (onArb_asks hm (Queue.fill_safe hp)).mono fun _ _ _ hq => ⟨hq.2, hq.1.1, hq.1.2.1⟩

/-- `vms_par_queue_push` on the arbiter buffer, when there is room: it succeeds, given that the item in
    its slot may be made the newest one. -/
theorem arbPushes_safe [Carries I ρ] {x : Event} {m : StreamMem} (hm : I m) (hr : Room 1 m)
    (hfin : ∀ p m', Held m.drop m m' → I m' → Queue.WriteSlot p m'.arb → Queue.Filled x m'.arb →
      Safe I ρ (fun _ m'' => Written x m' m'') (onArb Queue.writeFinish) m') :
    Safe I ρ (fun ok m' => ok = true ∧ Written x m m') (onArb (Queue.push x)) m := by
  unfold onArb Queue.push
  rw [Prog.zoom_bind]
  refine Safe.access_bind fun m1 h1 i1 => ⟨Carries.load I _ m1, i1, ?_⟩
  have hh1 := Carries.held h1 hm
  have hsize : Slot.size x ≤ m1.arb.elemSize := (Streams.ok i1).arbSize
  show Safe _ _ _ ((Prog.ofChk (Chk.require (Slot.size x ≤ m1.arb.elemSize)) >>= _).zoom _ _) m1
  rw [Chk.require_eq hsize, Prog.ofChk_pure, Prog.ret_bind, Prog.zoom_bind]
  refine Safe.bind i1 ((arbWritePtr_safe i1 (hr.kept hh1.arb)).mono fun r m2 i2 hq => ?_)
  obtain ⟨hh2, p, rfl, hp⟩ := hq
  have hk2 : Held m.drop m m2 := hh1.drop ▸ hh1.trans hh2
  show Safe _ _ _ ((Queue.fill p x >>= _).zoom _ _) m2
  rw [Prog.zoom_bind]
  refine Safe.bind i2 ((arbFill_safe i2 hp).mono fun _ m3 i3 ⟨hh3, hp3, hx3⟩ => ?_)
  have hk3 : Held m.drop m m3 := hk2.drop ▸ hk2.trans hh3
  rw [Prog.zoom_bind]
  refine Safe.bind i3 ((hfin p m3 hk3 i3 hp3 hx3).mono fun _ m4 i4 hw => fun m5 h5 _ => ⟨rfl, ?_⟩)
  have hw5 := hw.held (Carries.held h5 i4) rfl
  exact ⟨hk3.shm.trans hw5.shm, fun n hn => hw5.avail n (hk3.avail n hn), hw5.drop.trans hk3.drop,
    by rw [hw5.pushed, hk3.arb.pushed], by rw [hw5.written, hk3.arb.written],
    hw5.capacity.trans hk3.arb.capacity, hk3.arb.removed.trans hw5.removed⟩

/-- So it is with the books, where they may show the new item. -/
theorem arbPush_safe {x : Event} {m : StreamMem} (hm : StreamInv f strict m) (hr : Room 1 m)
    (hb : ¬ Quiet m)
    (hitems : ∃ E, E <+: m.shm.pushed.filter f ∧ ItemsTell strict (m.arb.pushed ++ [x]) E)
    (hids : strict → (m.arb.pushed ++ [x]).Pairwise fun a b => a.id < b.id) :
    Safe (StreamInv f strict) (managerRole f strict) (fun _ m' => Written x m m')
      (onArb (Queue.push x)) m := by
  refine (arbPushes_safe hm hr fun p m' hk hi hp hx => ?_).mono fun _ _ _ hq => hq.2
  -- nothing of what the items tell has changed since the call began
  have hitems' : ∃ E, E <+: m'.shm.pushed.filter f ∧ ItemsTell strict (m'.arb.pushed ++ [x]) E := by
    obtain ⟨E, hE, ht⟩ := hitems
    refine ⟨E, hE.trans (hk.shm.pushed.filter f), ?_⟩
    rw [hk.arb.pushed]; exact ht
  have hids' : strict → (m'.arb.pushed ++ [x]).Pairwise fun a b => a.id < b.id := by
    rw [hk.arb.pushed]; exact hids
  exact arbWriteFinish_safe hi hp hx (hk.shm.busy (fun h => hk.drop ▸ h) hm hi hb) hitems' hids'

/-! ### Reading and consuming an event -/

/-- The manager has been told of the next event. -/
structure InHand (p : ℕ) (e : Event) (m : StreamMem) : Prop where
  avail : m.shm.ring.Avail 1
  ptr : p = m.shm.slotOf m.shm.ring.consumed
  event : m.shm.pushed[m.shm.ring.consumed]? = some e

theorem InHand.kept {p : ℕ} {e : Event} {m m' : StreamMem} (h : InHand p e m)
    (hs : ShmKept m m') (ha : ∀ n, m.shm.ring.Avail n → m'.shm.ring.Avail n) : InHand p e m' := by
  refine ⟨ha 1 h.avail, ?_, ?_⟩
  · rw [hs.slots, hs.consumed]; exact h.ptr
  · obtain ⟨t, ht⟩ := hs.pushed
    obtain ⟨hlt, -⟩ := List.getElem?_eq_some_iff.mp h.event
    rw [hs.consumed, ← ht, List.getElem?_append_left hlt]
    exact h.event

theorem InHand.held {p : ℕ} {e : Event} {d : Dropping} {m m' : StreamMem} (h : InHand p e m)
    (hh : Held d m m') : InHand p e m' := h.kept hh.shm hh.avail

theorem InHand.busy {p : ℕ} {e : Event} {m : StreamMem} (h : InHand p e m) : ¬ Quiet m := by
  intro hq
  have hle := h.avail.le_items
  have hc := hq.1
  omega

/-- The events are numbered from 1. -/
theorem InHand.id [Streams I] {p : ℕ} {e : Event} {m : StreamMem} (h : InHand p e m) (hm : I m) :
    e.id = m.shm.ring.consumed + 1 := ((Streams.ok hm).source _ _ h.event).1

theorem InHand.lt_word [Streams I] {p : ℕ} {e : Event} {m : StreamMem} (h : InHand p e m)
    (hm : I m) : m.shm.ring.consumed + 1 < 2 ^ 64 := by
  have hle := h.avail.le_items
  have hw := (Streams.ok hm).few
  omega

/-- `vms_stream_read_events` gives the next event. -/
theorem readEvents_safe [Carries I ρ] {m : StreamMem} (hm : I m) :
    Safe I ρ (fun r m' => Kept m.drop m m' ∧ ∀ p, r = some p → ∃ e, InHand p e m') readEvents m := by
  refine (onShm_asks hm (Queue.top_safe (Streams.ok hm).shm)).mono fun r m' i' hq =>
    ⟨hq.2, fun p hp => ?_⟩
  obtain ⟨ha, hptr⟩ := hq.1.1 p hp
  have hle := ha.le_items
  have hlen := (Streams.ok i').shm.pushed_length
  exact ⟨_, ha, hptr, List.getElem?_eq_getElem (by omega)⟩

/-- The slot of the event in hand holds it. -/
theorem InHand.data [Streams I] {p : ℕ} {e : Event} {m : StreamMem} (h : InHand p e m) (hm : I m) :
    m.shm.data p = e := by
  have hle := h.avail.le_items
  have hfill : m.shm.filled[m.shm.ring.consumed]? = some e := by
    rw [← h.event, Queue.pushed, List.getElem?_take_of_lt (by omega)]
  rw [h.ptr]
  exact ((Streams.ok hm).shm.data _ e le_rfl (by omega) hfill).symm

/-- The load of the event from its slot. -/
theorem readSlot_safe [Carries I ρ] {β : Type} {p : ℕ} {e : Event} {m : StreamMem} (hm : I m)
    (hh : InHand p e m) {k : Event → StreamProg β} {Q : β → StreamMem → Prop}
    (h : ∀ m', Held m.drop m m' → ρ.rely m m' → I m' → Safe I ρ Q (k e) m') :
    Safe I ρ Q (onShm (Queue.readSlot p) >>= k) m := by
  refine Safe.access_bind fun m1 h1 i1 => ⟨Carries.load I _ m1, i1, ?_⟩
  have hh1 := Carries.held h1 hm
  show Safe _ _ _ (k (m1.shm.data p)) m1
  rw [(hh.held hh1).data i1]
  exact h m1 hh1 h1 i1

/-- One event fewer in the SHM ring. -/
structure Consumed (m m' : StreamMem) : Prop where
  pushed : m.shm.pushed <+: m'.shm.pushed
  took : m'.shm.pushed.take (m.shm.ring.consumed + 1) = m.shm.pushed.take (m.shm.ring.consumed + 1)
  consumed : m'.shm.ring.consumed = m.shm.ring.consumed + 1
  arb : ArbKept m m'
  drop : m'.drop = m.drop

theorem take_grown {l l' : List Event} {n : ℕ} (h : l <+: l') (hn : n ≤ l.length) :
    l'.take n = l.take n := by
  obtain ⟨t, rfl⟩ := h
  exact List.take_append_of_le_length hn

/-- On the way to that. -/
structure Consuming (m m' : StreamMem) : Prop where
  pushed : m.shm.pushed <+: m'.shm.pushed
  consumed : m'.shm.ring.consumed = m.shm.ring.consumed ∨
    m'.shm.ring.consumed = m.shm.ring.consumed + 1
  arb : ArbKept m m'
  drop : m'.drop = m.drop

/-- `vms_stream_consume` of the event in hand. What has to be shown is that the invariant may hold with
    one event fewer. -/
theorem consumes_safe [Carries I ρ] {p : ℕ} {e : Event} {m : StreamMem} (hm : I m)
    (hh : InHand p e m)
    (hG : ∀ l m' q, Consuming m m' → I m' → Queue.QueueInv q → Queue.ConsumerMoves m'.shm q →
      Consuming m { m' with shm := q } →
      ρ.guar (.shm l) m' { m' with shm := q } ∧ I { m' with shm := q }) :
    Safe I ρ (fun _ m' => Consumed m m') consume m := by
  have ok := Streams.ok hm
  have hlen : m.shm.ring.consumed + 1 ≤ m.shm.pushed.length := by
    have hle := hh.avail.le_items
    have hl := ok.shm.pushed_length
    omega
  have hmax := ok.shm.ring.base.max
  have hpos := ok.shm.ring.base.pos
  have hc := Queue.onRing_consumer (q := m.shm) (Ringbuf.consumeUpto_safe
    (N := m.shm.ring.consumed + 1) ok.shm.ring hh.avail (n := 1) hpos (by omega) le_rfl)
  have hz := Safe.zoom (I := I) (ρ := ρ) (L := shmLens) (φ := StreamAcc.shm) (s := m) (Consuming m)
    (fun m' i => (Streams.ok i).shm) (fun m' m'' _ hr _ => (Carries.rely I hr).shm)
    (fun _ _ _ => trivial) ?_ ?_ False.elim ⟨List.prefix_rfl, .inl rfl, .of_eq rfl, rfl⟩ hc
  · refine Safe.bind hm (hz.mono fun k m1 i1 hk => fun m2 h2 _ => ?_)
    obtain ⟨⟨⟨hk1, hk2, hkc, -⟩, -⟩, hp, -, ha, hd⟩ := hk
    have hkc : m1.shm.ring.consumed = m.shm.ring.consumed + k := hkc
    have hh2 := Carries.held h2 i1
    have hp2 := hp.trans hh2.shm.pushed
    refine ⟨hp2, take_grown hp2 hlen, ?_, ha.trans hh2.arb, hh2.drop.trans hd⟩
    rw [hh2.shm.consumed]
    omega
  · rintro m' m'' ⟨hp, hcs, ha, hd⟩ hr -
    have hr := Carries.rely I hr
    have hcons : m''.shm.ring.consumed = m'.shm.ring.consumed := hr.shm.ring.consumed
    refine ⟨hp.trans hr.shm.pushed_grows, by rw [hcons]; exact hcs, ?_, hr.drop.trans hd⟩
    exact ha.trans ⟨hr.arb.pushed, hr.arb.ring.written, hr.arb.ring.capacity, hr.arb.ring.consumed⟩
  · rintro l m' q - hcm hi hqi ⟨hst, hlim, -, -⟩
    have hle : m'.shm.ring.consumed ≤ q.ring.consumed := hst.ring.consumed
    have hlim : q.ring.consumed = m'.shm.ring.consumed ∨
      q.ring.consumed ≤ m.shm.ring.consumed + 1 := hlim
    have hpu : q.pushed = m'.shm.pushed := hst.toConsumerMoves.pushed
    have hcs := hcm.consumed
    have hnext : Consuming m { m' with shm := q } := by
      refine ⟨?_, ?_, hcm.arb.trans (.of_eq rfl), hcm.drop⟩
      · show m.shm.pushed <+: q.pushed
        rw [hpu]; exact hcm.pushed
      · show q.ring.consumed = _ ∨ q.ring.consumed = _
        omega
    obtain ⟨hg, hinv⟩ := hG l m' q hcm hi hqi hst.toConsumerMoves hnext
    exact ⟨hg, hinv, hnext⟩

/-- So it is with the books; the event has to be told of already, or be counted. -/
theorem consume_safe {p : ℕ} {e : Event} {m : StreamMem} (hm : StreamInv f strict m)
    (hh : InHand p e m)
    (hq : m.drop.droppedNum = 0 → ItemsTell strict m.arb.pushed
      ((m.shm.pushed.take (m.shm.ring.consumed + 1)).filter f)) :
    Safe (StreamInv f strict) (managerRole f strict) (fun _ m' => Consumed m m') consume m := by
  have hlen : m.shm.ring.consumed + 1 ≤ m.shm.pushed.length := by
    have hle := hh.avail.le_items
    have hl := hm.shm.pushed_length
    omega
  refine consumes_safe hm hh fun l m' q hcm hi hqi hst hnext => ?_
  have hle : m'.shm.ring.consumed ≤ q.ring.consumed := hst.ring.consumed
  have hw : q.ring.written = m'.shm.ring.written := hst.ring.written
  have hpu : q.pushed = m'.shm.pushed := hst.pushed
  have hlen' : m.shm.ring.consumed + 1 ≤ m'.shm.ring.written := by
    rw [← hi.shm.pushed_length]; exact hlen.trans hcm.pushed.length_le
  have hcs : q.ring.consumed = m.shm.ring.consumed ∨ q.ring.consumed = m.shm.ring.consumed + 1 :=
    hnext.consumed
  refine ⟨⟨hst, .refl _, rfl, fun hs => ⟨⟨hs.1, ?_, hs.2.2⟩, rfl⟩⟩,
    hqi, hi.arb, hst.elemSize ▸ hi.shmSize, hi.arbSize, fun k e he => ?_, hw ▸ hi.few, hi.threshold,
    ?_, hi.ids, fun hqt => ?_⟩
  · have hs1 : m'.shm.ring.consumed = m'.shm.ring.written := hs.2.1
    show q.ring.consumed = q.ring.written
    have := hqi.ring.consumed_le
    omega
  · exact hi.source k e (hpu ▸ he)
  · show ∃ E, E <+: q.pushed.filter f ∧ _
    rw [hpu]; exact hi.items
  · -- all is quiet only if the event in hand was the last one
    have hcq : q.ring.consumed = q.ring.written := hqt.1
    have hc1 : q.ring.consumed = m.shm.ring.consumed + 1 := by omega
    have h0 : m'.drop.droppedNum = 0 := hqt.2
    have ht := hq (by rw [← hcm.drop]; exact h0)
    show ItemsTell strict m'.arb.pushed ((q.pushed.take q.ring.consumed).filter f)
    rw [hcm.arb.pushed, hc1, hpu, take_grown hcm.pushed hlen]
    exact ht

/-! ### The books -/

/-- The events that have come so far, with the one in hand. -/
theorem InHand.take_succ {p : ℕ} {e : Event} {m : StreamMem} (h : InHand p e m) :
    (m.shm.pushed.take (m.shm.ring.consumed + 1)).filter f =
      accepted f m ++ [e].filter f := by
  rw [List.take_add_one, h.event, List.filter_append]
  rfl

theorem StreamInv.accepted_length {m : StreamMem} (h : StreamInv f strict m) :
    (accepted f m).length < 2 ^ 64 := by
  have h1 := List.length_filter_le f (m.shm.pushed.take m.shm.ring.consumed)
  have h2 := h.ok.consumed_le
  have h3 := h.shm.pushed_length
  have h4 := h.few
  rw [List.length_take] at h1
  unfold accepted
  omega

/-- An accepted event is the `k`-th one for some `k` below the number consumed. -/
theorem StreamInv.mem_accepted {m : StreamMem} (h : StreamInv f strict m) {e : Event}
    (he : e ∈ accepted f m) :
    f e = true ∧ ∃ k, k < m.shm.ring.consumed ∧ m.shm.pushed[k]? = some e ∧ e.id = k + 1 := by
  obtain ⟨hmem, hf⟩ := List.mem_filter.mp he
  obtain ⟨k, hk⟩ := List.mem_iff_getElem?.mp hmem
  have hlt : k < m.shm.ring.consumed := by
    obtain ⟨hl, -⟩ := List.getElem?_eq_some_iff.mp hk
    rw [List.length_take] at hl
    omega
  rw [List.getElem?_take_of_lt hlt] at hk
  exact ⟨hf, k, hlt, hk, (h.source k e hk).1⟩

/-- The books between two steps: the events `D` were dropped since the last item, and the hole for
    them is under way. -/
structure Ledger (f : Event → Bool) (strict : Prop) (D : List Event) (m : StreamMem) : Prop where
  books : ∃ E, accepted f m = E ++ D ∧ ItemsTell strict m.arb.pushed E
  dropped : m.drop.droppedNum = D.length
  times : m.drop.totalDroppedTimes = (m.arb.pushed.filter Event.isHole).length
  num : m.drop.totalDroppedNum = ((m.arb.pushed.filter Event.isHole).map Event.n).sum
  hole : D ≠ [] → m.drop.holeEvent.kind = Event.holeKind ∧ m.drop.holeEvent.n = D.length
  beginId : ∀ e ∈ D.head?, m.drop.dropBeginId = e.id
  below : strict → ∀ a ∈ m.arb.pushed, a.id ≤ m.shm.ring.consumed ∧ ∀ e ∈ D.head?, a.id < e.id

/-- More may have been read from the source, if the filter accepts nothing of it. -/
theorem Ledger.congr {D : List Event} {m m' : StreamMem} (h : Ledger f strict D m)
    (hacc : accepted f m' = accepted f m) (hp : m'.arb.pushed = m.arb.pushed)
    (hc : m.shm.ring.consumed ≤ m'.shm.ring.consumed)
    (hd : m'.drop = { m.drop with lastEventId := m'.drop.lastEventId }) :
    Ledger f strict D m' := by
  obtain ⟨hb, hdn, ht, hn, hh, hi, hl⟩ := h
  refine ⟨?_, ?_, ?_, ?_, ?_, ?_, fun hs a ha => ?_⟩
  · rw [hacc, hp]; exact hb
  · rw [hd]; exact hdn
  · rw [hd, hp]; exact ht
  · rw [hd, hp]; exact hn
  · rw [hd]; exact hh
  · rw [hd]; exact hi
  · rw [hp] at ha
    exact ⟨(hl hs a ha).1.trans hc, (hl hs a ha).2⟩

theorem Ledger.kept {D : List Event} {m m' : StreamMem} (h : Ledger f strict D m)
    (hk : Kept m.drop m m') : Ledger f strict D m' :=
  h.congr hk.shm.accepted hk.arb.pushed hk.shm.consumed.ge (by rw [hk.drop])

theorem Ledger.ne_nil {D : List Event} {m : StreamMem} (h : Ledger f strict D m)
    (h0 : 0 < m.drop.droppedNum) : D ≠ [] := by
  rw [h.dropped] at h0
  exact List.length_pos_iff.mp h0

theorem Ledger.eq_nil {D : List Event} {m : StreamMem} (h : Ledger f strict D m)
    (h0 : m.drop.droppedNum = 0) : D = [] := List.length_eq_zero_iff.mp (h.dropped.symm.trans h0)

theorem Ledger.tells {m : StreamMem} (h : Ledger f strict [] m) :
    ItemsTell strict m.arb.pushed (accepted f m) := by
  obtain ⟨E, hE, ht⟩ := h.books
  rw [hE, List.append_nil]; exact ht

/-- The dropped events are accepted ones. -/
theorem Ledger.mem {D : List Event} {m : StreamMem} (h : Ledger f strict D m) {e : Event}
    (he : e ∈ D) : e ∈ accepted f m := by
  obtain ⟨E, hE, -⟩ := h.books
  rw [hE]; exact List.mem_append_right _ he

theorem Ledger.busy {D : List Event} {m : StreamMem} (h : Ledger f strict D m) (hD : D ≠ []) :
    ¬ Quiet m := by
  intro hq
  exact hD (h.eq_nil hq.2)

/-- Without a filter the hole begins as many events back as were dropped. -/
theorem Ledger.begin_eq {D : List Event} {m : StreamMem} (h : Ledger f strict D m)
    (hm : StreamInv f strict m) (hD : D ≠ []) (hf : ∀ e, f e = true) :
    m.drop.droppedNum + m.drop.dropBeginId = m.shm.ring.consumed + 1 := by
  obtain ⟨E, hE, -⟩ := h.books
  have hacc : accepted f m = m.shm.pushed.take m.shm.ring.consumed :=
    List.filter_eq_self.mpr fun e _ => hf e
  have hlen : E.length + D.length = m.shm.ring.consumed := by
    have hl := congrArg List.length hE
    rw [hacc, List.length_take, min_eq_left hm.ok.consumed_le, List.length_append] at hl
    exact hl.symm
  obtain ⟨e, D', rfl⟩ := List.exists_cons_of_ne_nil hD
  have hid := h.beginId e rfl
  have hget : m.shm.pushed[E.length]? = some e := by
    have hlt : E.length < m.shm.ring.consumed := by rw [← hlen]; simp
    rw [← List.getElem?_take_of_lt hlt, ← hacc, hE, List.getElem?_append_right le_rfl,
      Nat.sub_self]
    rfl
  have hsrc := (hm.source _ e hget).1
  rw [h.dropped, hid, hsrc]
  omega

/-! ### Writing a hole -/

/-- The hole has been written; `dropped_num` still shows what it counts. -/
structure Sent (f : Event → Bool) (strict : Prop) (m m' : StreamMem) : Prop where
  shm : ShmKept m m'
  avail : ∀ n, m.shm.ring.Avail n → m'.shm.ring.Avail n
  tells : ItemsTell strict m'.arb.pushed (accepted f m')
  times : m'.drop.totalDroppedTimes = (m'.arb.pushed.filter Event.isHole).length
  num : m'.drop.totalDroppedNum = ((m'.arb.pushed.filter Event.isHole).map Event.n).sum
  below : strict → ∀ a ∈ m'.arb.pushed, a.id ≤ m'.shm.ring.consumed
  dropped : m'.drop.droppedNum = m.drop.droppedNum
  lastEventId : m'.drop.lastEventId = m.drop.lastEventId
  room : Room 1 m'

theorem Sent.held {m m' m'' : StreamMem} (h : Sent f strict m m') (hh : Held m'.drop m' m'') :
    Sent f strict m m'' := by
  refine ⟨h.shm.trans hh.shm, fun n hn => hh.avail n (h.avail n hn), ?_, ?_, ?_, ?_, ?_, ?_,
    h.room.kept hh.arb⟩
  · rw [hh.arb.pushed, hh.shm.accepted]; exact h.tells
  · rw [hh.drop, hh.arb.pushed]; exact h.times
  · rw [hh.drop, hh.arb.pushed]; exact h.num
  · rw [hh.arb.pushed, hh.shm.consumed]; exact h.below
  · rw [hh.drop]; exact h.dropped
  · rw [hh.drop]; exact h.lastEventId

section Hole

variable {D : List Event} {x : Event} {m : StreamMem} (h : Ledger f strict D m)
include h

/-- With a hole for them the items tell of the dropped events, too. -/
theorem Ledger.tells_hole (hD : D ≠ []) (hx : x.isHole = true) (hxn : x.n = D.length)
    (ho : Open Event.isHole m.arb.pushed) (hid : strict → ∀ d ∈ D, d.id ≤ x.id) :
    ItemsTell strict (m.arb.pushed ++ [x]) (accepted f m) := by
  obtain ⟨E, hE, ht⟩ := h.books
  rw [hE]
  exact ht.run ho hx hD ⟨hxn, hid⟩

theorem Ledger.ids_hole (hD : D ≠ []) (hm : StreamInv f strict m) (hid : strict → ∀ d ∈ D, d.id ≤ x.id) :
    strict → (m.arb.pushed ++ [x]).Pairwise fun a b => a.id < b.id := by
  intro hs
  rw [List.pairwise_append]
  refine ⟨hm.ids hs, List.pairwise_singleton _ _, fun a ha b hb => ?_⟩
  rw [List.mem_singleton.mp hb]
  obtain ⟨e, D', rfl⟩ := List.exists_cons_of_ne_nil hD
  exact ((h.below hs a ha).2 e rfl).trans_le (hid hs e List.mem_cons_self)

/-- The totals do not wrap: there are fewer than `2 ^ 64` events. -/
theorem Ledger.times_hole (hx : x.isHole = true) (hm : StreamInv f strict m)
    (ht : ItemsTell strict (m.arb.pushed ++ [x]) (accepted f m)) :
    (m.drop.totalDroppedTimes + 1) % 2 ^ 64 =
      ((m.arb.pushed ++ [x]).filter Event.isHole).length := by
  have hlen := hm.accepted_length (f := f)
  have hcnt := ht.holes_le
  simp only [List.filter_append, List.filter_cons, hx, if_true, List.filter_nil,
    List.length_append, List.length_singleton, h.times] at hcnt ⊢
  exact Nat.mod_eq_of_lt (by omega)

theorem Ledger.num_hole (hx : x.isHole = true) (hxn : x.n = D.length) (hm : StreamInv f strict m)
    (ht : ItemsTell strict (m.arb.pushed ++ [x]) (accepted f m)) :
    (m.drop.totalDroppedNum + m.drop.droppedNum) % 2 ^ 64 =
      (((m.arb.pushed ++ [x]).filter Event.isHole).map Event.n).sum := by
  have hlen := hm.accepted_length (f := f)
  have hsum := ht.sum_le (n := Event.n) fun _ _ h => h.1
  simp only [List.filter_append, List.filter_cons, hx, if_true, List.filter_nil, List.map_append,
    List.map_cons, List.map_nil, List.sum_append, List.sum_singleton, h.num, h.dropped, hxn]
    at hsum ⊢
  exact Nat.mod_eq_of_lt (by omega)

end Hole

/-- With `dropped_num` set to zero the books are balanced again. -/
theorem Sent.books {m m' m'' : StreamMem} (h : Sent f strict m m')
    (hk : Kept { m'.drop with droppedNum := 0 } m' m'') : Ledger f strict [] m'' := by
  refine ⟨⟨accepted f m'', (List.append_nil _).symm, ?_⟩, ?_, ?_, ?_, fun h => absurd rfl h, nofun,
    fun hs a ha => ⟨?_, nofun⟩⟩
  · rw [hk.arb.pushed, hk.shm.accepted]; exact h.tells
  · rw [hk.drop]; rfl
  · rw [hk.drop, hk.arb.pushed]; exact h.times
  · rw [hk.drop, hk.arb.pushed]; exact h.num
  · rw [hk.shm.consumed]
    exact h.below hs a (by rw [← hk.arb.pushed]; exact ha)

/-- `push_dropped_event`: the hole is written and the totals are brought up to date. -/
theorem pushDroppedEvent_safe {D : List Event} {id : ℕ} {m : StreamMem}
    (hm : StreamInv f strict m) (hl : Ledger f strict D m) (hD : D ≠ [])
    (ho : Open Event.isHole m.arb.pushed) (hr : Room 2 m)
    (hid : strict → (∀ d ∈ D, d.id ≤ id) ∧ id ≤ m.shm.ring.consumed) :
    Safe (StreamInv f strict) (managerRole f strict) (fun _ m' => Sent f strict m m')
      (pushDroppedEvent id) m := by
  obtain ⟨hkind, hn⟩ := hl.hole hD
  refine get_safe hm fun m1 h1 i1 => ?_
  have hk1 : 0 < m1.drop.holeEvent.kind := by rw [h1.drop, hkind]; decide
  rw [check_eq hk1, Prog.ret_bind]
  refine set_safe i1 (fun _ => rfl) (fun _ => rfl) fun m2 h2 i2 => ?_
  rw [h1.drop] at h2
  refine get_safe i2 fun m3 h3 i3 => ?_
  rw [h2.drop] at h3
  have h13 := (h1.trans h2).trans h3
  rw [h13.drop]
  -- the hole that is written
  set x : Event := { m.drop.holeEvent with id := id } with hx
  have hxh : x.isHole = true := by simp [hx, Event.isHole, hkind]
  have htells := hl.tells_hole hD hxh hn ho fun hs => (hid hs).1
  have hitems : ∃ E, E <+: m3.shm.pushed.filter f ∧ ItemsTell strict (m3.arb.pushed ++ [x]) E := by
    refine ⟨accepted f m, ?_, by rw [h13.arb.pushed]; exact htells⟩
    rw [← h13.shm.accepted]
    exact (List.take_prefix _ _).filter f
  have hids : strict → (m3.arb.pushed ++ [x]).Pairwise fun a b => a.id < b.id := by
    rw [h13.arb.pushed]
    exact hl.ids_hole hD hm fun hs => (hid hs).1
  have hb3 : ¬ Quiet m3 := h13.shm.busy (fun h => by rw [h13.drop] at h; exact h) hm i3 (hl.busy hD)
  have hr3 : Room 2 m3 := hr.kept h13.arb
  have hr3' : Room 1 m3 := by unfold Room at *; omega
  refine Safe.bind i3 ((arbPush_safe i3 hr3' hb3 hitems hids).mono fun _ m4 i4 h4 => ?_)
  have hr4 : Room 1 m4 := h4.room hr3
  have hp4 : m4.arb.pushed = m.arb.pushed ++ [x] := by rw [h4.pushed, h13.arb.pushed]
  refine set_safe i4 (fun _ => rfl) (fun _ => rfl) fun m5 h5 i5 => ?_
  have hd4 : m4.drop = { m.drop with holeEvent := x } := h4.drop.trans h13.drop
  have hsent : Sent f strict m m5 := by
    refine ⟨(h13.shm.trans h4.shm).trans h5.shm,
      fun n hn => h5.avail n (h4.avail n (h13.avail n hn)), ?_, ?_, ?_, fun hs a ha => ?_, ?_, ?_,
      hr4.kept h5.arb⟩
    · rw [h5.arb.pushed, hp4, h5.shm.accepted, h4.shm.accepted, h13.shm.accepted]
      exact htells
    · rw [h5.drop, h5.arb.pushed, hp4, hd4]
      exact hl.times_hole hxh hm htells
    · rw [h5.drop, h5.arb.pushed, hp4, hd4]
      exact hl.num_hole hxh hn hm htells
    · rw [h5.arb.pushed, hp4] at ha
      rw [h5.shm.consumed, h4.shm.consumed, h13.shm.consumed]
      rcases List.mem_append.mp ha with ha | ha
      · exact (hl.below hs a ha).1
      · rw [List.mem_singleton.mp ha]; exact (hid hs).2
    · rw [h5.drop, hd4]
    · rw [h5.drop, hd4]
  refine get_safe i5 fun m6 h6 i6 => ?_
  have hs6 := hsent.held h6
  refine Safe.bind i6 ((notifyDropped_safe i6).mono fun _ m7 i7 h7 => ?_)
  have hs7 := hs6.held h7
  exact (checkFree_safe i7 hs7.room).mono fun _ m8 _ h8 => hs7.held h8

end StreamMem

end Vamos
