import Mathlib.Tactic
import VamosBuffers.Core.Arbiter
import VamosBuffers.Core.QueueRoles
import VamosBuffers.Schemes.Summary

/-! The three sides of a stream: the source fills the SHM ring, the manager carries the events over,
    the arbiter empties the arbiter buffer. Between two fetches the books are balanced,

        accepted  =  told  ++  D             told: what the items in the arbiter buffer stand for
                                             D: the events dropped since, dropped_num of them

    and every access in between either leaves them alone or moves one event. `Quiet` is the state in
    which nothing is left to carry over: there the items tell of everything, whatever the manager is
    doing. -/

namespace Vamos
open Schemes

namespace StreamMem

/-- A hole stands for as many events as it counts; where `strict`, none of them is younger than the
    hole. -/
def StandsFor (strict : Prop) (h : Event) (ds : List Event) : Prop :=
  h.n = ds.length ∧ (strict → ∀ d ∈ ds, d.id ≤ h.id)

/-- The items of the arbiter buffer tell of these events. -/
abbrev ItemsTell (strict : Prop) (items events : List Event) : Prop :=
  Tells Event.isHole (StandsFor strict) items events

/-- The events consumed from the SHM ring, without those that the filter rejects. -/
def accepted (f : Event → Bool) (m : StreamMem) : List Event :=
  (m.shm.pushed.take m.shm.ring.consumed).filter f

/-- Nothing is left to carry over. -/
def Quiet (m : StreamMem) : Prop :=
  m.shm.ring.consumed = m.shm.ring.written ∧ m.drop.droppedNum = 0

/-- The stream has ended and nothing is left in the SHM ring. -/
def Drained (m : StreamMem) : Prop :=
  m.destroyed = true ∧ m.shm.ring.consumed = m.shm.ring.written

/-- Nothing is left, and nothing will come. -/
def Settled (m : StreamMem) : Prop := m.destroyed = true ∧ Quiet m

/-- The invariant. The source numbers its events from 1. -/
structure StreamInv (f : Event → Bool) (strict : Prop) (m : StreamMem) : Prop where
  shm : Queue.QueueInv m.shm
  arb : Queue.QueueInv m.arb
  shmSize : 24 ≤ m.shm.elemSize
  arbSize : 24 ≤ m.arb.elemSize
  source : ∀ k e, m.shm.pushed[k]? = some e → e.id = k + 1 ∧ e.isHole = false
  few : m.shm.ring.written < 2 ^ 64
  threshold : 1 ≤ m.drop.dropSpaceThreshold ∧ m.drop.dropSpaceThreshold < m.arb.capacity
  items : ∃ E, E <+: m.shm.pushed.filter f ∧ ItemsTell strict m.arb.pushed E
  ids : strict → m.arb.pushed.Pairwise fun a b => a.id < b.id
  quiet : Quiet m → ItemsTell strict m.arb.pushed (accepted f m)

/-! ### Roles -/

/-- What the source may change, and it changes nothing once the buffer is destroyed. -/
structure SourceStep (m m' : StreamMem) : Prop where
  shm : Queue.ProducerStep m.shm m'.shm
  alive : m.destroyed = false
  arb : m'.arb = m.arb
  drop : m'.drop = m.drop

/-- What the manager may change. When everything is settled, it stays so and nothing more is written
    to the arbiter buffer. -/
structure ManagerStep (m m' : StreamMem) : Prop where
  shm : Queue.ConsumerMoves m.shm m'.shm
  arb : Queue.ProducerStep m.arb m'.arb
  destroyed : m'.destroyed = m.destroyed
  settled : Settled m → Settled m' ∧ m'.arb.ring.written = m.arb.ring.written

/-- What the arbiter may change. -/
structure ArbiterStep (m m' : StreamMem) : Prop where
  arb : Queue.ConsumerMoves m.arb m'.arb
  shm : m'.shm = m.shm
  destroyed : m'.destroyed = m.destroyed
  drop : m'.drop = m.drop

/-- What the source relies on. -/
structure ForSource (m m' : StreamMem) : Prop where
  shm : Queue.ConsumerMoves m.shm m'.shm
  destroyed : m'.destroyed = m.destroyed

/-- What the manager relies on. -/
structure ForManager (m m' : StreamMem) : Prop where
  shm : Queue.ProducerStep m.shm m'.shm
  closed : m.destroyed = true → m'.destroyed = true ∧ m'.shm = m.shm
  arb : Queue.ConsumerMoves m.arb m'.arb
  drop : m'.drop = m.drop

/-- What the arbiter relies on. -/
structure ForArbiter (m m' : StreamMem) : Prop where
  arb : Queue.ProducerStep m.arb m'.arb
  closed : m.destroyed = true → m'.destroyed = true ∧ Queue.ConsumerMoves m.shm m'.shm
  settled : Settled m → Settled m' ∧ m'.arb.ring.written = m.arb.ring.written

theorem ForSource.refl (m : StreamMem) : ForSource m m := ⟨.refl _, rfl⟩

theorem ForSource.trans {m m' m'' : StreamMem} (h : ForSource m m') (h' : ForSource m' m'') :
    ForSource m m'' := ⟨h.shm.trans h'.shm, h'.destroyed.trans h.destroyed⟩

theorem ForManager.refl (m : StreamMem) : ForManager m m :=
  ⟨.refl _, fun h => ⟨h, rfl⟩, .refl _, rfl⟩

theorem ForManager.trans {m m' m'' : StreamMem} (h : ForManager m m') (h' : ForManager m' m'') :
    ForManager m m'' := by
  refine ⟨h.shm.trans h'.shm, fun hd => ?_, h.arb.trans h'.arb, h'.drop.trans h.drop⟩
  obtain ⟨hd1, hs1⟩ := h.closed hd
  obtain ⟨hd2, hs2⟩ := h'.closed hd1
  exact ⟨hd2, hs2.trans hs1⟩

theorem ForArbiter.refl (m : StreamMem) : ForArbiter m m :=
  ⟨.refl _, fun h => ⟨h, .refl _⟩, fun h => ⟨h, rfl⟩⟩

theorem ForArbiter.trans {m m' m'' : StreamMem} (h : ForArbiter m m') (h' : ForArbiter m' m'') :
    ForArbiter m m'' := by
  refine ⟨h.arb.trans h'.arb, fun hd => ?_, fun hs => ?_⟩
  · obtain ⟨hd1, hs1⟩ := h.closed hd
    obtain ⟨hd2, hs2⟩ := h'.closed hd1
    exact ⟨hd2, hs1.trans hs2⟩
  · obtain ⟨hs1, hw1⟩ := h.settled hs
    obtain ⟨hs2, hw2⟩ := h'.settled hs1
    exact ⟨hs2, hw2.trans hw1⟩

theorem ManagerStep.refl (m : StreamMem) : ManagerStep m m :=
  ⟨.refl _, .refl _, rfl, fun h => ⟨h, rfl⟩⟩

theorem ArbiterStep.refl (m : StreamMem) : ArbiterStep m m := ⟨.refl _, rfl, rfl, rfl⟩

def sourceRole : Role StreamMem StreamAcc where
  rely := ForSource
  guar _ := SourceStep
  refl := ForSource.refl
  trans := ForSource.trans

/-- The last event that was read from the SHM ring was rejected, or nothing is dropped: then the hole
    at the end of the stream may have the id before the last one. -/
def EndsInOrder (f : Event → Bool) (l : StreamAcc) (m : StreamMem) : Prop :=
  l = .atEnd → m.drop.droppedNum = 0 ∨
    ∀ e ∈ m.shm.pushed[m.shm.ring.consumed - 1]?, f e = false

instance (f : Event → Bool) (l : StreamAcc) (m : StreamMem) : Decidable (EndsInOrder f l m) := by
  unfold EndsInOrder; infer_instance

/-- The manager; its check of the ids of a hole holds only without a filter. -/
def managerRole (f : Event → Bool) (strict : Prop) : Role StreamMem StreamAcc where
  rely := ForManager
  guar _ := ManagerStep
  refl := ForManager.refl
  trans := ForManager.trans
  pre l m := strict → EndsInOrder f l m
  lenient := ¬ ∀ e, f e = true

/-- The arbiter, in a build without assertions: those of `drop_older_than` do not always hold. -/
def arbiterRole : Role StreamMem StreamAcc where
  rely := ForArbiter
  guar _ := ArbiterStep
  refl := ForArbiter.refl
  trans := ForArbiter.trans
  lenient := True

/-! ### What the manager keeps -/

/-- The SHM ring, as far as the manager goes by it: more may have been pushed. -/
structure ShmKept (m m' : StreamMem) : Prop where
  pushed : m.shm.pushed <+: m'.shm.pushed
  took : m'.shm.pushed.take m.shm.ring.consumed = m.shm.pushed.take m.shm.ring.consumed
  consumed : m'.shm.ring.consumed = m.shm.ring.consumed
  slots : m'.shm.slotOf = m.shm.slotOf
  closed : m.destroyed = true → m'.destroyed = true ∧ m'.shm.ring.written = m.shm.ring.written

/-- The arbiter buffer, as far as the manager goes by it: more may have been removed. -/
structure ArbKept (m m' : StreamMem) : Prop where
  pushed : m'.arb.pushed = m.arb.pushed
  written : m'.arb.ring.written = m.arb.ring.written
  capacity : m'.arb.ring.capacity = m.arb.ring.capacity
  removed : m.arb.ring.consumed ≤ m'.arb.ring.consumed

/-- Nothing that the manager's books depend on has changed; its own fields are now `d`. -/
structure Kept (d : Dropping) (m m' : StreamMem) : Prop where
  shm : ShmKept m m'
  arb : ArbKept m m'
  drop : m'.drop = d

/-- And the manager still sees the events it has been told of. -/
structure Held (d : Dropping) (m m' : StreamMem) : Prop extends Kept d m m' where
  avail : ∀ n, m.shm.ring.Avail n → m'.shm.ring.Avail n

theorem ShmKept.of_eq {m m' : StreamMem} (hs : m'.shm = m.shm)
    (hd : m'.destroyed = m.destroyed) : ShmKept m m' := by
  refine ⟨by rw [hs], by rw [hs], by rw [hs], by rw [hs], fun h => ⟨hd.trans h, by rw [hs]⟩⟩

theorem ShmKept.trans {m m' m'' : StreamMem} (h : ShmKept m m') (h' : ShmKept m' m'') :
    ShmKept m m'' := by
  refine ⟨h.pushed.trans h'.pushed, ?_, h'.consumed.trans h.consumed, h'.slots.trans h.slots,
    fun hd => ?_⟩
  · have ht := h'.took
    rw [h.consumed] at ht
    exact ht.trans h.took
  · obtain ⟨hd1, hw1⟩ := h.closed hd
    obtain ⟨hd2, hw2⟩ := h'.closed hd1
    exact ⟨hd2, hw2.trans hw1⟩

theorem ArbKept.of_eq {m m' : StreamMem} (h : m'.arb = m.arb) : ArbKept m m' := by
  refine ⟨by rw [h], by rw [h], by rw [h], by rw [h]⟩

theorem ArbKept.trans {m m' m'' : StreamMem} (h : ArbKept m m') (h' : ArbKept m' m'') :
    ArbKept m m'' :=
  ⟨h'.1.trans h.1, h'.2.trans h.2, h'.3.trans h.3, h.4.trans h'.4⟩

theorem Kept.trans {d d' : Dropping} {m m' m'' : StreamMem} (h : Kept d m m')
    (h' : Kept d' m' m'') : Kept d' m m'' := ⟨h.1.trans h'.1, h.2.trans h'.2, h'.3⟩

theorem Held.trans {d d' : Dropping} {m m' m'' : StreamMem} (h : Held d m m')
    (h' : Held d' m' m'') : Held d' m m'' :=
  ⟨h.toKept.trans h'.toKept, fun n hn => h'.avail n (h.avail n hn)⟩

theorem Kept.refl (m : StreamMem) : Kept m.drop m m := ⟨.of_eq rfl rfl, .of_eq rfl, rfl⟩

theorem Held.refl (m : StreamMem) : Held m.drop m m := ⟨.refl m, fun _ h => h⟩

theorem Held.store (d : Dropping) (m : StreamMem) : Held d m { m with drop := d } :=
  ⟨⟨.of_eq rfl rfl, .of_eq rfl, rfl⟩, fun _ h => h⟩

/-- The books' events so far are the same. -/
theorem ShmKept.accepted {f : Event → Bool} {m m' : StreamMem} (h : ShmKept m m') :
    accepted f m' = accepted f m := by
  unfold StreamMem.accepted
  rw [h.consumed, h.took]

/-- A reader of the SHM ring that consumes nothing. -/
theorem ShmKept.of_moves {m : StreamMem} {q : Queue Event} (h : Queue.ConsumerMoves m.shm q)
    (hc : q.ring.consumed = m.shm.ring.consumed) : ShmKept m { m with shm := q } := by
  have hp : q.pushed = m.shm.pushed := h.pushed
  refine ⟨?_, congrArg (List.take _) hp, hc, ?_, fun hd => ⟨hd, h.ring.written⟩⟩
  · show m.shm.pushed <+: q.pushed
    rw [hp]
  · funext k
    exact Queue.slotOf_congr h.capacity h.elemSize k

/-! ### Invariants

The manager's calls that only look are the same under every invariant of a stream. -/

/-- What every invariant of a stream says of the two queues and the source. -/
structure StreamOk (m : StreamMem) : Prop where
  shm : Queue.QueueInv m.shm
  arb : Queue.QueueInv m.arb
  shmSize : 24 ≤ m.shm.elemSize
  arbSize : 24 ≤ m.arb.elemSize
  source : ∀ k e, m.shm.pushed[k]? = some e → e.id = k + 1 ∧ e.isHole = false
  few : m.shm.ring.written < 2 ^ 64
  threshold : 1 ≤ m.drop.dropSpaceThreshold ∧ m.drop.dropSpaceThreshold < m.arb.capacity

/-- An invariant of a stream. -/
class Streams (I : StreamMem → Prop) : Prop where
  ok : ∀ {m}, I m → StreamOk m

/-- A role of the manager: it may look, at the arbiter buffer and at the SHM ring. -/
class Carries (I : StreamMem → Prop) (ρ : Role StreamMem StreamAcc) : Prop extends Streams I where
  rely : ∀ {m m'}, ρ.rely m m' → ForManager m m'
  load : ∀ l m, ρ.guar l m m
  asksArb : ∀ l {m q}, I m → Queue.QueueInv q → Queue.ProducerStep m.arb q →
    q.ring.written = m.arb.ring.written →
    ρ.guar (.arb l) m { m with arb := q } ∧ I { m with arb := q }
  asksShm : ∀ l {m q}, I m → Queue.QueueInv q → Queue.ConsumerMoves m.shm q →
    q.ring.consumed = m.shm.ring.consumed →
    ρ.guar (.shm l) m { m with shm := q } ∧ I { m with shm := q }
  notify : ∀ {m} i, I m → ρ.guar .notify m { m with info := i } ∧ I { m with info := i }

theorem StreamOk.consumed_le {m : StreamMem} (h : StreamOk m) :
    m.shm.ring.consumed ≤ m.shm.pushed.length := by
  rw [h.shm.pushed_length]; exact h.shm.ring.consumed_le

section Looking

variable {I : StreamMem → Prop} {ρ : Role StreamMem StreamAcc}

/-- What the others do keeps the books. -/
theorem ForManager.held [Streams I] {m m' : StreamMem} (h : ForManager m m') (hm : I m) :
    Held m.drop m m' := by
  refine ⟨⟨⟨h.shm.pushed_grows, ?_, h.shm.ring.consumed, ?_, fun hd => ?_⟩,
    ⟨h.arb.pushed, h.arb.ring.written, h.arb.ring.capacity, h.arb.ring.consumed⟩, h.drop⟩,
    fun _ hn => hn.stable h.shm.ring⟩
  · obtain ⟨t, ht⟩ := h.shm.pushed_grows
    rw [← ht, List.take_append_of_le_length (Streams.ok hm).consumed_le]
  · funext k
    exact Queue.slotOf_congr h.shm.capacity h.shm.elemSize k
  · obtain ⟨hd', hs⟩ := h.closed hd
    exact ⟨hd', by rw [hs]⟩

variable [Carries I ρ]

theorem Carries.held {m m' : StreamMem} (h : ρ.rely m m') (hm : I m) : Held m.drop m m' :=
  (Carries.rely I h).held hm

/-! ### Calls on the two queues -/

/-- A call on the arbiter buffer that writes nothing. -/
theorem onArb_asks {α : Type} {p : QueueProg Event α} {Q : α → Queue Event → Prop} {m : StreamMem}
    (hm : I m) (h : Safe Queue.QueueInv (Queue.producerRole 0) Q p m.arb) :
    Safe I ρ (fun a m' => Q a m'.arb ∧ Held m.drop m m') (onArb p) m := by
  have hz := Safe.zoom (I := I) (ρ := ρ) (L := arbLens) (φ := StreamAcc.arb) (p := p) (s := m)
    (fun m' => Held m.drop m m' ∧ I m') (fun m' i => (Streams.ok i).arb)
    (fun m' m'' _ hr _ => (Carries.rely I hr).arb) (fun _ _ _ => trivial) ?_ ?_ False.elim
    ⟨.refl m, hm⟩ h
  · exact hz.mono fun a m' _ hq => ⟨hq.1, hq.2.1⟩
  · exact fun m' m'' hh hr i => ⟨hh.1.drop ▸ hh.1.trans (Carries.held hr hh.2), i⟩
  · rintro l m' q - ⟨hh, -⟩ hi hq ⟨hst, hlim, -⟩
    have hw := hst.written_eq hlim (Nat.zero_le _)
    obtain ⟨hg, hinv⟩ := Carries.asksArb (ρ := ρ) l hi hq hst hw
    refine ⟨hg, hinv, hh.trans ?_, hinv⟩
    exact ⟨⟨.of_eq rfl rfl, ⟨hst.pushed_eq hw, hw, hst.ring.capacity, hst.ring.consumed.ge⟩, hh.drop⟩,
      fun _ hn => hn⟩

/-- A call on the SHM ring that consumes nothing. -/
theorem onShm_asks {α : Type} {p : QueueProg Event α} {Q : α → Queue Event → Prop} {m : StreamMem}
    (hm : I m) (h : Safe Queue.QueueInv (Queue.consumerRole 0) Q p m.shm) :
    Safe I ρ (fun a m' => Q a m'.shm ∧ Kept m.drop m m') (onShm p) m := by
  have hz := Safe.zoom (I := I) (ρ := ρ) (L := shmLens) (φ := StreamAcc.shm) (p := p) (s := m)
    (fun m' => Kept m.drop m m' ∧ I m') (fun m' i => (Streams.ok i).shm)
    (fun m' m'' _ hr _ => (Carries.rely I hr).shm) (fun _ _ _ => trivial) ?_ ?_ False.elim
    ⟨.refl m, hm⟩ h
  · exact hz.mono fun a m' _ hq => ⟨hq.1, hq.2.1⟩
  · exact fun m' m'' hh hr i => ⟨hh.1.drop ▸ hh.1.trans (Carries.held hr hh.2).toKept, i⟩
  · rintro l m' q - ⟨hh, -⟩ hi hq ⟨hst, hlim, -, -⟩
    have hc := hst.toConsumerMoves.consumed_eq hlim (Nat.zero_le _)
    obtain ⟨hg, hinv⟩ := Carries.asksShm (ρ := ρ) l hi hq hst.toConsumerMoves hc
    exact ⟨hg, hinv, hh.trans ⟨.of_moves hst.toConsumerMoves hc, .of_eq rfl, hh.drop⟩, hinv⟩

/-- A load of a field: what was read is what there is. -/
theorem get_safe {α β : Type} {l : StreamAcc} {g : StreamMem → α} {k : α → StreamProg β}
    {Q : β → StreamMem → Prop} {m : StreamMem} (hm : I m)
    (h : ∀ m', Held m.drop m m' → I m' → Safe I ρ Q (k (g m')) m') :
    Safe I ρ Q (get l g >>= k) m :=
  Safe.access_bind fun m1 h1 i1 => ⟨Carries.load I l m1, i1, h m1 (Carries.held h1 hm) i1⟩

/-- `notify_dropped` touches nothing of the manager's. -/
theorem notifyDropped_safe {b e : ℕ} {m : StreamMem} (hm : I m) :
    Safe I ρ (fun _ m' => Held m.drop m m') (notifyDropped b e) m := by
  refine Safe.access fun m1 h1 i1 => ?_
  obtain ⟨hg, i2⟩ := Carries.notify (ρ := ρ) (m1.info.notifyDropped b e) i1
  refine ⟨hg, i2, fun m3 h3 _ => ?_⟩
  have hh : Held m1.drop m1 { m1 with info := m1.info.notifyDropped b e } :=
    ⟨⟨.of_eq rfl rfl, .of_eq rfl, rfl⟩, fun _ h => h⟩
  have h1 := Carries.held h1 hm
  rw [← h1.drop]
  exact (h1.trans hh).trans (Carries.held h3 i2)

/-- An assertion that holds. -/
theorem check_eq {p : Prop} [Decidable p] (h : p) : check p = .ret () := by
  rw [check, Chk.require_eq h, Prog.ofChk_pure]

/-! ### Free space -/

/-- There is room for `n` items in the arbiter buffer, even if nothing is removed. -/
def Room (n : ℕ) (m : StreamMem) : Prop :=
  m.arb.ring.written + n < m.arb.ring.consumed + m.arb.ring.capacity

theorem Room.kept {n : ℕ} {m m' : StreamMem} (h : Room n m) (hk : ArbKept m m') : Room n m' := by
  have := hk.removed
  unfold Room at *
  rw [hk.written, hk.capacity]
  omega

theorem Room.mono {n k : ℕ} {m : StreamMem} (h : Room n m) (hk : k ≤ n) : Room k m := by
  unfold Room at *
  omega

theorem freeSpace_safe {m : StreamMem} (hm : I m) :
    Safe I ρ (fun n m' => Held m.drop m m' ∧ Room n m' ∧ (Room 1 m → 0 < n)) freeSpace m := by
  refine (onArb_asks hm (Queue.onRing_asks (Ringbuf.freeNum_writer_safe m.arb.ring))).mono
    fun n m' _ hq => ?_
  obtain ⟨⟨⟨hfree, -, -, hle⟩, -⟩, hh⟩ := hq
  refine ⟨hh, hfree, fun hr => ?_⟩
  unfold Room at hr
  omega

theorem checkFree_safe {m : StreamMem} (hm : I m) (hr : Room 1 m) :
    Safe I ρ (fun _ m' => Held m.drop m m') checkFree m := by
  refine Safe.bind hm ((freeSpace_safe hm).mono fun n m1 i1 ⟨hh, _, hn⟩ => ?_)
  rw [check_eq (hn hr)]
  exact fun m2 h2 _ => hh.drop ▸ hh.trans (Carries.held h2 i1)

/-- Above the threshold there is room for a hole and for as many events as the threshold says. -/
theorem aboveThreshold_safe {m : StreamMem} (hm : I m) :
    Safe I ρ (fun above m' => Held m.drop m m' ∧
      (above = true → Room (m.drop.dropSpaceThreshold + 1) m')) aboveThreshold m := by
  refine get_safe hm fun m1 h1 i1 => ?_
  dsimp only
  rw [check_eq (Streams.ok i1).threshold.2, Prog.ret_bind]
  refine Safe.bind i1 ((freeSpace_safe i1).mono fun n m2 i2 ⟨hh, hr, _⟩ => ?_)
  refine fun m3 h3 _ => ⟨?_, fun ha => ?_⟩
  · rw [← h1.drop, ← hh.drop]
    exact (h1.trans hh).trans (Carries.held h3 i2)
  · have hlt : m1.drop.dropSpaceThreshold < n := of_decide_eq_true ha
    rw [h1.drop] at hlt
    exact (hr.mono hlt).kept (Carries.held h3 i2).arb

end Looking

/-! ### The invariant of the books -/

section Inv

variable {f : Event → Bool} {strict : Prop}

theorem StreamInv.ok {m : StreamMem} (h : StreamInv f strict m) : StreamOk m :=
  ⟨h.shm, h.arb, h.shmSize, h.arbSize, h.source, h.few, h.threshold⟩

instance : Carries (StreamInv f strict) (managerRole f strict) where
  ok h := h.ok
  rely h := h
  load _ m := .refl m
  asksArb _ m q hi hq hst hw := by
    have hp := hst.pushed_eq hw
    refine ⟨⟨.refl _, hst, rfl, fun hs => ⟨hs, hw⟩⟩, hi.shm, hq, hi.shmSize, ?_, hi.source, hi.few,
      ?_, ?_, ?_, ?_⟩
    · exact hst.elemSize ▸ hi.arbSize
    · exact hst.capacity ▸ hi.threshold
    · exact hp ▸ hi.items
    · exact hp ▸ hi.ids
    · exact fun hqt => hp ▸ hi.quiet hqt
  asksShm _ m q hi hq hst hc := by
    have hw : q.ring.written = m.shm.ring.written := hst.ring.written
    have hp : q.pushed = m.shm.pushed := hst.pushed
    have hk : ShmKept m { m with shm := q } := .of_moves hst hc
    refine ⟨⟨hst, .refl _, rfl, fun hs => ⟨⟨hs.1, hc.trans (hs.2.1.trans hw.symm), hs.2.2⟩, rfl⟩⟩,
      hq, hi.arb, ?_, hi.arbSize, ?_, hw ▸ hi.few, hi.threshold, ?_, hi.ids, fun hqt => ?_⟩
    · exact hst.elemSize ▸ hi.shmSize
    · exact fun k e he => hi.source k e (hp ▸ he)
    · exact (show ({ m with shm := q } : StreamMem).shm.pushed = m.shm.pushed from hp) ▸ hi.items
    · rw [hk.accepted]
      exact hi.quiet ⟨hc.symm.trans (hqt.1.trans hw), hqt.2⟩
  notify i hi := ⟨⟨.refl _, .refl _, rfl, fun hs => ⟨hs, rfl⟩⟩, hi.shm, hi.arb, hi.shmSize, hi.arbSize,
    hi.source, hi.few, hi.threshold, hi.items, hi.ids, hi.quiet⟩

/-- While something is left to carry over, the others do not change that. -/
theorem ShmKept.busy {m m' : StreamMem} (h : ShmKept m m') (hd : m'.drop.droppedNum = 0 →
    m.drop.droppedNum = 0) (hm : StreamInv f strict m) (hm' : StreamInv f strict m')
    (hb : ¬ Quiet m) : ¬ Quiet m' := by
  rintro ⟨hc, h0⟩
  refine hb ⟨?_, hd h0⟩
  have hle := h.pushed.length_le
  rw [hm.shm.pushed_length, hm'.shm.pushed_length] at hle
  have hcw := hm.shm.ring.consumed_le
  rw [h.consumed] at hc
  omega

/-! ### Stores to the manager's fields -/

/-- A store to a field other than `dropped_num`, and what follows it. -/
theorem set_safe {β : Type} {l : StreamAcc} {g : Dropping → Dropping} {k : Unit → StreamProg β}
    {Q : β → StreamMem → Prop} {m : StreamMem} (hm : StreamInv f strict m)
    (ht : ∀ d, (g d).dropSpaceThreshold = d.dropSpaceThreshold)
    (hd : ∀ d, (g d).droppedNum = d.droppedNum)
    (h : ∀ m', Held (g m.drop) m m' → StreamInv f strict m' →
      Safe (StreamInv f strict) (managerRole f strict) Q (k ()) m') :
    Safe (StreamInv f strict) (managerRole f strict) Q (set l g >>= k) m := by
  refine Safe.access_bind fun m1 h1 i1 => ?_
  have i2 : StreamInv f strict { m1 with drop := g m1.drop } :=
    ⟨i1.shm, i1.arb, i1.shmSize, i1.arbSize, i1.source, i1.few, by rw [ht]; exact i1.threshold,
      i1.items, i1.ids, fun hq => i1.quiet ⟨hq.1, (hd _).symm.trans hq.2⟩⟩
  refine ⟨⟨.refl _, .refl _, rfl, fun hs => ⟨⟨hs.1, hs.2.1, (hd _).trans hs.2.2⟩, rfl⟩⟩, i2,
    h _ ?_ i2⟩
  rw [← h1.drop]
  exact (h1.held hm).trans (.store _ m1)

/-- A store to `dropped_num`, while something is left to carry over. -/
theorem setDropped_safe {β : Type} {l : StreamAcc} {g : Dropping → Dropping}
    {k : Unit → StreamProg β} {Q : β → StreamMem → Prop} {m : StreamMem}
    (hm : StreamInv f strict m) (ht : ∀ d, (g d).dropSpaceThreshold = d.dropSpaceThreshold)
    (hb : ¬ Quiet m)
    (hq : (g m.drop).droppedNum = 0 → m.shm.ring.consumed = m.shm.ring.written →
      ItemsTell strict m.arb.pushed (accepted f m))
    (h : ∀ m', Held (g m.drop) m m' → StreamInv f strict m' →
      Safe (StreamInv f strict) (managerRole f strict) Q (k ()) m') :
    Safe (StreamInv f strict) (managerRole f strict) Q (set l g >>= k) m := by
  refine Safe.access_bind fun m1 h1 i1 => ?_
  have hh1 := h1.held hm
  have hb1 : ¬ Quiet m1 := hh1.shm.busy (fun h => hh1.drop ▸ h) hm i1 hb
  have i2 : StreamInv f strict { m1 with drop := g m1.drop } := by
    refine ⟨i1.shm, i1.arb, i1.shmSize, i1.arbSize, i1.source, i1.few, by rw [ht]; exact i1.threshold,
      i1.items, i1.ids, fun hqt => ?_⟩
    have hle := hh1.shm.pushed.length_le
    rw [hm.shm.pushed_length, i1.shm.pushed_length] at hle
    have hcw := hm.shm.ring.consumed_le
    have hc1 : m1.shm.ring.consumed = m1.shm.ring.written := hqt.1
    have h0 : (g m1.drop).droppedNum = 0 := hqt.2
    rw [hh1.drop] at h0
    have hc := hh1.shm.consumed
    show ItemsTell strict m1.arb.pushed (accepted f m1)
    rw [hh1.arb.pushed, hh1.shm.accepted]
    exact hq h0 (by omega)
  refine ⟨⟨.refl _, .refl _, rfl, fun hs => absurd hs.2 hb1⟩, i2, h _ ?_ i2⟩
  rw [← h1.drop]
  exact hh1.trans (.store _ m1)

end Inv

end StreamMem

end Vamos
