import Mathlib.Tactic
import VamosBuffers.Core.ManagerRuns
import VamosBuffers.Core.DropRuns

/-! The items of the arbiter buffer are in the order of their ids, whatever the filters of the manager
    say and whether there was room for a hole or not:

        event in hand      id consumed + 1, younger than every item
        hole               id of the last event consumed, or of the one before it

    So a hole may have the id of the event before it, and an event is always younger than the items
    before it. -/

namespace Vamos
open Schemes

namespace StreamMem

/-! ### Items -/

/-- An item's id is not further than the event in hand; that of a hole has been consumed, and events
    are numbered from 1. -/
def Numbered (consumed : ℕ) (x : Event) : Prop :=
  x.id ≤ consumed + 1 ∧ (x.isHole = true → x.id ≤ consumed) ∧ (x.isHole = false → 1 ≤ x.id)

theorem Numbered.mono {c c' : ℕ} {x : Event} (h : Numbered c x) (hc : c ≤ c') : Numbered c' x :=
  ⟨h.1.trans (Nat.succ_le_succ hc), fun hx => (h.2.1 hx).trans hc, h.2.2⟩

/-- The items are in the order of their ids. -/
structure ItemsInv (m : StreamMem) : Prop extends StreamOk m where
  ordered : m.arb.pushed.Pairwise fun a b => a.id ≤ b.id ∧ (b.isHole = false → a.id < b.id)
  ahead : ∀ x ∈ m.arb.pushed, Numbered m.shm.ring.consumed x

/-- The new items are holes, or events not consumed yet. -/
def NewItems (m m' : StreamMem) : Prop :=
  ∃ l, m'.arb.pushed = m.arb.pushed ++ l ∧ ∀ x ∈ l, x.isHole = true ∨ m.shm.ring.consumed < x.id

theorem NewItems.of_eq {m m' : StreamMem} (h : m'.arb.pushed = m.arb.pushed) : NewItems m m' :=
  ⟨[], by rw [h, List.append_nil], nofun⟩

/-- What the manager may change. -/
structure ItemStep (m m' : StreamMem) : Prop extends CarryStep m m' where
  items : NewItems m m'

def itemRole : Role StreamMem StreamAcc where
  rely := ForManager
  guar _ := ItemStep
  refl := ForManager.refl
  trans := ForManager.trans
  lenient := True

section Inv

variable {m : StreamMem} {q : Queue Event}

/-- The arbiter buffer changes, and its items are the same. -/
theorem ItemsInv.setArb (h : ItemsInv m) (hq : Queue.QueueInv q) (he : q.elemSize = m.arb.elemSize)
    (hc : q.capacity = m.arb.capacity) (hp : q.pushed = m.arb.pushed) :
    ItemsInv { m with arb := q } := by
  refine ⟨⟨h.shm, hq, h.shmSize, he ▸ h.arbSize, h.source, h.few, hc ▸ h.threshold⟩, ?_, ?_⟩
  · show q.pushed.Pairwise _
    rw [hp]; exact h.ordered
  · show ∀ x ∈ q.pushed, _
    rw [hp]; exact h.ahead

/-- The SHM ring changes, and the events in it are numbered. -/
theorem ItemsInv.setShm (h : ItemsInv m) (hq : Queue.QueueInv q) (he : q.elemSize = m.shm.elemSize)
    (hs : ∀ k e, q.pushed[k]? = some e → e.id = k + 1 ∧ e.isHole = false)
    (hw : q.ring.written < 2 ^ 64) (hc : m.shm.ring.consumed ≤ q.ring.consumed) :
    ItemsInv { m with shm := q } :=
  ⟨⟨hq, h.arb, he ▸ h.shmSize, h.arbSize, hs, hw, h.threshold⟩, h.ordered,
    fun x hx => (h.ahead x hx).mono hc⟩

theorem ItemsInv.consumerMoves (h : ItemsInv m) (hq : Queue.QueueInv q)
    (hs : Queue.ConsumerMoves m.shm q) : ItemsInv { m with shm := q } :=
  h.setShm hq hs.elemSize (by rw [hs.pushed]; exact h.source) (by rw [hs.ring.written]; exact h.few)
    hs.ring.consumed

instance : Carries ItemsInv itemRole where
  ok h := h.toStreamOk
  rely h := h
  load _ _ := ⟨⟨.refl _, .refl _, rfl⟩, .of_eq rfl⟩
  asksArb _ _ _ h hq hst hw := ⟨⟨⟨.refl _, hst, rfl⟩, .of_eq (hst.pushed_eq hw)⟩,
    h.setArb hq hst.elemSize hst.capacity (hst.pushed_eq hw)⟩
  asksShm _ _ _ h hq hst _ := ⟨⟨⟨hst, .refl _, rfl⟩, .of_eq rfl⟩, h.consumerMoves hq hst⟩
  notify _ h := ⟨⟨⟨.refl _, .refl _, rfl⟩, .of_eq rfl⟩,
    ⟨h.shm, h.arb, h.shmSize, h.arbSize, h.source, h.few, h.threshold⟩, h.ordered, h.ahead⟩

instance : Supplies ItemsInv where
  ok h := h.toStreamOk
  pushes h hq hst hs hw := h.setShm hq hst.elemSize hs hw hst.ring.consumed.ge
  destroys h := ⟨⟨h.shm, h.arb, h.shmSize, h.arbSize, h.source, h.few, h.threshold⟩, h.ordered,
    h.ahead⟩

/-- An event is younger than all before it, and a hole not older. -/
theorem ItemsInv.le (h : ItemsInv m) {i j : ℕ} {a b : Event} (hij : i < j)
    (ha : m.arb.pushed[i]? = some a) (hb : m.arb.pushed[j]? = some b) :
    a.id ≤ b.id ∧ (b.isHole = false → a.id < b.id) := by
  obtain ⟨hi, rfl⟩ := List.getElem?_eq_some_iff.mp ha
  obtain ⟨hj, rfl⟩ := List.getElem?_eq_some_iff.mp hb
  exact List.pairwise_iff_getElem.mp h.ordered i j hi hj hij

/-- Of the removed items the last one has the largest id. -/
theorem ItemsInv.le_last (h : ItemsInv m) {e a : Event} (hl : LastRemoved e m)
    (ha : a ∈ m.arb.pushed.take m.arb.ring.consumed) : a.id ≤ e.id := by
  obtain ⟨h0, he⟩ := hl
  obtain ⟨i, hi⟩ := List.mem_iff_getElem?.mp ha
  obtain ⟨hlt, -⟩ := List.getElem?_eq_some_iff.mp hi
  rw [List.length_take] at hlt
  rw [List.getElem?_take_of_lt (by omega)] at hi
  rcases Nat.lt_or_ge i (m.arb.ring.consumed - 1) with hlt' | hge
  · exact (h.le hlt' hi he).1
  · obtain rfl : i = m.arb.ring.consumed - 1 := by omega
    obtain rfl : a = e := Option.some.inj (hi.symm.trans he)
    exact le_rfl

/-- An event that is still there is younger than every item that was removed. -/
theorem ItemsInv.lt_left (h : ItemsInv m) {a x : Event}
    (ha : a ∈ m.arb.pushed.take m.arb.ring.consumed)
    (hx : x ∈ m.arb.pushed.drop m.arb.ring.consumed) (hn : x.isHole = false) : a.id < x.id := by
  have ho := h.ordered
  rw [← List.take_append_drop m.arb.ring.consumed m.arb.pushed, List.pairwise_append] at ho
  exact (ho.2.2 a ha x hx).2 hn

end Inv

/-! ### The manager's accesses -/

section Manager

variable {m : StreamMem}

/-- A store to one of the manager's fields. -/
theorem itemStore_safe {l : StreamAcc} {g : Dropping → Dropping} (hm : ItemsInv m)
    (hg : ∀ d, (g d).dropSpaceThreshold = d.dropSpaceThreshold) :
    Safe ItemsInv itemRole (fun _ m' => Held (g m.drop) m m') (set l g) m := by
  refine Safe.access fun m1 h1 i1 => ?_
  have i2 : ItemsInv { m1 with drop := g m1.drop } :=
    ⟨⟨i1.shm, i1.arb, i1.shmSize, i1.arbSize, i1.source, i1.few, by rw [hg]; exact i1.threshold⟩,
      i1.ordered, i1.ahead⟩
  refine ⟨⟨⟨.refl _, .refl _, rfl⟩, .of_eq rfl⟩, i2, fun m3 h3 _ => ?_⟩
  have h1 : ForManager m m1 := h1
  have h3 : ForManager _ m3 := h3
  rw [← h1.drop]
  exact ((h1.held hm).trans (.store _ m1)).trans (h3.held i2)

/-- A store, and what follows it. -/
theorem itemStore_bind {β : Type} {l : StreamAcc} {g : Dropping → Dropping} {k : Unit → StreamProg β}
    {Q : β → StreamMem → Prop} (hm : ItemsInv m)
    (hg : ∀ d, (g d).dropSpaceThreshold = d.dropSpaceThreshold)
    (h : ∀ m', Held (g m.drop) m m' → ItemsInv m' → Safe ItemsInv itemRole Q (k ()) m') :
    Safe ItemsInv itemRole Q (set l g >>= k) m :=
  Safe.bind hm ((itemStore_safe hm hg).mono fun _ m' i' h' => h m' h' i')

theorem consume_items_safe {p : ℕ} {e : Event} (hm : ItemsInv m) (hh : InHand p e m) :
    Safe ItemsInv itemRole (fun _ m' => Consumed m m') consume m :=
  consumes_safe hm hh fun _ _ _ _ hi hq hst _ =>
    ⟨⟨⟨hst, .refl _, rfl⟩, .of_eq rfl⟩, hi.consumerMoves hq hst⟩

/-- The item may be the next one. -/
structure Next (x : Event) (m : StreamMem) : Prop where
  order : ∀ a ∈ m.arb.pushed, a.id ≤ x.id ∧ (x.isHole = false → a.id < x.id)
  ahead : Numbered m.shm.ring.consumed x
  fresh : x.isHole = true ∨ m.shm.ring.consumed < x.id

theorem Next.kept {d : Dropping} {x : Event} {m' : StreamMem} (h : Next x m) (hk : Kept d m m') :
    Next x m' := by
  obtain ⟨h1, h2, h3⟩ := h
  constructor
  · rw [hk.arb.pushed]; exact h1
  · rw [hk.shm.consumed]; exact h2
  · rw [hk.shm.consumed]; exact h3

/-- `write_finish` on the arbiter buffer: the item in the slot becomes the newest one. -/
theorem publish_items_safe {p : ℕ} {x : Event} (hm : ItemsInv m) (hp : Queue.WriteSlot p m.arb)
    (hx : Queue.Filled x m.arb) (hn : Next x m) :
    Safe ItemsInv itemRole (fun _ m' => Written x m m') (onArb Queue.writeFinish) m := by
  have hz := Queue.publish_safe (I := ItemsInv) (ρ := itemRole) (L := arbLens) (φ := StreamAcc.arb)
    (p := p) (x := x) (s := m) (fun m' => Writing m m' ∧ ItemsInv m') (fun m' i => i.arb)
    (fun m' m'' hr => hr.arb) ?_ ?_ hm hp hx ⟨⟨.of_eq rfl rfl, fun _ h => h, rfl, rfl, le_rfl⟩, hm⟩
  · exact hz.mono fun _ m' _ ⟨hpu, hw, hwr, _⟩ =>
      ⟨hwr.shm, hwr.avail, hwr.drop, hpu, hw, hwr.capacity, hwr.removed⟩
  · exact fun m' m'' hh hr i => ⟨hh.1.stable hh.2 hr, i⟩
  · rintro l m' q ⟨hwr, -⟩ hi hq hst hpub
    have hnext : Writing m { m' with arb := q } := by
      refine ⟨hwr.shm.trans (.of_eq rfl rfl), hwr.avail, hwr.drop,
        hst.ring.capacity.trans hwr.capacity, ?_⟩
      exact hwr.removed.trans hst.ring.consumed.ge
    have hcs : m'.shm.ring.consumed = m.shm.ring.consumed := hwr.shm.consumed
    have hpub : q.ring.written = m'.arb.ring.written ∧ q.pushed = m'.arb.pushed ∨
      m'.arb.pushed = m.arb.pushed ∧ q.pushed = m.arb.pushed ++ [x] := hpub
    rcases hpub with ⟨-, he⟩ | ⟨hsame, he⟩
    · have i2 := hi.setArb hq hst.elemSize hst.capacity he
      exact ⟨⟨⟨.refl _, hst, rfl⟩, .of_eq he⟩, i2, hnext, i2⟩
    · have i2 : ItemsInv { m' with arb := q } := by
        refine ⟨⟨hi.shm, hq, hi.shmSize, hst.elemSize ▸ hi.arbSize, hi.source, hi.few,
          hst.capacity ▸ hi.threshold⟩, ?_, fun a ha => ?_⟩
        · show q.pushed.Pairwise _
          rw [he, List.pairwise_append]
          refine ⟨hm.ordered, List.pairwise_singleton _ _, fun a ha b hb => ?_⟩
          rw [List.mem_singleton.mp hb]
          exact hn.order a ha
        · have ha : a ∈ q.pushed := ha
          show Numbered m'.shm.ring.consumed a
          rw [hcs]
          rw [he] at ha
          rcases List.mem_append.mp ha with ha | ha
          · exact hm.ahead a ha
          · rw [List.mem_singleton.mp ha]; exact hn.ahead
      refine ⟨⟨⟨.refl _, hst, rfl⟩, [x], ?_, fun a ha => ?_⟩, i2, hnext, i2⟩
      · show q.pushed = m'.arb.pushed ++ [x]
        rw [hsame]; exact he
      · rw [List.mem_singleton.mp ha, hcs]
        exact hn.fresh

/-- The item has been written, or there was no room for it. -/
structure PushedAny (x : Event) (m m' : StreamMem) : Prop where
  shm : ShmKept m m'
  avail : ∀ n, m.shm.ring.Avail n → m'.shm.ring.Avail n
  drop : m'.drop = m.drop
  pushed : m'.arb.pushed = m.arb.pushed ∨ m'.arb.pushed = m.arb.pushed ++ [x]

theorem PushedAny.of_held {x : Event} {m' : StreamMem} (h : Held m.drop m m') : PushedAny x m m' :=
  ⟨h.shm, h.avail, h.drop, .inl h.arb.pushed⟩

/-- `vms_par_queue_push` on the arbiter buffer, whether there is room or not. -/
theorem pushAny_safe {x : Event} (hm : ItemsInv m) (hn : Next x m) :
    Safe ItemsInv itemRole (fun _ m' => PushedAny x m m') (onArb (Queue.push x)) m := by
  unfold onArb Queue.push
  rw [Prog.zoom_bind]
  refine Safe.access_bind fun m1 h1 i1 => ⟨Carries.load ItemsInv _ m1, i1, ?_⟩
  have h1 : Held m.drop m m1 := ForManager.held h1 hm
  have hsize : Slot.size x ≤ m1.arb.elemSize := i1.arbSize
  show Safe _ _ _ ((Prog.ofChk (Chk.require (Slot.size x ≤ m1.arb.elemSize)) >>= _).zoom _ _) m1
  rw [Chk.require_eq hsize, Prog.ofChk_pure, Prog.ret_bind, Prog.zoom_bind]
  refine Safe.bind i1 ((onArb_asks i1 (Queue.writePtr_safe i1.arb)).mono fun r m2 i2 hq => ?_)
  obtain ⟨⟨-, -, hsome, -⟩, h2⟩ := hq
  have h2 : Held m.drop m m2 := h1.drop ▸ h1.trans h2
  cases r with
  | none => exact fun m3 h3 _ => .of_held (h2.drop ▸ h2.trans (ForManager.held h3 i2))
  | some p =>
    show Safe _ _ _ ((Queue.fill p x >>= _).zoom _ _) m2
    rw [Prog.zoom_bind]
    refine Safe.bind i2 ((arbFill_safe i2 (hsome p rfl)).mono fun _ m3 i3 ⟨h3, hp3, hx3⟩ => ?_)
    have h3 : Held m.drop m m3 := h2.drop ▸ h2.trans h3
    rw [Prog.zoom_bind]
    refine Safe.bind i3 ((publish_items_safe i3 hp3 hx3 (hn.kept h3.toKept)).mono
      fun _ m4 i4 hw => fun m5 h5 _ => ?_)
    have hw5 := hw.held (ForManager.held h5 i4) rfl
    exact ⟨h3.shm.trans hw5.shm, fun n hn => hw5.avail n (h3.avail n hn), hw5.drop.trans h3.drop,
      .inr (by rw [hw5.pushed, h3.arb.pushed])⟩

end Manager

end StreamMem

end Vamos
