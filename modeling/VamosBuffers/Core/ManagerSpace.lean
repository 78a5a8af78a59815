import Mathlib.Tactic
import VamosBuffers.Core.ManagerSteps

/-! Free space in the arbiter buffer, and the holes. Dropping starts only when the buffer is full, and
    ends only when more than `t` places are free, `t` the threshold:

        hole at i      i + 1 + t below the end of the free space, and that end only moves on
        full           the items reach that end: at least `t` of them after each hole
        next hole      not before, and nothing is written while events are dropped

    So after the hole there is room for an event, and between two holes there are `t` events. -/

namespace Vamos
open Schemes

namespace StreamMem

/-! ### Holes -/

/-- Two holes are more than `t` places apart. -/
def Spaced (t : ℕ) (items : List Event) : Prop :=
  ∀ i j a b, i < j → items[i]? = some a → items[j]? = some b → a.isHole = true → b.isHole = true →
    i + t < j

/-- At least `t` items follow each hole. -/
def Clear (t : ℕ) (items : List Event) : Prop :=
  ∀ i a, items[i]? = some a → a.isHole = true → i + t < items.length

/-- One item more; if it is a hole, it is far enough from the others. -/
theorem Spaced.snoc {t : ℕ} {items : List Event} {x : Event} (h : Spaced t items)
    (hx : x.isHole = true → Clear t items) : Spaced t (items ++ [x]) := by
  intro i j a b hij ha hb hah hbh
  have hj := (List.getElem?_eq_some_iff.mp hb).1
  rw [List.length_append, List.length_singleton] at hj
  have hi : i < items.length := by omega
  rw [List.getElem?_append_left hi] at ha
  rcases Nat.lt_or_ge j items.length with hlt | hge
  · rw [List.getElem?_append_left hlt] at hb
    exact h i j a b hij ha hb hah hbh
  · obtain rfl : j = items.length := by omega
    rw [List.getElem?_append_right le_rfl, Nat.sub_self] at hb
    obtain rfl : x = b := Option.some.inj hb
    exact hx hbh i a ha hah

/-- What lies between two holes. -/
theorem Spaced.between {t : ℕ} {a b c : List Event} {x y : Event}
    (h : Spaced t (a ++ x :: (b ++ y :: c))) (hx : x.isHole = true) (hy : y.isHole = true) :
    t ≤ b.length := by
  have hxa : (a ++ x :: (b ++ y :: c))[a.length]? = some x := by simp
  have hyb : (a ++ x :: (b ++ y :: c))[a.length + (b.length + 1)]? = some y := by
    rw [List.getElem?_append_right (by omega), Nat.add_sub_cancel_left, List.getElem?_cons_succ,
      List.getElem?_append_right le_rfl, Nat.sub_self]
    rfl
  have := h _ _ x y (by omega) hxa hyb hx hy
  omega

/-! ### The invariant -/

structure SpaceInv (t : ℕ) (m : StreamMem) : Prop extends StreamOk m where
  fixed : m.drop.dropSpaceThreshold = t
  spaced : Spaced t m.arb.pushed
  /-- there were `t` free places after each hole, so they are not beyond the end of the free space -/
  spare : ∀ i a, m.arb.pushed[i]? = some a → a.isHole = true →
    i + 1 + t < m.arb.ring.consumed + m.arb.ring.capacity

/-- What the manager may change. -/
structure CarryStep (m m' : StreamMem) : Prop where
  shm : Queue.ConsumerMoves m.shm m'.shm
  arb : Queue.ProducerStep m.arb m'.arb
  destroyed : m'.destroyed = m.destroyed

/-- The manager, past failed assertions. -/
def carryRole : Role StreamMem StreamAcc where
  rely := ForManager
  guar _ := CarryStep
  refl := ForManager.refl
  trans := ForManager.trans
  lenient := True

/-! Its reader relies on what the manager does to the arbiter buffer. -/

theorem arbKnown_refl (m : StreamMem) : Queue.ProducerStep m.arb m.arb := .refl _

theorem arbKnown_trans {m m' m'' : StreamMem} (h : Queue.ProducerStep m.arb m'.arb)
    (h' : Queue.ProducerStep m'.arb m''.arb) : Queue.ProducerStep m.arb m''.arb := h.trans h'

/-- The reader of the arbiter buffer, past failed assertions. -/
def readerRole : Role StreamMem StreamAcc where
  rely m m' := Queue.ProducerStep m.arb m'.arb
  guar _ := ArbiterStep
  refl := arbKnown_refl
  trans := arbKnown_trans
  lenient := True

section Inv

variable {t : ℕ} {m : StreamMem} {q : Queue Event}

/-- A full buffer: there are at least `t` items after each hole. -/
theorem SpaceInv.clear (h : SpaceInv t m) (hr : ¬ Room 1 m) : Clear t m.arb.pushed := by
  intro i a ha hah
  have hs := h.spare i a ha hah
  have hl := h.arb.pushed_length
  unfold Room at hr
  omega

/-- The arbiter buffer changes, and its items are the same. -/
theorem SpaceInv.setArb (h : SpaceInv t m) (hq : Queue.QueueInv q) (he : q.elemSize = m.arb.elemSize)
    (hc : q.capacity = m.arb.capacity) (hp : q.pushed = m.arb.pushed)
    (hr : q.ring.capacity = m.arb.ring.capacity) (hle : m.arb.ring.consumed ≤ q.ring.consumed) :
    SpaceInv t { m with arb := q } := by
  refine ⟨⟨h.shm, hq, h.shmSize, he ▸ h.arbSize, h.source, h.few, hc ▸ h.threshold⟩, h.fixed, ?_,
    fun i a ha hah => ?_⟩
  · show Spaced t q.pushed
    rw [hp]; exact h.spaced
  · have ha : q.pushed[i]? = some a := ha
    rw [hp] at ha
    have := h.spare i a ha hah
    show i + 1 + t < q.ring.consumed + q.ring.capacity
    omega

/-- The SHM ring changes, and the events in it are numbered. -/
theorem SpaceInv.setShm (h : SpaceInv t m) (hq : Queue.QueueInv q) (he : q.elemSize = m.shm.elemSize)
    (hs : ∀ k e, q.pushed[k]? = some e → e.id = k + 1 ∧ e.isHole = false)
    (hw : q.ring.written < 2 ^ 64) : SpaceInv t { m with shm := q } :=
  ⟨⟨hq, h.arb, he ▸ h.shmSize, h.arbSize, hs, hw, h.threshold⟩, h.fixed, h.spaced, h.spare⟩

theorem SpaceInv.consumerMoves (h : SpaceInv t m) (hq : Queue.QueueInv q)
    (hs : Queue.ConsumerMoves m.shm q) : SpaceInv t { m with shm := q } :=
  h.setShm hq hs.elemSize (by rw [hs.pushed]; exact h.source) (by rw [hs.ring.written]; exact h.few)

instance : Carries (SpaceInv t) carryRole where
  ok h := h.toStreamOk
  rely h := h
  load _ _ := ⟨.refl _, .refl _, rfl⟩
  asksArb _ _ _ h hq hst hw := ⟨⟨.refl _, hst, rfl⟩, h.setArb hq hst.elemSize hst.capacity
    (hst.pushed_eq hw) hst.ring.capacity hst.ring.consumed.ge⟩
  asksShm _ _ _ h hq hst _ := ⟨⟨hst, .refl _, rfl⟩, h.consumerMoves hq hst⟩
  notify _ h := ⟨⟨.refl _, .refl _, rfl⟩,
    ⟨h.shm, h.arb, h.shmSize, h.arbSize, h.source, h.few, h.threshold⟩, h.fixed, h.spaced, h.spare⟩

instance : Supplies (SpaceInv t) where
  ok h := h.toStreamOk
  pushes h hq hst hs hw := h.setShm hq hst.elemSize hs hw
  destroys h := ⟨⟨h.shm, h.arb, h.shmSize, h.arbSize, h.source, h.few, h.threshold⟩, h.fixed, h.spaced,
    h.spare⟩

theorem reader_removes : Removes (SpaceInv t) readerRole where
  queue _ h := ⟨h.arb, h.arbSize⟩
  rely _ _ h := h
  guar _ _ _ h hq hs := ⟨⟨hs, rfl, rfl, rfl⟩,
    h.setArb hq hs.elemSize hs.capacity hs.pushed hs.ring.capacity hs.ring.consumed⟩
  lenient := trivial

end Inv

/-! ### The manager's accesses -/

section Manager

variable {t : ℕ} {orderly : Prop} {m : StreamMem}

/-- A store to one of the manager's fields. -/
theorem store_safe {l : StreamAcc} {g : Dropping → Dropping} (hm : SpaceInv t m)
    (hg : ∀ d, (g d).dropSpaceThreshold = d.dropSpaceThreshold) :
    Safe (SpaceInv t) carryRole (fun _ m' => Held (g m.drop) m m') (set l g) m := by
  refine Safe.access fun m1 h1 i1 => ?_
  have i2 : SpaceInv t { m1 with drop := g m1.drop } :=
    ⟨⟨i1.shm, i1.arb, i1.shmSize, i1.arbSize, i1.source, i1.few, by rw [hg]; exact i1.threshold⟩,
      (hg _).trans i1.fixed, i1.spaced, i1.spare⟩
  refine ⟨⟨.refl _, .refl _, rfl⟩, i2, fun m3 h3 _ => ?_⟩
  have h1 : ForManager m m1 := h1
  have h3 : ForManager _ m3 := h3
  rw [← h1.drop]
  exact ((h1.held hm).trans (.store _ m1)).trans (h3.held i2)

/-- A store, and what follows it. -/
theorem store_bind {β : Type} {l : StreamAcc} {g : Dropping → Dropping} {k : Unit → StreamProg β}
    {Q : β → StreamMem → Prop} (hm : SpaceInv t m)
    (hg : ∀ d, (g d).dropSpaceThreshold = d.dropSpaceThreshold)
    (h : ∀ m', Held (g m.drop) m m' → SpaceInv t m' → Safe (SpaceInv t) carryRole Q (k ()) m') :
    Safe (SpaceInv t) carryRole Q (set l g >>= k) m :=
  Safe.bind hm ((store_safe hm hg).mono fun _ m' i' h' => h m' h' i')

/-- The item in the slot becomes the newest one; for a hole there has to be space, before it and
    after it. -/
theorem publish_space_safe {p : ℕ} {x : Event} (hm : SpaceInv t m) (hp : Queue.WriteSlot p m.arb)
    (hx : Queue.Filled x m.arb)
    (hhole : x.isHole = true → Clear t m.arb.pushed ∧ Room (t + 1) m) :
    Safe (SpaceInv t) carryRole (fun _ m' => Written x m m') (onArb Queue.writeFinish) m := by
  refine arbPublish_safe hm hp hx fun l m' q hwr hi hq hst hpub => ⟨⟨.refl _, hst, rfl⟩, ?_⟩
  rcases hpub with ⟨-, he⟩ | he
  · exact hi.setArb hq hst.elemSize hst.capacity he hst.ring.capacity hst.ring.consumed.ge
  · have hcap : q.ring.capacity = m.arb.ring.capacity := hst.ring.capacity.trans hwr.capacity
    have hrem : m.arb.ring.consumed ≤ q.ring.consumed := hwr.removed.trans hst.ring.consumed.ge
    refine ⟨⟨hi.shm, hq, hi.shmSize, hst.elemSize ▸ hi.arbSize, hi.source, hi.few,
      hst.capacity ▸ hi.threshold⟩, hi.fixed, ?_, fun i a ha hah => ?_⟩
    · show Spaced t q.pushed
      rw [he]
      exact hm.spaced.snoc fun h => (hhole h).1
    · have ha : q.pushed[i]? = some a := ha
      show i + 1 + t < q.ring.consumed + q.ring.capacity
      rw [he] at ha
      rcases Nat.lt_or_ge i m.arb.pushed.length with hlt | hge
      · rw [List.getElem?_append_left hlt] at ha
        have := hm.spare i a ha hah
        omega
      · have hi := (List.getElem?_eq_some_iff.mp ha).1
        rw [List.length_append, List.length_singleton] at hi
        obtain rfl : i = m.arb.pushed.length := by omega
        rw [List.getElem?_append_right le_rfl, Nat.sub_self] at ha
        obtain rfl : x = a := Option.some.inj ha
        have hroom := (hhole hah).2
        have hlen := hm.arb.pushed_length
        unfold Room at hroom
        omega

theorem consume_space_safe {p : ℕ} {e : Event} (hm : SpaceInv t m) (hh : InHand p e m) :
    Safe (SpaceInv t) carryRole (fun _ m' => Consumed m m') consume m :=
  consumes_safe hm hh fun _ _ _ _ hi hq hst _ => ⟨⟨hst, .refl _, rfl⟩, hi.consumerMoves hq hst⟩

/-- The hole has been written, and there is room for `t` items. -/
structure Holed (t : ℕ) (m m' : StreamMem) : Prop where
  shm : ShmKept m m'
  avail : ∀ n, m.shm.ring.Avail n → m'.shm.ring.Avail n
  room : Room t m'

/-- The push of `push_dropped_event` succeeds. -/
theorem pushHole_safe {id : ℕ} (hm : SpaceInv t m) (hc : Clear t m.arb.pushed)
    (hr : Room (t + 1) m) :
    Safe (SpaceInv t) carryRole (fun ok m' => ok = true ∧ Holed t m m') (pushHole id) m := by
  refine get_safe hm fun m1 h1 i1 => Safe.ofChk_bind trivial ?_
  refine store_bind i1 (fun _ => rfl) fun m2 h2 i2 => ?_
  refine get_safe i2 fun m3 h3 i3 => ?_
  have h13 := (h1.trans h2).trans h3
  have hr3 : Room (t + 1) m3 := hr.kept h13.arb
  have hpush := arbPushes_safe i3 (hr3.mono (by omega)) fun p m' hk hi hp hx =>
    publish_space_safe (x := m3.drop.holeEvent) hi hp hx fun _ =>
      ⟨by rw [hk.arb.pushed, h13.arb.pushed]; exact hc, hr3.kept hk.arb⟩
  refine hpush.mono fun ok m4 _ ⟨hok, hw⟩ => ⟨hok, h13.shm.trans hw.shm, fun n hn =>
    hw.avail n (h13.avail n hn), hw.room hr3⟩

/-! ### What the manager knows -/

/-- While events are dropped, at least `t` items follow the last hole; and the dropped events are the
    last ones consumed, where `orderly`. -/
structure Steady (orderly : Prop) (t : ℕ) (m : StreamMem) : Prop where
  clear : 0 < m.drop.droppedNum → Clear t m.arb.pushed
  begun : orderly → 0 < m.drop.droppedNum → 1 ≤ m.drop.dropBeginId ∧
    m.drop.droppedNum + m.drop.dropBeginId = m.shm.ring.consumed + 1

theorem Steady.kept {d : Dropping} {m' : StreamMem} (h : Steady orderly t m) (hk : Kept d m m')
    (hn : d.droppedNum = m.drop.droppedNum) (hb : d.dropBeginId = m.drop.dropBeginId) :
    Steady orderly t m' := by
  constructor
  · rw [hk.drop, hk.arb.pushed, hn]; exact h.clear
  · rw [hk.drop, hk.shm.consumed, hn, hb]; exact h.begun

/-- Nothing is being dropped. -/
theorem Steady.of_zero (h : m.drop.droppedNum = 0) : Steady orderly t m :=
  ⟨fun h0 => by omega, fun _ h0 => by omega⟩

/-- The event in hand has the id that `send_dropped_event` expects. -/
theorem Steady.sum {p : ℕ} {e : Event} (h : Steady orderly t m) (hm : SpaceInv t m)
    (hh : InHand p e m) (ho : orderly) (h0 : 0 < m.drop.droppedNum) :
    e.id = (m.drop.droppedNum + m.drop.dropBeginId) % 2 ^ 64 := by
  obtain ⟨-, hsum⟩ := h.begun ho h0
  have hlt := hh.lt_word hm
  rw [hsum, hh.id hm, Nat.mod_eq_of_lt hlt]

/-- What the manager knows at each of its locations. -/
def StepKnows (orderly : Prop) (t : ℕ) : StepAt → StreamMem → Prop
  | .top, m => Steady orderly t m
  | .fetching _ _, m => Steady orderly t m
  | .got p e, m => Steady orderly t m ∧ InHand p e m
  | .sending p e, m => Steady orderly t m ∧ InHand p e m ∧ 0 < m.drop.droppedNum ∧ Room (t + 1) m
  | .sent p _ ok, m => ok = true ∧ Room t m ∧ ∃ e, InHand p e m
  | .fetched p, m => m.drop.droppedNum = 0 ∧ Room 1 m ∧ ∃ e, InHand p e m
  | .slot p out, m => m.drop.droppedNum = 0 ∧ (∃ e, InHand p e m) ∧
      ∃ o, out = some o ∧ Queue.WriteSlot o m.arb
  | .streamEnd _ _, m => Steady orderly t m
  | .endSent _ _ ok, m => ok = true ∧ Room t m
  | .exited, _ => True

theorem StepKnows.stable {i : StepAt} {m' : StreamMem} (h : StepKnows orderly t i m)
    (hm : SpaceInv t m) (hr : ForManager m m') : StepKnows orderly t i m' := by
  have hh := hr.held hm
  have hs : Steady orderly t m → Steady orderly t m' := fun h => h.kept hh.toKept rfl rfl
  have hd : m'.drop.droppedNum = m.drop.droppedNum := by rw [hh.drop]
  have hin : ∀ {p : ℕ}, (∃ e, InHand p e m) → ∃ e, InHand p e m' := fun ⟨e, he⟩ => ⟨e, he.held hh⟩
  cases i with
  | top => exact hs h
  | fetching last w => exact hs h
  | got p e => exact ⟨hs h.1, h.2.held hh⟩
  | sending p e => exact ⟨hs h.1, h.2.1.held hh, hd ▸ h.2.2.1, h.2.2.2.kept hh.arb⟩
  | sent p last ok => exact ⟨h.1, h.2.1.kept hh.arb, hin h.2.2⟩
  | fetched p => exact ⟨hd.trans h.1, h.2.1.kept hh.arb, hin h.2.2⟩
  | slot p out =>
    obtain ⟨h0, he, o, ho, hw⟩ := h
    exact ⟨hd.trans h0, hin he, o, ho, hw.stable hr.arb⟩
  | streamEnd last w => exact hs h
  | endSent last w ok => exact ⟨h.1, h.2.kept hh.arb⟩
  | exited => trivial

theorem step_ret {i : StepAt} (hm : SpaceInv t m) (h : StepKnows orderly t i m) :
    Safe (SpaceInv t) carryRole (StepKnows orderly t) (.ret i) m :=
  fun _ hr _ => h.stable hm hr

/-! ### One step of the manager -/

/-- One turn of the loop of a fetch, up to its filter. -/
theorem nextEvent_safe {last : ℕ} {w : Spin} (hm : SpaceInv t m) (hs : Steady orderly t m) :
    Safe (SpaceInv t) carryRole (StepKnows orderly t) (nextEvent last w) m := by
  refine Safe.bind hm ((getEvent_safe hm).mono fun g m1 i1 hq => ?_)
  obtain ⟨h1, hevent, -⟩ := hq
  have hs1 := hs.kept h1 rfl rfl
  cases g with
  | again w' => exact step_ret i1 hs1
  | ended => exact step_ret i1 hs1
  | event p =>
    obtain ⟨e, hh1⟩ := hevent p rfl
    refine readSlot_safe i1 hh1 fun m2 h2 _ i2 => Safe.ofChk_bind trivial ?_
    refine store_bind i2 (fun _ => rfl) fun m3 h3 i3 => ?_
    refine get_safe i3 fun m4 h4 i4 => Safe.ofChk_bind trivial ?_
    rw [h2.drop] at h3
    rw [h3.drop] at h4
    have h14 := (h2.trans h3).trans h4
    exact step_ret i4 ⟨hs1.kept h14.toKept rfl rfl, hh1.held h14⟩

/-- The event in hand joins the dropped ones. -/
theorem consume_steady_safe {p : ℕ} {e : Event} {m₀ : StreamMem} {d : Dropping}
    (hm : SpaceInv t m) (hh : InHand p e m) (hk : Kept d m₀ m) (hc : Clear t m₀.arb.pushed)
    (hb : orderly → 0 < d.droppedNum → 1 ≤ d.dropBeginId ∧
      d.droppedNum + d.dropBeginId = m₀.shm.ring.consumed + 2) :
    Safe (SpaceInv t) carryRole (fun _ m' => Steady orderly t m') (do let _ ← consume) m := by
  refine Safe.bind hm ((consume_space_safe hm hh).mono fun _ m1 i1 h1 => fun m2 h2 _ => ?_)
  have h2 : ForManager m1 m2 := h2
  have hd : m2.drop = d := h2.drop.trans (h1.drop.trans hk.drop)
  have hp : m2.arb.pushed = m₀.arb.pushed :=
    h2.arb.pushed.trans (h1.arb.pushed.trans hk.arb.pushed)
  have hcs : m2.shm.ring.consumed = m₀.shm.ring.consumed + 1 := by
    rw [h2.shm.ring.consumed, h1.consumed, hk.shm.consumed]
  refine ⟨fun _ => by rw [hp]; exact hc, fun ho h0 => ?_⟩
  rw [hd] at h0 ⊢
  rw [hcs]
  exact hb ho h0

/-- `start_dropping`, when the buffer is full. -/
theorem startDropping_steady_safe {p : ℕ} {e : Event} (hm : SpaceInv t m) (hh : InHand p e m)
    (hc : Clear t m.arb.pushed) (h0 : m.drop.droppedNum = 0) :
    Safe (SpaceInv t) carryRole (fun _ m' => Steady orderly t m') (startDropping e) m := by
  refine store_bind hm (fun _ => rfl) fun m1 h1 i1 => ?_
  refine get_safe i1 fun m2 h2 i2 => Safe.ofChk_bind trivial ?_
  refine store_bind i2 (fun _ => rfl) fun m3 h3 i3 => ?_
  refine store_bind i3 (fun _ => rfl) fun m4 h4 i4 => ?_
  refine store_bind i4 (fun _ => rfl) fun m5 h5 i5 => ?_
  rw [h1.drop] at h2
  rw [h2.drop] at h3
  rw [h3.drop] at h4
  rw [h4.drop] at h5
  have hk := (((h1.trans h2).trans h3).trans h4).trans h5
  refine consume_steady_safe i5 (hh.held hk) hk.toKept hc fun _ _ => ?_
  have hid := hh.id hm
  simp only [h0, hid]
  omega

/-- `continue_dropping`. -/
theorem continueDropping_steady_safe {p : ℕ} {e : Event} (hm : SpaceInv t m) (hh : InHand p e m)
    (hs : Steady orderly t m) (h0 : 0 < m.drop.droppedNum) :
    Safe (SpaceInv t) carryRole (fun _ m' => Steady orderly t m') (continueDropping e) m := by
  have hlast : ∀ d m', Held d m m' → SpaceInv t m' →
      d.droppedNum = (m.drop.droppedNum + 1) % 2 ^ 64 → d.dropBeginId = m.drop.dropBeginId →
      Safe (SpaceInv t) carryRole (fun _ m' => Steady orderly t m') (do let _ ← consume) m' := by
    intro d m' hk i' hdn hdb
    refine consume_steady_safe i' (hh.held hk) hk.toKept (hs.clear h0) fun ho _ => ?_
    obtain ⟨hb, hsum⟩ := hs.begun ho h0
    have hlt := hh.lt_word hm
    rw [hdn, hdb, Nat.mod_eq_of_lt (by omega)]
    exact ⟨hb, by omega⟩
  refine store_bind hm (fun _ => rfl) fun m1 h1 i1 => ?_
  refine store_bind i1 (fun _ => rfl) fun m2 h2 i2 => ?_
  refine get_safe i2 fun m3 h3 i3 => ?_
  rw [h1.drop] at h2
  rw [h2.drop] at h3
  have hk := (h1.trans h2).trans h3
  split
  · refine get_safe i3 fun m4 h4 i4 => ?_
    refine Safe.bind i4 ((notifyDropped_safe i4).mono fun _ m5 i5 h5 => ?_)
    rw [h3.drop] at h4
    rw [h4.drop] at h5
    exact hlast _ m5 ((hk.trans h4).trans h5) i5 rfl rfl
  · exact hlast _ m3 hk i3 rfl rfl

/-- What a verdict says of the space. -/
def Decided (orderly : Prop) (t p : ℕ) (e : Event) : Verdict → StreamMem → Prop
  | .dropped, m => Steady orderly t m
  | .send, m => StepKnows orderly t (.sending p e) m
  | .pass, m => StepKnows orderly t (.fetched p) m

/-- `handle_dropping_event` up to the call of `send_dropped_event`. -/
theorem decideEvent_safe {p : ℕ} {e : Event} (hm : SpaceInv t m) (hh : InHand p e m)
    (hs : Steady orderly t m) :
    Safe (SpaceInv t) carryRole (Decided orderly t p e) (decideEvent e) m := by
  refine get_safe hm fun m1 h1 i1 => ?_
  have hh1 := hh.held h1
  have hs1 := hs.kept h1.toKept rfl rfl
  split
  case isTrue h0 =>
    refine Safe.bind i1 ((aboveThreshold_safe i1).mono fun above m2 i2 hr2 => ?_)
    obtain ⟨h2, hroom⟩ := hr2
    have hs2 := hs1.kept h2.toKept rfl rfl
    have h02 : 0 < m2.drop.droppedNum := by rw [h2.drop]; exact h0
    rw [i1.fixed] at hroom
    cases above with
    | true =>
      have hk : StepKnows orderly t (.sending p e) m2 := ⟨hs2, hh1.held h2, h02, hroom rfl⟩
      exact fun m3 h3 _ => hk.stable i2 h3
    | false =>
      refine Safe.bind i2 ((continueDropping_steady_safe i2 (hh1.held h2) hs2 h02).mono
        fun _ m3 i3 hs3 => fun m4 h4 _ => ?_)
      exact hs3.kept (ForManager.held h4 i3).toKept rfl rfl
  case isFalse h0 =>
    have h0 : m1.drop.droppedNum = 0 := by omega
    refine Safe.bind i1 ((freeSpace_safe i1).mono fun free m2 i2 hr2 => ?_)
    obtain ⟨h2, hfree, hfull⟩ := hr2
    have h02 : m2.drop.droppedNum = 0 := by rw [h2.drop]; exact h0
    split
    case isTrue hz =>
      have hc : Clear t m2.arb.pushed := by
        rw [h2.arb.pushed]
        refine i1.clear fun hr => ?_
        have := hfull hr
        omega
      refine Safe.bind i2 ((startDropping_steady_safe i2 (hh1.held h2) hc h02).mono
        fun _ m3 i3 (hs3 : Steady orderly t m3) => fun m4 h4 _ => ?_)
      exact hs3.kept (ForManager.held h4 i3).toKept rfl rfl
    case isFalse hz =>
      have hr2 : Room 1 m2 := hfree.mono (by omega)
      have hk2 : StepKnows orderly t (.fetched p) m2 := ⟨h02, hr2, e, hh1.held h2⟩
      refine Safe.bind i2 ((checkFree_safe i2 hr2).mono fun _ m3 i3 h3 => ?_)
      refine get_safe i3 fun m4 h4 i4 => Safe.ofChk_bind trivial ?_
      rw [h3.drop] at h4
      have h34 := h3.trans h4
      have hk4 : StepKnows orderly t (.fetched p) m4 :=
        ⟨by rw [h34.drop]; exact h02, hr2.kept h34.arb, e, (hh1.held h2).held h34⟩
      exact fun m5 h5 _ => hk4.stable i4 h5

/-- The rest of a turn of a fetch. An event may be rejected while others are dropped, but not where
    `orderly`. -/
theorem filtered_safe {p : ℕ} {e : Event} {accept : Bool} (hm : SpaceInv t m) (hh : InHand p e m)
    (hs : Steady orderly t m) (ho : orderly → accept = true ∨ m.drop.droppedNum = 0) :
    Safe (SpaceInv t) carryRole (StepKnows orderly t) (filtered p e accept) m := by
  unfold filtered
  cases accept with
  | true =>
    refine Safe.bind hm ((decideEvent_safe hm hh hs).mono fun v m1 i1 hv => ?_)
    cases v with
    | dropped => exact step_ret i1 hv
    | send => exact step_ret i1 hv
    | pass => exact step_ret i1 hv
  | false =>
    refine Safe.bind hm ((consume_space_safe hm hh).mono fun _ m1 i1 h1 => step_ret i1 ?_)
    constructor
    · rw [h1.drop, h1.arb.pushed]; exact hs.clear
    · rw [h1.drop]
      intro hord h0
      rcases ho hord with hacc | hz
      · cases hacc
      · omega

/-- `send_dropped_event` up to the push. -/
theorem sendHole_safe {p : ℕ} {e : Event} (hm : SpaceInv t m)
    (hk : StepKnows orderly t (.sending p e) m) :
    Safe (SpaceInv t) carryRole (fun ok m' => StepKnows orderly t (.sent p e.id ok) m')
      (sendHole e.id) m := by
  obtain ⟨hs, hh, h0, hr⟩ := hk
  refine get_safe hm fun m1 h1 i1 => Safe.ofChk_bind trivial ?_
  have hc : Clear t m1.arb.pushed := by rw [h1.arb.pushed]; exact hs.clear h0
  exact (pushHole_safe i1 hc (hr.kept h1.arb)).mono fun ok m2 _ ⟨hok, h2⟩ =>
    ⟨hok, h2.room, e, (hh.held h1).kept h2.shm h2.avail⟩

/-- What comes after a push leaves the space alone. -/
theorem afterHole_safe {id : ℕ} (hm : SpaceInv t m) (hr : Room 1 m) :
    Safe (SpaceInv t) carryRole (fun _ m' => ∃ d, Held d m m') (afterHole id) m := by
  refine store_bind hm (fun _ => rfl) fun m1 h1 i1 => ?_
  refine get_safe i1 fun m2 h2 i2 => ?_
  refine Safe.bind i2 ((notifyDropped_safe i2).mono fun _ m3 i3 h3 => ?_)
  have h13 := (h1.trans h2).trans h3
  exact (checkFree_safe i3 (hr.kept h13.arb)).mono fun _ m4 _ h4 => ⟨_, h13.trans h4⟩

/-- The rest of `send_dropped_event`. -/
theorem afterSend_safe {p last : ℕ} {ok : Bool} (hm : SpaceInv t m)
    (hk : StepKnows orderly t (.sent p last ok) m) :
    Safe (SpaceInv t) carryRole (fun _ m' => StepKnows orderly t (.fetched p) m')
      (afterSend last) m := by
  obtain ⟨-, hr, e, hh⟩ := hk
  have hr1 : Room 1 m := hr.mono (hm.fixed ▸ hm.threshold.1)
  refine Safe.bind hm ((afterHole_safe hm hr1).mono fun _ m1 i1 ⟨d, h1⟩ => ?_)
  refine store_bind i1 (fun _ => rfl) fun m2 h2 i2 => ?_
  have h12 := h1.trans h2
  refine (checkFree_safe i2 (hr1.kept h12.arb)).mono fun _ m3 _ h3 => ?_
  have h13 := h12.trans h3
  exact ⟨by rw [h3.drop, h2.drop], hr1.kept h13.arb, e, hh.held h13⟩

/-- The event in hand goes into its slot and is consumed. -/
theorem putEvent_safe {p : ℕ} {out : Option ℕ} (hm : SpaceInv t m)
    (hk : StepKnows orderly t (.slot p out) m) :
    Safe (SpaceInv t) carryRole (StepKnows orderly t) (putEvent p out) m := by
  obtain ⟨h0, ⟨e, hh⟩, o, rfl, hw⟩ := hk
  refine readSlot_safe hm hh fun m1 h1 g1 i1 => ?_
  have hw1 : Queue.WriteSlot o m1.arb := hw.stable (Carries.rely (SpaceInv t) g1).arb
  refine Safe.bind i1 ((arbFill_safe i1 hw1).mono fun _ m2 i2 ⟨h2, hw2, hx2⟩ => ?_)
  have hh2 := (hh.held h1).held h2
  have hno : e.isHole = false := (i2.source _ _ hh2.event).2
  refine Safe.bind i2 ((publish_space_safe i2 hw2 hx2 fun hx => ?_).mono fun _ m3 i3 h3 => ?_)
  · rw [hno] at hx
    cases hx
  refine Safe.bind i3 ((consume_space_safe i3 (hh2.kept h3.shm h3.avail)).mono
    fun _ m4 i4 h4 => step_ret i4 (.of_zero ?_))
  rw [h4.drop, h3.drop, h2.drop, h1.drop]
  exact h0

/-- One turn of the loop of `handle_stream_end`, up to the push. -/
theorem endTurn_safe {last : ℕ} {w : Spin} (hm : SpaceInv t m) (hs : Steady orderly t m) :
    Safe (SpaceInv t) carryRole (StepKnows orderly t) (endTurn last w) m := by
  refine get_safe hm fun m1 h1 i1 => ?_
  have hs1 := hs.kept h1.toKept rfl rfl
  split
  case isTrue h0 =>
    refine Safe.bind i1 ((aboveThreshold_safe i1).mono fun above m2 i2 hr2 => ?_)
    obtain ⟨h2, hroom⟩ := hr2
    have hs2 := hs1.kept h2.toKept rfl rfl
    rw [i1.fixed] at hroom
    cases above with
    | true =>
      have hc : Clear t m2.arb.pushed := hs2.clear (by rw [h2.drop]; exact h0)
      exact Safe.bind i2 ((pushHole_safe i2 hc (hroom rfl)).mono fun ok m3 i3 h3 =>
        step_ret i3 ⟨h3.1, h3.2.room⟩)
    | false =>
      refine get_safe i2 fun m3 h3 i3 => Safe.ofChk_bind trivial ?_
      exact step_ret i3 (hs2.kept h3.toKept rfl rfl)
  case isFalse h0 =>
    refine Safe.bind i1 ((isReady_manager_safe i1).mono fun ready m2 i2 _ =>
      Safe.ofChk_bind trivial ?_)
    exact get_safe i2 fun m3 h3 i3 => Safe.ofChk_bind trivial (step_ret i3 trivial)

/-- The rest of that turn. -/
theorem afterEndSend_safe {last : ℕ} (hm : SpaceInv t m) (hr : Room t m) :
    Safe (SpaceInv t) carryRole (fun _ m' => Steady orderly t m') (afterEndSend last) m := by
  have hr1 : Room 1 m := hr.mono (hm.fixed ▸ hm.threshold.1)
  refine Safe.bind hm ((afterHole_safe hm hr1).mono fun _ m1 i1 ⟨d, h1⟩ => ?_)
  refine Safe.bind i1 ((checkFree_safe i1 (hr1.kept h1.arb)).mono fun _ m2 i2 h2 => ?_)
  refine Safe.mono (store_safe i2 ?_) fun _ m3 _ h3 => .of_zero ?_
  · exact fun _ => rfl
  · rw [h3.drop]

/-- The manager, one step at a time. -/
theorem stepBody_safe {i : StepAt} {x : Bool} (hm : SpaceInv t m) (hk : StepKnows orderly t i m)
    (ho : ∀ p e, i = .got p e → orderly → x = true ∨ m.drop.droppedNum = 0) :
    Safe (SpaceInv t) carryRole (StepKnows orderly t) (stepBody i x) m := by
  cases i with
  | top => exact nextEvent_safe hm hk
  | fetching last w => exact nextEvent_safe hm hk
  | got p e => exact filtered_safe hm hk.2 hk.1 (ho p e rfl)
  | sending p e =>
    exact Safe.bind hm ((sendHole_safe hm hk).mono fun ok m1 i1 h1 => step_ret i1 h1)
  | sent p last ok =>
    exact Safe.bind hm ((afterSend_safe hm hk).mono fun _ m1 i1 h1 => step_ret i1 h1)
  | fetched p =>
    obtain ⟨h0, hr, e, hh⟩ := hk
    unfold stepBody
    cases x with
    | true =>
      refine Safe.bind hm ((arbWritePtr_safe hm hr).mono fun out m1 i1 ⟨h1, o, hout, hw⟩ =>
        step_ret i1 ⟨?_, ⟨e, hh.held h1⟩, o, hout, hw⟩)
      rw [h1.drop]; exact h0
    | false =>
      refine Safe.bind hm ((consume_space_safe hm hh).mono fun _ m1 i1 h1 => step_ret i1 (.of_zero ?_))
      rw [h1.drop]; exact h0
  | slot p out => exact putEvent_safe hm hk
  | streamEnd last w => exact endTurn_safe hm hk
  | endSent last w ok =>
    exact Safe.bind hm ((afterEndSend_safe hm hk.2).mono fun _ m1 i1 h1 => step_ret i1 h1)
  | exited => exact step_ret hm trivial

end Manager

end StreamMem

end Vamos
