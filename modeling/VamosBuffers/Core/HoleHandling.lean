import Mathlib.Tactic
import VamosBuffers.Core.ManagerRuns
import VamosBuffers.Schemes.Family

/-! Streams with a hole handling of their own (`vms_create_generic_stream` and
    `vms_create_sregex_stream` take one). It decides what a hole holds:

        first event dropped    init, update        each further one    update

    and the manager writes what has come of it. Whatever the two functions are, a hole is what they
    make of the events that it stands for. -/

namespace Vamos
open Schemes

/-- `vms_stream_hole_handling`. What follows the header of a hole, of whatever size, is its `n`; the
    slots are large enough for it. -/
structure HoleHandling where
  init : Event → Event
  update : Event → Event → Event

namespace HoleHandling

/-- `default_hole_handling`. -/
def default : HoleHandling := ⟨Event.holeInit, fun hole _ => hole.holeUpdate⟩

/-- A hole is made a hole by `init` and stays one. -/
structure Marks (H : HoleHandling) : Prop where
  init : ∀ h, (H.init h).isHole = true
  update : ∀ h e, h.isHole = true → (H.update h e).isHole = true

/-- The hole after these events; `old` is what was in its memory before. -/
def fold (H : HoleHandling) (old : Event) (ds : List Event) : Event := ds.foldl H.update (H.init old)

/-- The hole was made of these events. -/
def Made (H : HoleHandling) (h : Event) (ds : List Event) : Prop :=
  ∃ old id, h = { H.fold old ds with id := id }

variable {H : HoleHandling}

theorem fold_concat (old e : Event) (ds : List Event) :
    H.fold old (ds ++ [e]) = H.update (H.fold old ds) e := by
  simp [fold, List.foldl_append]

theorem Marks.fold (hH : H.Marks) (old : Event) (ds : List Event) : (H.fold old ds).isHole = true := by
  induction ds using List.reverseRecOn with
  | nil => exact hH.init old
  | append_singleton ds e ih =>
    rw [fold_concat]
    exact hH.update _ e ih

end HoleHandling

namespace StreamMem

/-! ### The manager -/

section Defs

variable (H : HoleHandling)

/-- `start_dropping`. -/
def startDroppingBy (e : Event) : StreamProg Unit := do
  set .dropBeginId fun d => { d with dropBeginId := e.id }
  let dropped ← get .droppedNum (·.drop.droppedNum)
  check (dropped = 0)
  set .setDroppedNum fun d => { d with droppedNum := (d.droppedNum + 1) % 2 ^ 64 }
  set .holeEvent fun d => { d with holeEvent := H.init d.holeEvent }
  set .holeEvent fun d => { d with holeEvent := H.update d.holeEvent e }
  let _ ← consume

/-- `continue_dropping`. -/
def continueDroppingBy (e : Event) : StreamProg Unit := do
  set .setDroppedNum fun d => { d with droppedNum := (d.droppedNum + 1) % 2 ^ 64 }
  set .holeEvent fun d => { d with holeEvent := H.update d.holeEvent e }
  let dropped ← get .droppedNum (·.drop.droppedNum)
  if dropped % 10000 = 0 then do
    let beginId ← get .dropBeginId (·.drop.dropBeginId)
    notifyDropped beginId (before e.id)
    let _ ← consume
  else do
    let _ ← consume

/-- `handle_dropping_event`: is the event dropped? -/
def handleDroppingEventBy (e : Event) : StreamProg Bool := do
  let dropped ← get .droppedNum (·.drop.droppedNum)
  if 0 < dropped then do
    let above ← aboveThreshold
    if above then do
      sendDroppedEvent e.id
      pure false
    else do
      continueDroppingBy H e
      pure true
  else do
    let free ← freeSpace
    if free = 0 then do
      startDroppingBy H e
      pure true
    else do
      checkFree
      let dropped ← get .droppedNum (·.drop.droppedNum)
      check (dropped = 0)
      pure false

/-- One turn of the loop of `vms_stream_fetch_dropping_filter`. -/
def fetchDroppingBy (filter : Event → Bool) (lastEvId : ℕ) (w : Spin) : StreamProg ManagerAt := do
  match ← getEvent w with
  | .again w => pure (.fetching lastEvId w)
  | .ended => pure (.streamEnd lastEvId .start)
  | .event p => do
    let e ← onShm (Queue.readSlot p)
    check (e.isHole = false)
    set .lastEventId fun d => { d with lastEventId := (d.lastEventId + 1) % 2 ^ 64 }
    let id ← get .lastEventId (·.drop.lastEventId)
    check (e.id = id)
    if filter e then do
      let dropped ← handleDroppingEventBy H e
      if dropped then pure (.fetching e.id .start)
      else do
        forward p
        pure .top
    else do
      let _ ← consume
      pure (.fetching e.id .start)

/-- `default_buffer_manager_thrd`, a turn of a loop at a time. -/
def managerBodyBy (filter : Event → Bool) : ManagerAt → StreamProg ManagerAt
  | .top => fetchDroppingBy H filter 1 .start
  | .fetching lastEvId w => fetchDroppingBy H filter lastEvId w
  | .streamEnd lastEvId w => handleStreamEnd lastEvId w
  | .exited => pure .exited

end Defs

/-- With the default handling it is the manager that there is. -/
theorem managerBodyBy_default (filter : Event → Bool) (i : ManagerAt) :
    managerBodyBy .default filter i = managerBody filter i := by
  cases i <;> rfl

/-! ### The invariant -/

/-- The items tell of the first events that the filter accepts. -/
structure HoleInv (H : HoleHandling) (f : Event → Bool) (m : StreamMem) : Prop extends StreamOk m where
  items : ∃ E, E <+: m.shm.pushed.filter f ∧ Tells Event.isHole H.Made m.arb.pushed E

section Inv

variable {H : HoleHandling} {f : Event → Bool} {m m' : StreamMem} {q : Queue Event}

/-- The arbiter buffer changes. -/
theorem HoleInv.setArb (h : HoleInv H f m) (hq : Queue.QueueInv q) (he : q.elemSize = m.arb.elemSize)
    (hc : q.capacity = m.arb.capacity)
    (hp : ∃ E, E <+: m.shm.pushed.filter f ∧ Tells Event.isHole H.Made q.pushed E) :
    HoleInv H f { m with arb := q } :=
  ⟨⟨h.shm, hq, h.shmSize, he ▸ h.arbSize, h.source, h.few, hc ▸ h.threshold⟩, hp⟩

/-- The SHM ring changes, and the events in it are numbered. -/
theorem HoleInv.setShm (h : HoleInv H f m) (hq : Queue.QueueInv q) (he : q.elemSize = m.shm.elemSize)
    (hs : ∀ k e, q.pushed[k]? = some e → e.id = k + 1 ∧ e.isHole = false)
    (hw : q.ring.written < 2 ^ 64) (hp : m.shm.pushed <+: q.pushed) :
    HoleInv H f { m with shm := q } := by
  obtain ⟨E, hE, ht⟩ := h.items
  exact ⟨⟨hq, h.arb, he ▸ h.shmSize, h.arbSize, hs, hw, h.threshold⟩, E, hE.trans (hp.filter f), ht⟩

theorem HoleInv.consumerMoves (h : HoleInv H f m) (hq : Queue.QueueInv q)
    (hs : Queue.ConsumerMoves m.shm q) : HoleInv H f { m with shm := q } :=
  h.setShm hq hs.elemSize (by rw [hs.pushed]; exact h.source) (by rw [hs.ring.written]; exact h.few)
    (by rw [hs.pushed])

instance : Carries (HoleInv H f) carryRole where
  ok h := h.toStreamOk
  rely h := h
  load _ _ := ⟨.refl _, .refl _, rfl⟩
  asksArb _ _ _ h hq hst hw := ⟨⟨.refl _, hst, rfl⟩, h.setArb hq hst.elemSize hst.capacity
    (by rw [hst.pushed_eq hw]; exact h.items)⟩
  asksShm _ _ _ h hq hst _ := ⟨⟨hst, .refl _, rfl⟩, h.consumerMoves hq hst⟩
  notify _ h := ⟨⟨.refl _, .refl _, rfl⟩,
    ⟨h.shm, h.arb, h.shmSize, h.arbSize, h.source, h.few, h.threshold⟩, h.items⟩

instance : Supplies (HoleInv H f) where
  ok h := h.toStreamOk
  pushes h hq hst hs hw := h.setShm hq hst.elemSize hs hw hst.pushed_grows
  destroys h := ⟨⟨h.shm, h.arb, h.shmSize, h.arbSize, h.source, h.few, h.threshold⟩, h.items⟩

theorem hole_removes : Removes (HoleInv H f) readerRole where
  queue _ h := ⟨h.arb, h.arbSize⟩
  rely _ _ h := h
  guar _ _ _ h hq hs := ⟨⟨hs, rfl, rfl, rfl⟩, h.setArb hq hs.elemSize hs.capacity
    (by rw [hs.pushed]; exact h.items)⟩
  lenient := trivial

/-! ### Books -/

/-- The events `D` have been dropped since the last item, and the hole in preparation was made of
    them. -/
structure HoleBooks (H : HoleHandling) (f : Event → Bool) (D : List Event) (m : StreamMem) : Prop where
  told : ∃ E, accepted f m = E ++ D ∧ Tells Event.isHole H.Made m.arb.pushed E
  dropped : m.drop.droppedNum = D.length
  hole : D ≠ [] → ∃ old, m.drop.holeEvent = H.fold old D

variable {D : List Event}

theorem HoleBooks.congr (h : HoleBooks H f D m) (ha : accepted f m' = accepted f m)
    (hp : m'.arb.pushed = m.arb.pushed) (hn : m'.drop.droppedNum = m.drop.droppedNum)
    (hh : m'.drop.holeEvent = m.drop.holeEvent) : HoleBooks H f D m' := by
  refine ⟨?_, hn.trans h.dropped, ?_⟩
  · rw [ha, hp]; exact h.told
  · rw [hh]; exact h.hole

theorem HoleBooks.kept (h : HoleBooks H f D m) (hk : Kept m.drop m m') : HoleBooks H f D m' :=
  h.congr hk.shm.accepted hk.arb.pushed (by rw [hk.drop]) (by rw [hk.drop])

theorem HoleBooks.ne_nil (h : HoleBooks H f D m) (h0 : 0 < m.drop.droppedNum) : D ≠ [] := by
  rw [h.dropped] at h0
  exact List.length_pos_iff.mp h0

theorem HoleBooks.eq_nil (h : HoleBooks H f D m) (h0 : m.drop.droppedNum = 0) : D = [] :=
  List.length_eq_zero_iff.mp (h.dropped.symm.trans h0)

theorem HoleBooks.tells (h : HoleBooks H f [] m) :
    Tells Event.isHole H.Made m.arb.pushed (accepted f m) := by
  obtain ⟨E, hE, ht⟩ := h.told
  rw [hE, List.append_nil]
  exact ht

/-- The books with nothing dropped. -/
theorem HoleBooks.balanced (ht : Tells Event.isHole H.Made m.arb.pushed (accepted f m))
    (h0 : m.drop.droppedNum = 0) : HoleBooks H f [] m :=
  ⟨⟨_, (List.append_nil _).symm, ht⟩, h0, fun h => absurd rfl h⟩

/-- The accepted events after one more has been consumed. -/
theorem Consumed.accepted {p : ℕ} {e : Event} (h : Consumed m m') (hh : InHand p e m) :
    accepted f m' = accepted f m ++ [e].filter f := by
  rw [StreamMem.accepted, h.consumed, h.took, hh.take_succ]

theorem accepted_prefix (f : Event → Bool) (m : StreamMem) : accepted f m <+: m.shm.pushed.filter f :=
  (List.take_prefix _ _).filter f

end Inv

/-! ### The manager's calls -/

section Manager

variable {H : HoleHandling} {f : Event → Bool} {m m' : StreamMem} {D : List Event} {p : ℕ} {e : Event}

/-- A store to one of the manager's fields, and what follows it. -/
theorem holeStore_bind {β : Type} {l : StreamAcc} {g : Dropping → Dropping} {k : Unit → StreamProg β}
    {Q : β → StreamMem → Prop} (hm : HoleInv H f m)
    (hg : ∀ d, (g d).dropSpaceThreshold = d.dropSpaceThreshold)
    (h : ∀ m', Held (g m.drop) m m' → HoleInv H f m' → Safe (HoleInv H f) carryRole Q (k ()) m') :
    Safe (HoleInv H f) carryRole Q (set l g >>= k) m := by
  refine Safe.access_bind fun m1 h1 i1 => ?_
  have i2 : HoleInv H f { m1 with drop := g m1.drop } :=
    ⟨⟨i1.shm, i1.arb, i1.shmSize, i1.arbSize, i1.source, i1.few, by rw [hg]; exact i1.threshold⟩,
      i1.items⟩
  refine ⟨⟨.refl _, .refl _, rfl⟩, i2, h _ ?_ i2⟩
  have h1 : ForManager m m1 := h1
  rw [← h1.drop]
  exact (h1.held hm).trans (.store _ m1)

theorem consume_holes_safe (hm : HoleInv H f m) (hh : InHand p e m) :
    Safe (HoleInv H f) carryRole (fun _ m' => Consumed m m') consume m :=
  consumes_safe hm hh fun _ _ _ _ hi hq hst _ => ⟨⟨hst, .refl _, rfl⟩, hi.consumerMoves hq hst⟩

/-- `write_finish` on the arbiter buffer, where the items with the new one tell of something. -/
theorem publish_holes_safe {x : Event} (hm : HoleInv H f m) (hp : Queue.WriteSlot p m.arb)
    (hx : Queue.Filled x m.arb)
    (ht : ∃ E, E <+: m.shm.pushed.filter f ∧ Tells Event.isHole H.Made (m.arb.pushed ++ [x]) E) :
    Safe (HoleInv H f) carryRole (fun _ m' => Written x m m') (onArb Queue.writeFinish) m := by
  refine arbPublish_safe hm hp hx fun l m' q hwr hi hq hst hpub => ⟨⟨.refl _, hst, rfl⟩, ?_⟩
  refine hi.setArb hq hst.elemSize hst.capacity ?_
  rcases hpub with ⟨-, he⟩ | he
  · rw [he]; exact hi.items
  · obtain ⟨E, hE, ht⟩ := ht
    exact ⟨E, hE.trans (hwr.shm.pushed.filter f), by rw [he]; exact ht⟩

/-- The hole has been written; `dropped_num` does not say so yet. -/
structure HolePut (H : HoleHandling) (f : Event → Bool) (m m' : StreamMem) : Prop where
  shm : ShmKept m m'
  avail : ∀ n, m.shm.ring.Avail n → m'.shm.ring.Avail n
  tells : Tells Event.isHole H.Made m'.arb.pushed (accepted f m')
  room : Room 1 m'

theorem HolePut.held {d : Dropping} {m'' : StreamMem} (h : HolePut H f m m') (hh : Held d m' m'') :
    HolePut H f m m'' := by
  refine ⟨h.shm.trans hh.shm, fun n hn => hh.avail n (h.avail n hn), ?_, h.room.kept hh.arb⟩
  rw [hh.arb.pushed, hh.shm.accepted]
  exact h.tells

theorem HolePut.books (h : HolePut H f m m') (h0 : m'.drop.droppedNum = 0) : HoleBooks H f [] m' :=
  .balanced h.tells h0

/-- `push_dropped_event`. -/
theorem pushDroppedEvent_holes {id : ℕ} (hH : H.Marks) (hm : HoleInv H f m) (hb : HoleBooks H f D m)
    (hD : D ≠ []) (ho : Open Event.isHole m.arb.pushed) (hr : Room 2 m) :
    Safe (HoleInv H f) carryRole (fun _ m' => HolePut H f m m') (pushDroppedEvent id) m := by
  obtain ⟨old, hold⟩ := hb.hole hD
  refine get_safe hm fun m1 h1 i1 => Safe.ofChk_bind trivial ?_
  refine holeStore_bind i1 (fun _ => rfl) fun m2 h2 i2 => ?_
  refine get_safe i2 fun m3 h3 i3 => ?_
  rw [h1.drop] at h2
  rw [h2.drop] at h3
  have h13 := (h1.trans h2).trans h3
  -- the hole that is written
  have hx : m3.drop.holeEvent = { H.fold old D with id := id } := by rw [h3.drop, hold]
  have hxh : m3.drop.holeEvent.isHole = true := by
    rw [hx]
    exact hH.fold old D
  have htells : Tells Event.isHole H.Made (m3.arb.pushed ++ [m3.drop.holeEvent]) (accepted f m3) := by
    obtain ⟨E, hE, ht⟩ := hb.told
    rw [h13.arb.pushed, h13.shm.accepted, hE]
    exact ht.run ho hxh hD ⟨old, id, hx⟩
  have hr3 : Room 2 m3 := hr.kept h13.arb
  refine Safe.bind i3 ((arbPushes_safe i3 (hr3.mono (by decide)) fun p m' hk hi hp hx' => ?_).mono
    fun _ m4 i4 ⟨_, h4⟩ => ?_)
  · refine publish_holes_safe hi hp hx' ⟨accepted f m', accepted_prefix f m', ?_⟩
    rw [hk.arb.pushed, hk.shm.accepted]
    exact htells
  have hput : HolePut H f m m4 := by
    refine ⟨h13.shm.trans h4.shm, fun n hn => h4.avail n (h13.avail n hn), ?_, h4.room hr3⟩
    rw [h4.pushed, h4.shm.accepted]
    exact htells
  refine holeStore_bind i4 (fun _ => rfl) fun m5 h5 i5 => ?_
  refine get_safe i5 fun m6 h6 i6 => ?_
  have hput6 := (hput.held h5).held h6
  refine Safe.bind i6 ((notifyDropped_safe i6).mono fun _ m7 i7 h7 => ?_)
  have hput7 := hput6.held h7
  exact (checkFree_safe i7 hput7.room).mono fun _ m8 _ h8 => hput7.held h8

/-- `send_dropped_event`: the hole is written and the books are balanced again. -/
theorem sendDroppedEvent_holes (hH : H.Marks) (hm : HoleInv H f m) (hb : HoleBooks H f D m)
    (hD : D ≠ []) (ho : Open Event.isHole m.arb.pushed) (hr : Room 2 m) (hh : InHand p e m) :
    Safe (HoleInv H f) carryRole (fun _ m' => HoleBooks H f [] m' ∧ InHand p e m' ∧ Room 1 m' ∧
      m'.shm.ring.consumed = m.shm.ring.consumed) (sendDroppedEvent e.id) m := by
  refine get_safe hm fun m1 h1 i1 => Safe.ofChk_bind trivial ?_
  have hb1 := hb.kept h1.toKept
  refine Safe.bind i1 ((pushDroppedEvent_holes hH i1 hb1 hD (by rw [h1.arb.pushed]; exact ho)
    (hr.kept h1.arb)).mono fun _ m2 i2 h2 => ?_)
  have hh2 := (hh.held h1).kept h2.shm h2.avail
  refine holeStore_bind i2 (fun _ => rfl) fun m3 h3 i3 => ?_
  have hput3 := h2.held h3
  have hb3 : HoleBooks H f [] m3 := hput3.books (by rw [h3.drop])
  refine (checkFree_safe i3 hput3.room).mono fun _ m4 _ h4 => ?_
  refine ⟨hb3.kept h4.toKept, (hh2.held h3).held h4, hput3.room.kept h4.arb, ?_⟩
  rw [h4.shm.consumed, hput3.shm.consumed, h1.shm.consumed]

/-- One event has been consumed, and nothing written. -/
structure Took (m m' : StreamMem) : Prop where
  arb : m'.arb.pushed = m.arb.pushed
  consumed : m'.shm.ring.consumed = m.shm.ring.consumed + 1

/-- The event in hand, counted and noted in the hole, is consumed. -/
theorem consume_noted_safe {d : Dropping} {m₀ : StreamMem} (hm : HoleInv H f m) (hh : InHand p e m)
    (hf : f e = true) (hb : HoleBooks H f D m₀) (hk : Kept d m₀ m) (hn : d.droppedNum = D.length + 1)
    (hhole : ∃ old, d.holeEvent = H.fold old (D ++ [e])) :
    Safe (HoleInv H f) carryRole (fun _ m' => HoleBooks H f (D ++ [e]) m' ∧ Took m₀ m')
      (do let _ ← consume) m := by
  refine Safe.bind hm ((consume_holes_safe hm hh).mono fun _ m1 i1 h1 => fun m2 h2 _ => ?_)
  have h2 : Held m1.drop m1 m2 := ForManager.held h2 i1
  have hp1 : m1.arb.pushed = m₀.arb.pushed := h1.arb.pushed.trans hk.arb.pushed
  have hb1 : HoleBooks H f (D ++ [e]) m1 := by
    obtain ⟨E, hE, ht⟩ := hb.told
    refine ⟨⟨E, ?_, by rw [hp1]; exact ht⟩, ?_, fun _ => ?_⟩
    · rw [h1.accepted hh, hk.shm.accepted, hE, List.filter_singleton, hf]
      exact List.append_assoc _ _ _
    · rw [h1.drop, hk.drop, hn, List.length_append, List.length_singleton]
    · rw [h1.drop, hk.drop]
      exact hhole
  refine ⟨hb1.kept h2.toKept, h2.arb.pushed.trans hp1, ?_⟩
  rw [h2.shm.consumed, h1.consumed, hk.shm.consumed]

/-- `start_dropping`. -/
theorem startDropping_holes (hm : HoleInv H f m) (hb : HoleBooks H f [] m) (hh : InHand p e m)
    (hf : f e = true) :
    Safe (HoleInv H f) carryRole (fun _ m' => HoleBooks H f [e] m' ∧ Took m m')
      (startDroppingBy H e) m := by
  have h0 : m.drop.droppedNum = 0 := hb.dropped
  refine holeStore_bind hm (fun _ => rfl) fun m1 h1 i1 => ?_
  refine get_safe i1 fun m2 h2 i2 => Safe.ofChk_bind trivial ?_
  refine holeStore_bind i2 (fun _ => rfl) fun m3 h3 i3 => ?_
  refine holeStore_bind i3 (fun _ => rfl) fun m4 h4 i4 => ?_
  refine holeStore_bind i4 (fun _ => rfl) fun m5 h5 i5 => ?_
  have hk := (((h1.trans h2).trans h3).trans h4).trans h5
  rw [h4.drop, h3.drop, h2.drop, h1.drop] at hk
  exact consume_noted_safe i5 (hh.held hk) hf hb hk.toKept (by simp [h0]) ⟨m.drop.holeEvent, rfl⟩

/-- `continue_dropping`. -/
theorem continueDropping_holes (hm : HoleInv H f m) (hb : HoleBooks H f D m) (hD : D ≠ [])
    (hh : InHand p e m) (hf : f e = true) :
    Safe (HoleInv H f) carryRole (fun _ m' => HoleBooks H f (D ++ [e]) m' ∧ Took m m')
      (continueDroppingBy H e) m := by
  have hlen : D.length + 1 < 2 ^ 64 := by
    obtain ⟨E, hE, -⟩ := hb.told
    have h1 := congrArg List.length hE
    have h2 := List.length_filter_le f (m.shm.pushed.take m.shm.ring.consumed)
    have h3 := hh.lt_word hm
    rw [List.length_take] at h2
    rw [List.length_append, accepted] at h1
    omega
  obtain ⟨old, hold⟩ := hb.hole hD
  refine holeStore_bind hm (fun _ => rfl) fun m1 h1 i1 => ?_
  refine holeStore_bind i1 (fun _ => rfl) fun m2 h2 i2 => ?_
  have h12 := h1.trans h2
  rw [h1.drop] at h12
  -- what is left is the consumption
  have hlast : ∀ m3, Held m2.drop m2 m3 → HoleInv H f m3 → Safe (HoleInv H f) carryRole
      (fun _ m' => HoleBooks H f (D ++ [e]) m' ∧ Took m m') (do let _ ← consume) m3 := by
    intro m3 h3 i3
    have hk := h12.trans (h12.drop ▸ h3)
    exact consume_noted_safe i3 (hh.held hk) hf hb hk.toKept
      (by simp only [hb.dropped, Nat.mod_eq_of_lt hlen])
      ⟨old, by rw [HoleHandling.fold_concat, hold]⟩
  refine get_safe i2 fun m3 h3 i3 => ?_
  split
  · refine get_safe i3 fun m4 h4 i4 => ?_
    refine Safe.bind i4 ((notifyDropped_safe i4).mono fun _ m5 i5 h5 => ?_)
    rw [h3.drop] at h4
    rw [h4.drop] at h5
    exact hlast m5 ((h3.trans h4).trans h5) i5
  · exact hlast m3 h3 i3

/-- The events up to the `n`-th have been consumed, and the next one may become the last of `D`. -/
def DroppedBy (H : HoleHandling) (f : Event → Bool) (n : ℕ) (m : StreamMem) : Prop :=
  (∃ D, HoleBooks H f D m ∧ Open Event.isHole m.arb.pushed) ∧ m.shm.ring.consumed = n

/-- There is room for the event in hand, the one after the `n`-th, and nothing is dropped. -/
structure PassedBy (H : HoleHandling) (f : Event → Bool) (p : ℕ) (e : Event) (n : ℕ)
    (m : StreamMem) : Prop where
  books : HoleBooks H f [] m
  hand : InHand p e m
  room : Room 1 m
  consumed : m.shm.ring.consumed = n

variable {n : ℕ}

theorem PassedBy.held (h : PassedBy H f p e n m) (hh : Held m.drop m m') : PassedBy H f p e n m' :=
  ⟨h.books.kept hh.toKept, h.hand.held hh, h.room.kept hh.arb, hh.shm.consumed.trans h.consumed⟩

theorem DroppedBy.kept (h : DroppedBy H f n m) (hk : Kept m.drop m m') : DroppedBy H f n m' := by
  obtain ⟨⟨D, hb, ho⟩, hc⟩ := h
  exact ⟨⟨D, hb.kept hk, by rw [hk.arb.pushed]; exact ho⟩, hk.shm.consumed.trans hc⟩

/-- `handle_dropping_event`. -/
theorem handleDroppingEvent_holes (hH : H.Marks) (hm : HoleInv H f m) (hb : HoleBooks H f D m)
    (ho : Open Event.isHole m.arb.pushed) (hh : InHand p e m) (hf : f e = true) :
    Safe (HoleInv H f) carryRole
      (fun r m' => (r = true → DroppedBy H f (m.shm.ring.consumed + 1) m') ∧
        (r = false → PassedBy H f p e m.shm.ring.consumed m'))
      (handleDroppingEventBy H e) m := by
  refine get_safe hm fun m1 h1 i1 => ?_
  have hb1 := hb.kept h1.toKept
  split
  case isTrue hpos =>
    have hD := hb1.ne_nil hpos
    refine Safe.bind i1 ((aboveThreshold_safe i1).mono fun above m2 i2 hq => ?_)
    obtain ⟨h2, hroom⟩ := hq
    have hb2 := hb1.kept h2.toKept
    have hh2 := (hh.held h1).held h2
    have ho2 : Open Event.isHole m2.arb.pushed := by
      rw [h2.arb.pushed, h1.arb.pushed]
      exact ho
    cases above with
    | true =>
      refine Safe.bind i2 ((sendDroppedEvent_holes hH i2 hb2 hD ho2 (room_two i1 (hroom rfl)) hh2).mono
        fun _ m3 i3 hq m4 h4 _ => ⟨fun h => absurd h (by decide), fun _ => ?_⟩)
      obtain ⟨hb3, hh3, hr3, hc3⟩ := hq
      refine (PassedBy.mk hb3 hh3 hr3 ?_).held (ForManager.held h4 i3)
      rw [hc3, h2.shm.consumed, h1.shm.consumed]
    | false =>
      refine Safe.bind i2 ((continueDropping_holes i2 hb2 hD hh2 hf).mono
        fun _ m3 i3 hq m4 h4 _ => ⟨fun _ => ?_, fun h => absurd h (by decide)⟩)
      obtain ⟨hb3, hp3⟩ := hq
      refine DroppedBy.kept ⟨⟨_, hb3, by rw [hp3.arb]; exact ho2⟩, ?_⟩ (ForManager.held h4 i3).toKept
      rw [hp3.consumed, h2.shm.consumed, h1.shm.consumed]
  case isFalse hpos =>
    obtain rfl := hb1.eq_nil (Nat.eq_zero_of_not_pos hpos)
    refine Safe.bind i1 ((freeSpace_safe i1).mono fun free m2 i2 hq => ?_)
    obtain ⟨h2, hroom, -⟩ := hq
    have hb2 := hb1.kept h2.toKept
    have hh2 := (hh.held h1).held h2
    split
    case isTrue =>
      refine Safe.bind i2 ((startDropping_holes i2 hb2 hh2 hf).mono
        fun _ m3 i3 hq m4 h4 _ => ⟨fun _ => ?_, fun h => absurd h (by decide)⟩)
      obtain ⟨hb3, hp3⟩ := hq
      refine DroppedBy.kept ⟨⟨_, hb3, ?_⟩, ?_⟩ (ForManager.held h4 i3).toKept
      · rw [hp3.arb, h2.arb.pushed, h1.arb.pushed]
        exact ho
      · rw [hp3.consumed, h2.shm.consumed, h1.shm.consumed]
    case isFalse hfree =>
      have hr2 : Room 1 m2 := hroom.mono (Nat.pos_of_ne_zero hfree)
      refine Safe.bind i2 ((checkFree_safe i2 hr2).mono fun _ m3 i3 h3 => ?_)
      refine get_safe i3 fun m4 h4 i4 => ?_
      have hc2 : m2.shm.ring.consumed = m.shm.ring.consumed := h2.shm.consumed.trans h1.shm.consumed
      have hp4 := ((PassedBy.mk hb2 hh2 hr2 hc2).held h3).held h4
      refine Safe.ofChk_bind trivial fun m5 h5 _ => ⟨fun h => absurd h (by decide), fun _ => ?_⟩
      exact hp4.held (ForManager.held h5 i4)

/-- The rest of the manager's loop: the event is written to the arbiter buffer and consumed. -/
theorem forward_holes (hm : HoleInv H f m) (hp : PassedBy H f p e n m) (hf : f e = true) :
    Safe (HoleInv H f) carryRole (fun _ m' => HoleBooks H f [] m' ∧ Open Event.isHole m'.arb.pushed ∧
      m'.shm.ring.consumed = n + 1) (forward p) m := by
  have hhole : e.isHole = false := (hm.source _ _ hp.hand.event).2
  refine Safe.bind hm ((arbWritePtr_safe hm hp.room).mono fun r m1 i1 hq => ?_)
  obtain ⟨h1, out, rfl, hp1⟩ := hq
  refine readSlot_safe i1 (hp.hand.held h1) fun m2 h2 g2 i2 => ?_
  have g2 : ForManager m1 m2 := g2
  refine Safe.bind i2 ((arbFill_safe i2 (hp1.stable g2.arb)).mono fun _ m3 i3 ⟨h3, hp3, hx3⟩ => ?_)
  rw [h1.drop] at h2
  rw [h2.drop] at h3
  have hk3 := (h1.trans h2).trans h3
  have hh3 := hp.hand.held hk3
  have htells : Tells Event.isHole H.Made (m.arb.pushed ++ [e]) (accepted f m ++ [e]) :=
    hp.books.tells.event hhole
  have hacc : accepted f m ++ [e] = (m3.shm.pushed.take (m3.shm.ring.consumed + 1)).filter f := by
    rw [hh3.take_succ, List.filter_singleton, hf, hk3.shm.accepted]
    rfl
  refine Safe.bind i3 ((publish_holes_safe i3 hp3 hx3 ⟨_, (List.take_prefix _ _).filter f, by
    rw [hk3.arb.pushed, ← hacc]; exact htells⟩).mono fun _ m4 i4 h4 => ?_)
  have hh4 := hh3.kept h4.shm h4.avail
  refine Safe.bind i4 ((consume_holes_safe i4 hh4).mono fun _ m5 i5 h5 => fun m6 h6 _ => ?_)
  have h6 : Held m5.drop m5 m6 := ForManager.held h6 i5
  have hp5 : m5.arb.pushed = m.arb.pushed ++ [e] := by rw [h5.arb.pushed, h4.pushed, hk3.arb.pushed]
  have hb5 : HoleBooks H f [] m5 := by
    refine .balanced ?_ ?_
    · rw [hp5, h5.accepted hh4, h4.shm.accepted, hk3.shm.accepted, List.filter_singleton, hf]
      exact htells
    · rw [h5.drop, h4.drop, hk3.drop]
      exact hp.books.dropped
  refine ⟨hb5.kept h6.toKept, ?_, ?_⟩
  · rw [h6.arb.pushed, hp5]
    exact .snoc hhole
  · rw [h6.shm.consumed, h5.consumed, h4.shm.consumed, hk3.shm.consumed, hp.consumed]

/-- What the manager knows between two turns of its loops. -/
def HolesKnown (H : HoleHandling) (f : Event → Bool) : ManagerAt → StreamMem → Prop
  | .top, m => HoleBooks H f [] m ∧ Open Event.isHole m.arb.pushed
  | .fetching _ _, m => ∃ D, HoleBooks H f D m ∧ Open Event.isHole m.arb.pushed
  | .streamEnd _ _, m => ∃ D, HoleBooks H f D m ∧ Drained m ∧ (D ≠ [] → Open Event.isHole m.arb.pushed)
  | .exited, m => HoleBooks H f [] m ∧ Drained m

theorem HolesKnown.kept {i : ManagerAt} (h : HolesKnown H f i m) (hk : Kept m.drop m m') :
    HolesKnown H f i m' := by
  cases i with
  | top => exact ⟨h.1.kept hk, by rw [hk.arb.pushed]; exact h.2⟩
  | fetching last w =>
    obtain ⟨D, hb, ho⟩ := h
    exact ⟨D, hb.kept hk, by rw [hk.arb.pushed]; exact ho⟩
  | streamEnd last w =>
    obtain ⟨D, hb, hd, ho⟩ := h
    exact ⟨D, hb.kept hk, hd.kept hk.shm, by rw [hk.arb.pushed]; exact ho⟩
  | exited => exact ⟨h.1.kept hk, h.2.kept hk.shm⟩

/-! ### Turns

Besides the books: how far a turn of the manager's loops has come. -/

/-- `NULL` from `vms_stream_read_events` means that there was no event when it was called. -/
theorem readEvents_empty (hm : HoleInv H f m) :
    Safe (HoleInv H f) carryRole
      (fun r m' => Kept m.drop m m' ∧ (r = none → m.shm.ring.written ≤ m.shm.ring.consumed))
      readEvents m := by
  have hp := Queue.peek1_safe (N := 0) hm.shm hm.shm.ring.avail_zero
  have ht : Safe Queue.QueueInv (Queue.consumerRole 0)
      (fun r _ => r = none → m.shm.ring.written ≤ m.shm.ring.consumed) Queue.top m.shm :=
    Safe.bind hm.shm (hp.mono fun r q1 _ hr => fun _ _ _ hnone => (hr.2.2.2.1 hnone).2.2)
  exact (onShm_asks hm ht).mono fun r m' _ hq => ⟨hq.2, hq.1⟩

/-- `get_event` that finds the ring empty counts, and does not ask whether the stream is ready, unless
    it has waited long; and it waits on only if the stream had not ended. -/
theorem getEvent_again {w : Spin} (hm : HoleInv H f m) :
    Safe (HoleInv H f) carryRole (fun g _ => ∀ w', g = .again w' → waited 1 w = some w' ∨
      m.destroyed = false ∧ w' = w.tick ∧ w.tick.short sleepTimeThresNs = false) (getEvent w) m := by
  refine Safe.bind hm ((readEvents_empty hm).mono fun r m1 i1 ⟨h1, hnone⟩ => ?_)
  cases r with
  | some p => exact fun _ _ _ => nofun
  | none =>
    dsimp only
    split
    case isTrue ht =>
      split
      case isTrue hs =>
        rintro _ _ _ w' ⟨⟩
        exact .inl (by simp only [waited, ht, hs, if_true])
      case isFalse hs =>
        refine Safe.bind i1 ((isReady_manager_safe i1).mono fun ready m2 i2 ⟨_, _, hno⟩ => ?_)
        cases ready with
        | false => exact fun _ _ _ => nofun
        | true =>
          rintro _ _ _ w' ⟨⟩
          refine .inr ⟨?_, rfl, Bool.eq_false_iff.mpr hs⟩
          by_contra hd
          have hdr : Drained m :=
            ⟨Bool.not_eq_false _ ▸ hd, le_antisymm hm.shm.ring.consumed_le (hnone rfl)⟩
          exact absurd (hno (hdr.kept h1.shm)) (by decide)
    case isFalse ht =>
      rintro _ _ _ w' ⟨⟩
      exact .inl (by simp only [waited, ht, Bool.false_eq_true, if_false])

/-- With enough free space `aboveThreshold` says so. -/
theorem aboveThreshold_room (hm : HoleInv H f m) :
    Safe (HoleInv H f) carryRole
      (fun above _ => Room (m.drop.dropSpaceThreshold + 1) m → above = true) aboveThreshold m := by
  refine get_safe hm fun m1 h1 i1 => Safe.ofChk_bind trivial ?_
  refine Safe.bind i1 ((onArb_asks i1 (Queue.onRing_asks
    (Ringbuf.freeNum_writer_safe m1.arb.ring))).mono fun n m2 i2 ⟨⟨hn, _⟩, _⟩ => ?_)
  intro m3 _ _ hr
  have hr1 := hr.kept h1.arb
  have hle := hn.2.2.2
  unfold Room at hr1
  rw [h1.drop]
  exact decide_eq_true (by omega)

/-- A turn of a fetch, `w` the counters of `get_event`: an event has been consumed, or there was
    none. -/
inductive Fetched (w : Spin) (m : StreamMem) : ManagerAt → StreamMem → Prop
  | top {m' : StreamMem} (h : m'.shm.ring.consumed = m.shm.ring.consumed + 1) : Fetched w m .top m'
  | next {m' : StreamMem} {last : ℕ} (h : m'.shm.ring.consumed = m.shm.ring.consumed + 1) :
      Fetched w m (.fetching last .start) m'
  | again {m' : StreamMem} {last : ℕ} {w' : Spin} (h : m'.shm.ring.consumed = m.shm.ring.consumed)
      (hw : waited 1 w = some w' ∨
        m.destroyed = false ∧ w' = w.tick ∧ w.tick.short sleepTimeThresNs = false) :
      Fetched w m (.fetching last w') m'
  | ended {m' : StreamMem} {last : ℕ} (h : m'.shm.ring.consumed = m.shm.ring.consumed) :
      Fetched w m (.streamEnd last .start) m'

/-- Is the manager in a fetch? -/
def fetches : ManagerAt → Bool
  | .top => true
  | .fetching _ _ => true
  | .streamEnd _ _ => false
  | .exited => false

/-- A turn from the first location to the second. At the end of the stream, free space above the
    threshold lets the hole go, or the manager out. -/
def Turned : ManagerAt → StreamMem → ManagerAt → StreamMem → Prop
  | .top, m, i, m' => Fetched .start m i m'
  | .fetching _ w, m, i, m' => Fetched w m i m'
  | .streamEnd _ _, m, i, m' => fetches i = false ∧ (Room (m.drop.dropSpaceThreshold + 1) m →
      i = .exited ∨ 0 < m.drop.droppedNum ∧ m'.drop.droppedNum = 0)
  | .exited, _, i, _ => i = .exited

theorem Fetched.kept {w : Spin} {m₀ : StreamMem} {i : ManagerAt} (h : Fetched w m₀ i m)
    (hk : Kept m.drop m m') : Fetched w m₀ i m' := by
  have hc := hk.shm.consumed
  cases h with
  | top h => exact .top (hc.trans h)
  | next h => exact .next (hc.trans h)
  | again h hw => exact .again (hc.trans h) hw
  | ended h => exact .ended (hc.trans h)

theorem Turned.kept {i₀ i : ManagerAt} {m₀ : StreamMem} (h : Turned i₀ m₀ i m)
    (hk : Kept m.drop m m') : Turned i₀ m₀ i m' := by
  cases i₀ with
  | top => exact Fetched.kept h hk
  | fetching last w => exact Fetched.kept h hk
  | streamEnd last w =>
    refine ⟨h.1, fun hr => (h.2 hr).imp_right fun hd => ⟨hd.1, ?_⟩⟩
    rw [hk.drop]
    exact hd.2
  | exited => exact h

/-- A turn that began in `m₀` at `i₀` ends. -/
theorem holes_ret {i₀ i : ManagerAt} {m₀ : StreamMem} (hm : HoleInv H f m) (h : HolesKnown H f i m)
    (ht : Turned i₀ m₀ i m) :
    Safe (HoleInv H f) carryRole (fun i m => HolesKnown H f i m ∧ Turned i₀ m₀ i m) (.ret i) m :=
  fun _ hr _ =>
    have hk := (ForManager.held hr hm).toKept
    ⟨h.kept hk, ht.kept hk⟩

/-- One turn of the loop of `vms_stream_fetch_dropping_filter`. -/
theorem fetchDropping_holes {last : ℕ} {w : Spin} (hH : H.Marks) (hm : HoleInv H f m)
    (hb : HoleBooks H f D m) (ho : Open Event.isHole m.arb.pushed) :
    Safe (HoleInv H f) carryRole
      (fun i m' => HolesKnown H f i m' ∧ Turned (.fetching last w) m i m')
      (fetchDroppingBy H f last w) m := by
  refine Safe.bind hm (((getEvent_safe hm).both (getEvent_again hm)).mono
    fun g m1 i1 ⟨⟨h1, hevent, hended⟩, hagain⟩ => ?_)
  have hb1 := hb.kept h1
  have ho1 : Open Event.isHole m1.arb.pushed := by rw [h1.arb.pushed]; exact ho
  cases g with
  | again w' => exact holes_ret i1 ⟨D, hb1, ho1⟩ (.again h1.shm.consumed (hagain w' rfl))
  | ended => exact holes_ret i1 ⟨D, hb1, hended rfl, fun _ => ho1⟩ (.ended h1.shm.consumed)
  | event p =>
    obtain ⟨e, hh1⟩ := hevent p rfl
    refine readSlot_safe i1 hh1 fun m2 h2 _ i2 => Safe.ofChk_bind trivial ?_
    refine holeStore_bind i2 (fun _ => rfl) fun m3 h3 i3 => ?_
    refine get_safe i3 fun m4 h4 i4 => Safe.ofChk_bind trivial ?_
    have h24 := (h2.trans h3).trans h4
    have hh4 := hh1.held h24
    have hc4 : m4.shm.ring.consumed = m.shm.ring.consumed := h24.shm.consumed.trans h1.shm.consumed
    have hb4 : HoleBooks H f D m4 := hb1.congr h24.shm.accepted h24.arb.pushed
      (by rw [h4.drop, h3.drop, h2.drop]) (by rw [h4.drop, h3.drop, h2.drop])
    have ho4 : Open Event.isHole m4.arb.pushed := by rw [h24.arb.pushed]; exact ho1
    cases hf : f e with
    | true =>
      simp only [if_true]
      refine Safe.bind i4 ((handleDroppingEvent_holes hH i4 hb4 ho4 hh4 hf).mono
        fun r m5 i5 ⟨hdrop, hpass⟩ => ?_)
      cases r with
      | true =>
        obtain ⟨hd5, hc5⟩ := hdrop rfl
        exact holes_ret i5 hd5 (.next (by rw [hc5, hc4]))
      | false =>
        refine Safe.bind i5 ((forward_holes i5 (hpass rfl) hf).mono fun _ m6 i6 ⟨hb6, ho6, hc6⟩ => ?_)
        exact holes_ret i6 ⟨hb6, ho6⟩ (.top (by rw [hc6, hc4]))
    | false =>
      refine Safe.bind i4 ((consume_holes_safe i4 hh4).mono fun _ m5 i5 h5 =>
        holes_ret i5 ⟨D, ?_, ?_⟩ (.next (by rw [h5.consumed, hc4])))
      · refine hb4.congr ?_ h5.arb.pushed (by rw [h5.drop]) (by rw [h5.drop])
        rw [h5.accepted hh4, List.filter_singleton, hf]
        exact List.append_nil _
      · rw [h5.arb.pushed]
        exact ho4

/-- One turn of the loop of `handle_stream_end`. -/
theorem handleStreamEnd_holes {last : ℕ} {w : Spin} (hH : H.Marks) (hm : HoleInv H f m)
    (hk : HolesKnown H f (.streamEnd last w) m) :
    Safe (HoleInv H f) carryRole
      (fun i m' => HolesKnown H f i m' ∧ Turned (.streamEnd last w) m i m')
      (handleStreamEnd last w) m := by
  refine get_safe hm fun m1 h1 i1 => ?_
  obtain ⟨D, hb1, hdr1, ho1⟩ := hk.kept h1.toKept
  split
  case isTrue hpos =>
    have hD := hb1.ne_nil hpos
    refine Safe.bind i1 (((aboveThreshold_safe i1).both (aboveThreshold_room i1)).mono
      fun above m2 i2 hq => ?_)
    obtain ⟨⟨h2, hroom⟩, habove⟩ := hq
    have hb2 := hb1.kept h2.toKept
    have ho2 : Open Event.isHole m2.arb.pushed := by rw [h2.arb.pushed]; exact ho1 hD
    have hdr2 := hdr1.kept h2.shm
    cases above with
    | true =>
      refine Safe.bind i2 ((pushDroppedEvent_holes hH i2 hb2 hD ho2 (room_two i1 (hroom rfl))).mono
        fun _ m3 i3 h3 => ?_)
      refine Safe.bind i3 ((checkFree_safe i3 h3.room).mono fun _ m4 i4 h4 => ?_)
      refine holeStore_bind i4 (fun _ => rfl) fun m5 h5 i5 => ?_
      have hput := (h3.held h4).held h5
      refine holes_ret i5
        ⟨[], hput.books (by rw [h5.drop]), hdr2.kept hput.shm, fun h => absurd rfl h⟩ ⟨rfl, fun _ => ?_⟩
      exact .inr ⟨by rw [← h1.drop]; exact hpos, by rw [h5.drop]⟩
    | false =>
      refine get_safe i2 fun m3 h3 i3 => Safe.ofChk_bind trivial (holes_ret i3 ?_ ⟨rfl, fun hr => ?_⟩)
      · exact HolesKnown.kept (i := .streamEnd _ _) ⟨D, hb2, hdr2, fun _ => ho2⟩ h3.toKept
      · exact absurd (habove (by rw [h1.drop]; exact hr.kept h1.arb)) (by decide)
  case isFalse hpos =>
    obtain rfl := hb1.eq_nil (Nat.eq_zero_of_not_pos hpos)
    refine Safe.bind i1 ((isReady_manager_safe i1).mono fun ready m2 i2 hq => ?_)
    have h2 := hq.1
    refine Safe.ofChk_bind trivial (get_safe i2 fun m3 h3 i3 => Safe.ofChk_bind trivial ?_)
    exact holes_ret i3 ⟨(hb1.kept h2).kept h3.toKept, (hdr1.kept h2.shm).kept h3.shm⟩
      ⟨rfl, fun _ => .inl rfl⟩

/-- `default_buffer_manager_thrd`, a turn at a time. -/
theorem managerBody_holes {i : ManagerAt} (hH : H.Marks) (hm : HoleInv H f m)
    (hk : HolesKnown H f i m) :
    Safe (HoleInv H f) carryRole (fun i' m' => HolesKnown H f i' m' ∧ Turned i m i' m')
      (managerBodyBy H f i) m := by
  cases i with
  | top => exact fetchDropping_holes hH hm hk.1 hk.2
  | fetching last w =>
    obtain ⟨D, hb, ho⟩ := hk
    exact fetchDropping_holes hH hm hb ho
  | streamEnd last w => exact handleStreamEnd_holes hH hm hk
  | exited => exact holes_ret hm hk rfl

end Manager

end StreamMem

end Vamos
