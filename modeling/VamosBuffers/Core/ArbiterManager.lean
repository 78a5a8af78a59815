import Mathlib.Tactic
import VamosBuffers.Core.ArbiterBooks

/-! The manager's calls, one triple each, up to one turn of its loops. Between two turns:

    top          the books are balanced
    fetching     the events dropped since the last item are counted, their hole is not written
    streamEnd    so are they here, and the stream has ended
    exited       the books are balanced, and nothing will come -/

namespace Vamos
open Schemes

namespace StreamMem

variable {f : Event → Bool} {strict : Prop} {I : StreamMem → Prop} {ρ : Role StreamMem StreamAcc}

/-! ### Dropping and forwarding -/

/-- An assertion that may fail only where that is passed over. -/
theorem check_safe {β : Type} {q : Prop} [Decidable q] {k : Unit → StreamProg β}
    {Q : β → StreamMem → Prop} {m : StreamMem} (hn : ¬ q → ¬ ∀ e, f e = true)
    (h : Safe (StreamInv f strict) (managerRole f strict) Q (k ()) m) :
    Safe (StreamInv f strict) (managerRole f strict) Q (check q >>= k) m := by
  by_cases hq : q
  · rw [check_eq hq]; exact h
  · have hc : check q = .fault (.ret ()) := by simp [check, Chk.require, hq, Prog.ofChk]
    rw [hc]
    exact ⟨hn hq, h⟩

theorem before_succ {n : ℕ} (hn : n + 1 < 2 ^ 64) : before (n + 1) = n := by
  unfold before
  omega

/-- The threshold is at least 1. -/
theorem room_two [Streams I] {m m' : StreamMem} (hm : I m)
    (h : Room (m.drop.dropSpaceThreshold + 1) m') : Room 2 m' :=
  h.mono (Nat.succ_le_succ (Streams.ok hm).threshold.1)

/-- `send_dropped_event`: the hole is written and the books are balanced again. -/
theorem sendDroppedEvent_safe {D : List Event} {p : ℕ} {e : Event} {m : StreamMem}
    (hm : StreamInv f strict m) (hl : Ledger f strict D m) (hD : D ≠ [])
    (ho : Open Event.isHole m.arb.pushed) (hr : Room 2 m) (hh : InHand p e m) :
    Safe (StreamInv f strict) (managerRole f strict)
      (fun _ m' => Ledger f strict [] m' ∧ InHand p e m' ∧ Room 1 m' ∧
        m'.drop.lastEventId = m.drop.lastEventId ∧ m'.shm.ring.consumed = m.shm.ring.consumed)
      (sendDroppedEvent e.id) m := by
  have hid := hh.id hm
  have hlt := hh.lt_word hm
  refine get_safe hm fun m1 h1 i1 => ?_
  refine check_safe (fun hne hf => hne ?_) ?_
  · rw [h1.drop, hl.begin_eq hm hD hf, hid]
    exact (Nat.mod_eq_of_lt hlt).symm
  have hl1 := hl.kept h1.toKept
  have hbefore : before e.id = m.shm.ring.consumed := by rw [hid, before_succ hlt]
  have hbound : strict → (∀ d ∈ D, d.id ≤ before e.id) ∧ before e.id ≤ m1.shm.ring.consumed := by
    intro _
    rw [hbefore, h1.shm.consumed]
    refine ⟨fun d hd => ?_, le_rfl⟩
    obtain ⟨-, k, hk, -, hdk⟩ := hm.mem_accepted (hl.mem hd)
    omega
  refine Safe.bind i1 ((pushDroppedEvent_safe i1 hl1 hD (by rw [h1.arb.pushed]; exact ho)
    (hr.kept h1.arb) hbound).mono fun _ m2 i2 h2 => ?_)
  have hin2 : InHand p e m2 := (hh.held h1).kept h2.shm h2.avail
  refine setDropped_safe i2 (fun _ => rfl) hin2.busy (fun _ _ => h2.tells) fun m3 h3 i3 => ?_
  have hl3 := h2.books h3.toKept
  refine (checkFree_safe i3 (h2.room.kept h3.arb)).mono fun _ m4 _ h4 => ?_
  refine ⟨hl3.kept h4.toKept, (hin2.held h3).held h4, (h2.room.kept h3.arb).kept h4.arb, ?_, ?_⟩
  · rw [h4.drop, h3.drop]
    exact h2.lastEventId.trans (by rw [h1.drop])
  · rw [h4.shm.consumed, h3.shm.consumed, h2.shm.consumed, h1.shm.consumed]

/-- One event has been dealt with. -/
structure Moved (m m' : StreamMem) : Prop where
  consumed : m'.shm.ring.consumed = m.shm.ring.consumed + 1
  lastEventId : m'.drop.lastEventId = m.drop.lastEventId

/-- The event in hand joins the dropped ones: it is counted, noted in the hole and consumed. -/
theorem consume_dropped_safe {D : List Event} {p : ℕ} {e : Event} {d : Dropping}
    {m₀ m : StreamMem} (hm : StreamInv f strict m) (hh : InHand p e m) (hf : f e = true)
    (hl : Ledger f strict D m₀) (hk : Kept d m₀ m)
    (hd : d = { m₀.drop with dropBeginId := d.dropBeginId, droppedNum := D.length + 1,
                             holeEvent := d.holeEvent })
    (hhole : d.holeEvent.kind = Event.holeKind ∧ d.holeEvent.n = D.length + 1)
    (hbegin : ∀ a ∈ (D ++ [e]).head?, d.dropBeginId = a.id) :
    Safe (StreamInv f strict) (managerRole f strict)
      (fun _ m' => Ledger f strict (D ++ [e]) m' ∧ Moved m₀ m' ∧ m'.arb.pushed = m₀.arb.pushed)
      consume m := by
  have hdn : m.drop.droppedNum = D.length + 1 := by rw [hk.drop, hd]
  refine (consume_safe hm hh fun h0 => absurd (hdn.symm.trans h0) (Nat.succ_ne_zero _)).mono
    fun _ m' i' hc => ?_
  have hpushed : m'.arb.pushed = m₀.arb.pushed := hc.arb.pushed.trans hk.arb.pushed
  have hcons : m'.shm.ring.consumed = m₀.shm.ring.consumed + 1 := by
    rw [hc.consumed, hk.shm.consumed]
  have hacc : accepted f m' = accepted f m₀ ++ [e] := by
    rw [accepted, hc.consumed, hc.took, hh.take_succ, hk.shm.accepted, List.filter_singleton, hf]
    rfl
  obtain ⟨E, hE, ht⟩ := hl.books
  refine ⟨⟨⟨E, ?_, by rw [hpushed]; exact ht⟩, ?_, ?_, ?_, fun _ => ?_, ?_, fun hs a ha => ?_⟩,
    ⟨hcons, by rw [hc.drop, hk.drop, hd]⟩, hpushed⟩
  · rw [hacc, hE, List.append_assoc]
  · rw [hc.drop, hdn, List.length_append]; rfl
  · rw [hc.drop, hk.drop, hd, hpushed]; exact hl.times
  · rw [hc.drop, hk.drop, hd, hpushed]; exact hl.num
  · rw [hc.drop, hk.drop, List.length_append]; exact hhole
  · rw [hc.drop, hk.drop]; exact hbegin
  · rw [hpushed] at ha
    obtain ⟨h1, h2⟩ := hl.below hs a ha
    refine ⟨by omega, fun b hb => ?_⟩
    cases D with
    | nil =>
      obtain rfl : e = b := Option.some.inj hb
      rw [hh.id hm, hk.shm.consumed]
      omega
    | cons b' D' => exact h2 b hb

/-- The same with nothing after it. -/
theorem discard_safe {D : List Event} {m₀ m : StreamMem} (hm : StreamInv f strict m)
    (h : Safe (StreamInv f strict) (managerRole f strict)
      (fun _ m' => Ledger f strict D m' ∧ Moved m₀ m' ∧ m'.arb.pushed = m₀.arb.pushed) consume m) :
    Safe (StreamInv f strict) (managerRole f strict)
      (fun _ m' => Ledger f strict D m' ∧ Moved m₀ m' ∧ m'.arb.pushed = m₀.arb.pushed)
      (do let _ ← consume) m := by
  refine Safe.bind hm (h.mono fun _ m1 i1 hq => fun m2 h2 _ => ?_)
  obtain ⟨hl1, hm1, hp1⟩ := hq
  have hh2 := h2.held i1
  exact ⟨hl1.kept hh2.toKept, ⟨by rw [hh2.shm.consumed, hm1.consumed],
    by rw [hh2.drop, hm1.lastEventId]⟩, hh2.arb.pushed.trans hp1⟩

/-- `start_dropping`. -/
theorem startDropping_safe {p : ℕ} {e : Event} {m : StreamMem} (hm : StreamInv f strict m)
    (hl : Ledger f strict [] m) (hh : InHand p e m) (hf : f e = true) :
    Safe (StreamInv f strict) (managerRole f strict)
      (fun _ m' => Ledger f strict [e] m' ∧ Moved m m' ∧ m'.arb.pushed = m.arb.pushed)
      (startDropping e) m := by
  have h0 : m.drop.droppedNum = 0 := hl.dropped
  refine set_safe hm (fun _ => rfl) (fun _ => rfl) fun m1 h1 i1 => ?_
  refine get_safe i1 fun m2 h2 i2 => ?_
  rw [h1.drop] at h2
  rw [check_eq (by rw [h2.drop]; exact h0), Prog.ret_bind]
  refine setDropped_safe i2 (fun _ => rfl) ((hh.held h1).held h2).busy (fun hz => ?_)
    fun m3 h3 i3 => ?_
  · rw [h2.drop] at hz
    exact absurd hz (by simp [h0])
  refine set_safe i3 (fun _ => rfl) (fun _ => rfl) fun m4 h4 i4 => ?_
  refine set_safe i4 (fun _ => rfl) (fun _ => rfl) fun m5 h5 i5 => ?_
  have hk := (((h1.trans h2).trans h3).trans h4).trans h5
  rw [h4.drop, h3.drop, h2.drop] at hk
  have hs := consume_dropped_safe i5 (hh.held hk) hf hl hk.toKept (by simp [h0])
    ⟨rfl, rfl⟩ fun a ha => by
      obtain rfl : e = a := Option.some.inj ha
      rfl
  exact discard_safe i5 hs

/-- `continue_dropping`. -/
theorem continueDropping_safe {D : List Event} {p : ℕ} {e : Event} {m : StreamMem}
    (hm : StreamInv f strict m) (hl : Ledger f strict D m) (hD : D ≠ []) (hh : InHand p e m)
    (hf : f e = true) :
    Safe (StreamInv f strict) (managerRole f strict)
      (fun _ m' => Ledger f strict (D ++ [e]) m' ∧ Moved m m' ∧ m'.arb.pushed = m.arb.pushed)
      (continueDropping e) m := by
  have hlen : D.length + 1 < 2 ^ 64 := by
    obtain ⟨E, hE, -⟩ := hl.books
    have h1 := congrArg List.length hE
    have h2 := List.length_filter_le f (m.shm.pushed.take m.shm.ring.consumed)
    have h3 := hh.lt_word hm
    rw [List.length_take] at h2
    rw [List.length_append, accepted] at h1
    omega
  have hmod : (D.length + 1) % 2 ^ 64 = D.length + 1 := Nat.mod_eq_of_lt hlen
  obtain ⟨hkind, hn⟩ := hl.hole hD
  refine setDropped_safe hm (fun _ => rfl) hh.busy (fun hz => ?_) fun m1 h1 i1 => ?_
  · have hz' : (m.drop.droppedNum + 1) % 2 ^ 64 = 0 := hz
    rw [hl.dropped, hmod] at hz'
    exact absurd hz' (Nat.succ_ne_zero _)
  refine set_safe i1 (fun _ => rfl) (fun _ => rfl) fun m2 h2 i2 => ?_
  have hk := h1.trans h2
  rw [h1.drop] at hk
  -- what is left is the consumption, from any state in which the books are as they are now
  have hlast : ∀ m3, Held m2.drop m2 m3 → StreamInv f strict m3 →
      Safe (StreamInv f strict) (managerRole f strict)
        (fun _ m' => Ledger f strict (D ++ [e]) m' ∧ Moved m m' ∧ m'.arb.pushed = m.arb.pushed)
        (do let _ ← consume) m3 := by
    intro m3 h3 i3
    rw [hk.drop] at h3
    have hk3 := hk.trans h3
    have hs := consume_dropped_safe i3 (hh.held hk3) hf hl hk3.toKept
      (by simp only [hl.dropped, hmod])
      ⟨hkind, by simp only [Event.holeUpdate, hn, hmod]⟩ fun a ha => by
        obtain ⟨b, D', rfl⟩ := List.exists_cons_of_ne_nil hD
        exact hl.beginId a ha
    exact discard_safe i3 hs
  refine get_safe i2 fun m3 h3 i3 => ?_
  split
  · refine get_safe i3 fun m4 h4 i4 => ?_
    refine Safe.bind i4 ((notifyDropped_safe i4).mono fun _ m5 i5 h5 => ?_)
    rw [h3.drop] at h4
    rw [h4.drop] at h5
    exact hlast m5 ((h3.trans h4).trans h5) i5
  · exact hlast m3 h3 i3

/-- The books after an accepted event has been written and consumed. -/
theorem Ledger.forwarded {e : Event} {m m' : StreamMem} (h : Ledger f strict [] m)
    (hhole : e.isHole = false) (hp : m'.arb.pushed = m.arb.pushed ++ [e])
    (htells : ItemsTell strict m'.arb.pushed (accepted f m')) (hd : m'.drop = m.drop)
    (hid : e.id = m.shm.ring.consumed + 1)
    (hc : m'.shm.ring.consumed = m.shm.ring.consumed + 1) : Ledger f strict [] m' := by
  have hholes : m'.arb.pushed.filter Event.isHole = m.arb.pushed.filter Event.isHole := by
    rw [hp, List.filter_append, List.filter_singleton, hhole]
    exact List.append_nil _
  refine ⟨⟨_, (List.append_nil _).symm, htells⟩, ?_, ?_, ?_, fun h => absurd rfl h, nofun,
    fun hs a ha => ⟨?_, nofun⟩⟩
  · rw [hd]; exact h.dropped
  · rw [hd, hholes]; exact h.times
  · rw [hd, hholes]; exact h.num
  · rw [hp] at ha
    rcases List.mem_append.mp ha with ha | ha
    · have := (h.below hs a ha).1
      omega
    · rw [List.mem_singleton.mp ha, hid, hc]

/-- The rest of the manager's loop: the event is written to the arbiter buffer and consumed. -/
theorem forward_safe {p : ℕ} {e : Event} {m : StreamMem} (hm : StreamInv f strict m)
    (hl : Ledger f strict [] m) (hh : InHand p e m) (hf : f e = true) (hr : Room 1 m) :
    Safe (StreamInv f strict) (managerRole f strict)
      (fun _ m' => Ledger f strict [] m' ∧ Open Event.isHole m'.arb.pushed ∧ Moved m m')
      (forward p) m := by
  obtain ⟨hid, hhole⟩ := hm.source _ _ hh.event
  refine Safe.bind hm ((arbWritePtr_safe hm hr).mono fun r m1 i1 hq => ?_)
  obtain ⟨h1, out, rfl, hp1⟩ := hq
  have hh1 := hh.held h1
  refine readSlot_safe i1 hh1 fun m2 h2 g2 i2 => ?_
  have hh2 := hh1.held h2
  have hp2 : Queue.WriteSlot out m2.arb := hp1.stable g2.arb
  refine Safe.bind i2 ((arbFill_safe i2 hp2).mono fun _ m3 i3 ⟨h3, hp3, hx3⟩ => ?_)
  rw [h1.drop] at h2
  rw [h2.drop] at h3
  have hk3 := (h1.trans h2).trans h3
  have hh3 := hh.held hk3
  have hl3 := hl.kept hk3.toKept
  have htells : ItemsTell strict (m3.arb.pushed ++ [e])
      ((m3.shm.pushed.take (m3.shm.ring.consumed + 1)).filter f) := by
    rw [hh3.take_succ, List.filter_singleton, hf]
    exact hl3.tells.event hhole
  refine Safe.bind i3 ((arbWriteFinish_safe i3 hp3 hx3 hh3.busy
    ⟨_, (List.take_prefix _ _).filter f, htells⟩ fun hs => ?_).mono fun _ m4 i4 h4 => ?_)
  · rw [List.pairwise_append]
    refine ⟨i3.ids hs, List.pairwise_singleton _ _, fun a ha b hb => ?_⟩
    rw [List.mem_singleton.mp hb, hid]
    have := (hl3.below hs a ha).1
    rw [hk3.shm.consumed] at this
    omega
  have hh4 := hh3.kept h4.shm h4.avail
  have htells4 : ItemsTell strict m4.arb.pushed
      ((m4.shm.pushed.take (m4.shm.ring.consumed + 1)).filter f) := by
    rw [hh4.take_succ, h4.shm.accepted, ← hh3.take_succ, h4.pushed]
    exact htells
  refine Safe.bind i4 ((consume_safe i4 hh4 fun _ => htells4).mono fun _ m5 i5 h5 =>
    fun m6 g6 _ => ?_)
  have hd5 : m5.drop = m.drop := h5.drop.trans (h4.drop.trans hk3.drop)
  have hp5 : m5.arb.pushed = m.arb.pushed ++ [e] := by
    rw [h5.arb.pushed, h4.pushed, hk3.arb.pushed]
  have hc5 : m5.shm.ring.consumed = m.shm.ring.consumed + 1 := by
    rw [h5.consumed, h4.shm.consumed, hk3.shm.consumed]
  have htells5 : ItemsTell strict m5.arb.pushed (accepted f m5) := by
    rw [accepted, h5.consumed, h5.took, h5.arb.pushed]
    exact htells4
  have h6 := g6.held i5
  refine ⟨(hl.forwarded hhole hp5 htells5 hd5 hid hc5).kept h6.toKept, ?_, ?_, ?_⟩
  · rw [h6.arb.pushed, hp5]
    exact .snoc hhole
  · rw [h6.shm.consumed, hc5]
  · rw [h6.drop, hd5]

/-! ### One turn of the manager -/

/-- The event in hand is dropped, and the books say so. -/
def Dropped (f : Event → Bool) (strict : Prop) (m m' : StreamMem) : Prop :=
  ∃ D, D ≠ [] ∧ Ledger f strict D m' ∧ Open Event.isHole m'.arb.pushed ∧ Moved m m'

/-- There is room for the event in hand, and the books are balanced. -/
structure Passed (f : Event → Bool) (strict : Prop) (p : ℕ) (e : Event) (m m' : StreamMem) :
    Prop where
  books : Ledger f strict [] m'
  hand : InHand p e m'
  room : Room 1 m'
  lastEventId : m'.drop.lastEventId = m.drop.lastEventId
  consumed : m'.shm.ring.consumed = m.shm.ring.consumed

theorem Passed.held {p : ℕ} {e : Event} {m m' m'' : StreamMem} (h : Passed f strict p e m m')
    (hh : Held m'.drop m' m'') : Passed f strict p e m m'' :=
  ⟨h.books.kept hh.toKept, h.hand.held hh, h.room.kept hh.arb,
    (congrArg Dropping.lastEventId hh.drop).trans h.lastEventId, hh.shm.consumed.trans h.consumed⟩

theorem Dropped.kept {m m' m'' : StreamMem} (h : Dropped f strict m m') (hk : Kept m'.drop m' m'') :
    Dropped f strict m m'' := by
  obtain ⟨D, hD, hl, ho, hc, hi⟩ := h
  exact ⟨D, hD, hl.kept hk, by rw [hk.arb.pushed]; exact ho, hk.shm.consumed.trans hc,
    (congrArg Dropping.lastEventId hk.drop).trans hi⟩

/-- `handle_dropping_event`. -/
theorem handleDroppingEvent_safe {D : List Event} {p : ℕ} {e : Event} {m : StreamMem}
    (hm : StreamInv f strict m) (hl : Ledger f strict D m) (ho : Open Event.isHole m.arb.pushed)
    (hh : InHand p e m) (hf : f e = true) :
    Safe (StreamInv f strict) (managerRole f strict)
      (fun r m' => (r = true → Dropped f strict m m') ∧ (r = false → Passed f strict p e m m'))
      (handleDroppingEvent e) m := by
  refine get_safe hm fun m1 h1 i1 => ?_
  have hl1 := hl.kept h1.toKept
  have hh1 := hh.held h1
  have ho1 : Open Event.isHole m1.arb.pushed := by rw [h1.arb.pushed]; exact ho
  -- the state of the call's beginning, seen from a later one
  have pass : ∀ {m' m'' : StreamMem}, Held m.drop m m' → Passed f strict p e m' m'' →
      Passed f strict p e m m'' := fun h hp => ⟨hp.books, hp.hand, hp.room,
        hp.lastEventId.trans (by rw [h.drop]), hp.consumed.trans h.shm.consumed⟩
  have lose : ∀ {m' m'' : StreamMem}, Held m.drop m m' → Dropped f strict m' m'' →
      Dropped f strict m m'' := by
    rintro m' m'' h ⟨D', hD', hl', ho', hc', hi'⟩
    exact ⟨D', hD', hl', ho', by rw [hc', h.shm.consumed], by rw [hi', h.drop]⟩
  split
  case isTrue hpos =>
    have hD := hl1.ne_nil hpos
    refine Safe.bind i1 ((aboveThreshold_safe i1).mono fun above m2 i2 hq => ?_)
    obtain ⟨h2, hroom⟩ := hq
    have h12 : Held m.drop m m2 := h1.drop ▸ h1.trans h2
    have hl2 := hl1.kept h2.toKept
    have ho2 : Open Event.isHole m2.arb.pushed := by rw [h2.arb.pushed]; exact ho1
    cases above with
    | true =>
      refine Safe.bind i2 ((sendDroppedEvent_safe i2 hl2 hD ho2 (room_two i1 (hroom rfl)) (hh1.held h2)).mono
        fun _ m3 i3 ⟨hb, hin, hr, hi, hc⟩ => fun m4 h4 _ => ⟨nofun, fun _ => ?_⟩)
      exact (pass h12 ⟨hb, hin, hr, hi, hc⟩).held (h4.held i3)
    | false =>
      refine Safe.bind i2 ((continueDropping_safe i2 hl2 hD (hh1.held h2) hf).mono
        fun _ m3 i3 ⟨hb, hmv, hp⟩ => fun m4 h4 _ => ⟨fun _ => ?_, nofun⟩)
      have hd3 : Dropped f strict m2 m3 := ⟨_, by simp, hb, by rw [hp]; exact ho2, hmv⟩
      exact (lose h12 hd3).kept (h4.held i3).toKept
  case isFalse hpos =>
    obtain rfl := hl1.eq_nil (Nat.eq_zero_of_not_pos hpos)
    refine Safe.bind i1 ((freeSpace_safe i1).mono fun free m2 i2 ⟨h2, hroom, _⟩ => ?_)
    have h12 : Held m.drop m m2 := h1.drop ▸ h1.trans h2
    have hl2 := hl1.kept h2.toKept
    have ho2 : Open Event.isHole m2.arb.pushed := by rw [h2.arb.pushed]; exact ho1
    split
    case isTrue hfree =>
      refine Safe.bind i2 ((startDropping_safe i2 hl2 (hh1.held h2) hf).mono
        fun _ m3 i3 ⟨hb, hmv, hp⟩ => fun m4 h4 _ => ⟨fun _ => ?_, nofun⟩)
      have hd3 : Dropped f strict m2 m3 := ⟨_, by simp, hb, by rw [hp]; exact ho2, hmv⟩
      exact (lose h12 hd3).kept (h4.held i3).toKept
    case isFalse hfree =>
      have hr2 : Room 1 m2 := by unfold Room at *; omega
      have hp2 : Passed f strict p e m m2 :=
        pass h12 ⟨hl2, hh1.held h2, hr2, rfl, rfl⟩
      refine Safe.bind i2 ((checkFree_safe i2 hr2).mono fun _ m3 i3 h3 => ?_)
      refine get_safe i3 fun m4 h4 i4 => ?_
      have hp4 := (hp2.held h3).held h4
      have h0 : m4.drop.droppedNum = 0 := hp4.books.dropped
      rw [check_eq h0, Prog.ret_bind]
      exact fun m5 h5 _ => ⟨nofun, fun _ => hp4.held (h5.held i4)⟩

theorem Drained.kept {m m' : StreamMem} (h : Drained m) (hs : ShmKept m m') : Drained m' := by
  obtain ⟨hd, hw⟩ := hs.closed h.1
  exact ⟨hd, by rw [hs.consumed, hw]; exact h.2⟩

/-- `is_ready` asked by the manager: the answer is no exactly when nothing is left. -/
theorem isReady_manager_safe [Carries I ρ] {m : StreamMem} (hm : I m) :
    Safe I ρ
      (fun r m' => Kept m.drop m m' ∧ (r = false → Drained m') ∧ (Drained m → r = false))
      isReady m := by
  refine get_safe hm fun m1 h1 i1 => ?_
  cases hd : m1.destroyed with
  | true =>
    simp only [if_true]
    refine Safe.bind i1 ((onShm_asks i1 (Queue.onRing_consumer
      (Ringbuf.size_reader_safe m1.shm.ring))).mono fun n m2 i2 hq => ?_)
    obtain ⟨⟨⟨hw, hn, -⟩, -⟩, h2⟩ := hq
    have hw : m1.shm.ring.written ≤ m1.shm.ring.consumed + n := hw
    have hn : m2.shm.ring.consumed + n ≤ m2.shm.ring.written := hn
    rw [h1.drop] at h2
    have h12 := h1.toKept.trans h2
    intro m3 h3 _
    have h3 := (Carries.held h3 i2).toKept
    rw [h12.drop] at h3
    refine ⟨h12.trans h3, fun hr => ?_, fun hdr => ?_⟩
    · have hn0 : n = 0 := by simpa using hr
      have hc1 := (Streams.ok i1).shm.ring.consumed_le
      have hd1 : Drained m1 := ⟨hd, by omega⟩
      exact (hd1.kept h2.shm).kept h3.shm
    · have hd2 := (hdr.kept h1.shm).kept h2.shm
      have hc2 := hd2.2
      exact decide_eq_false (by omega)
  | false =>
    intro m2 h2 _
    have h2 := Carries.held h2 i1
    rw [h1.drop] at h2
    refine ⟨(h1.trans h2).toKept, nofun, fun hdr => ?_⟩
    exact absurd (hd.symm.trans (hdr.kept h1.shm).1) (by decide)

/-- One turn of the loop of `get_event`. -/
theorem getEvent_safe [Carries I ρ] {w : Spin} {m : StreamMem} (hm : I m) :
    Safe I ρ
      (fun g m' => Kept m.drop m m' ∧ (∀ p, g = Got.event p → ∃ e, InHand p e m') ∧
        (g = Got.ended → Drained m'))
      (getEvent w) m := by
  refine Safe.bind hm ((readEvents_safe hm).mono fun r m1 i1 hq => ?_)
  obtain ⟨h1, hin⟩ := hq
  -- a turn that finds nothing only looks
  have again : ∀ {w' : Spin} {m2 : StreamMem}, Kept m.drop m m2 → I m2 →
      Safe I ρ
        (fun g m' => Kept m.drop m m' ∧ (∀ p, g = Got.event p → ∃ e, InHand p e m') ∧
          (g = Got.ended → Drained m')) (.ret (Got.again w')) m2 :=
    fun h2 i2 m3 h3 _ => ⟨h2.drop ▸ h2.trans (Carries.held h3 i2).toKept, nofun, nofun⟩
  cases r with
  | some p =>
    intro m2 h2 _
    have h2 := Carries.held h2 i1
    obtain ⟨e, he⟩ := hin p rfl
    refine ⟨h1.drop ▸ h1.trans h2.toKept, ?_, nofun⟩
    rintro _ ⟨⟩
    exact ⟨e, he.held h2⟩
  | none =>
    dsimp only
    split
    · split
      · exact again h1 i1
      · refine Safe.bind i1 ((isReady_manager_safe i1).mono fun ready m2 i2 ⟨h2, hdr, _⟩ => ?_)
        rw [h1.drop] at h2
        have h12 := h1.trans h2
        cases ready with
        | true => exact again h12 i2
        | false =>
          intro m3 h3 _
          have h3 := (Carries.held h3 i2).toKept
          rw [h12.drop] at h3
          exact ⟨h12.trans h3, nofun, fun _ => (hdr rfl).kept h3.shm⟩
    · exact again h1 i1

/-- What the manager knows between two turns of its loops. -/
def ManagerKnows (f : Event → Bool) (strict : Prop) : ManagerAt → StreamMem → Prop
  | .top, m => Ledger f strict [] m ∧ Open Event.isHole m.arb.pushed ∧
      m.drop.lastEventId = m.shm.ring.consumed
  | .fetching last _, m => ∃ D, Ledger f strict D m ∧ Open Event.isHole m.arb.pushed ∧
      m.drop.lastEventId = m.shm.ring.consumed ∧ (D ≠ [] → last = m.shm.ring.consumed)
  | .streamEnd last _, m => ∃ D, Ledger f strict D m ∧ Drained m ∧
      (D ≠ [] → Open Event.isHole m.arb.pushed ∧ last = m.shm.ring.consumed)
  | .exited, m => Ledger f strict [] m ∧ Drained m

theorem ManagerKnows.kept {i : ManagerAt} {m m' : StreamMem} (h : ManagerKnows f strict i m)
    (hk : Kept m.drop m m') : ManagerKnows f strict i m' := by
  cases i with
  | top =>
    obtain ⟨hl, ho, hi⟩ := h
    exact ⟨hl.kept hk, by rw [hk.arb.pushed]; exact ho, by rw [hk.drop, hk.shm.consumed]; exact hi⟩
  | fetching last w =>
    obtain ⟨D, hl, ho, hi, hlast⟩ := h
    exact ⟨D, hl.kept hk, by rw [hk.arb.pushed]; exact ho,
      by rw [hk.drop, hk.shm.consumed]; exact hi, by rw [hk.shm.consumed]; exact hlast⟩
  | streamEnd last w =>
    obtain ⟨D, hl, hd, hlast⟩ := h
    exact ⟨D, hl.kept hk, hd.kept hk.shm, by rw [hk.arb.pushed, hk.shm.consumed]; exact hlast⟩
  | exited => exact ⟨h.1.kept hk, h.2.kept hk.shm⟩

/-- A call that ends where the manager knows what it has to. -/
theorem ret_safe {i : ManagerAt} {m : StreamMem} (hm : StreamInv f strict m)
    (h : ManagerKnows f strict i m) :
    Safe (StreamInv f strict) (managerRole f strict) (ManagerKnows f strict) (.ret i) m :=
  fun _ hr _ => h.kept (hr.held hm).toKept

/-- An event that the filter rejects is consumed, and the books stay as they are. -/
theorem reject_safe {D : List Event} {p : ℕ} {e : Event} {m : StreamMem}
    (hm : StreamInv f strict m) (hl : Ledger f strict D m) (hh : InHand p e m) (hf : f e = false) :
    Safe (StreamInv f strict) (managerRole f strict)
      (fun _ m' => Ledger f strict D m' ∧ Moved m m' ∧ m'.arb.pushed = m.arb.pushed)
      consume m := by
  have hacc : (m.shm.pushed.take (m.shm.ring.consumed + 1)).filter f = accepted f m := by
    rw [hh.take_succ, List.filter_singleton, hf]
    exact List.append_nil _
  have hq : m.drop.droppedNum = 0 → ItemsTell strict m.arb.pushed
      ((m.shm.pushed.take (m.shm.ring.consumed + 1)).filter f) := by
    intro h0
    obtain rfl := hl.eq_nil h0
    rw [hacc]
    exact hl.tells
  refine (consume_safe hm hh hq).mono fun _ m' i' hc => ?_
  have hacc' : accepted f m' = accepted f m := by
    rw [← hacc, accepted, hc.consumed, hc.took]
  have hle : m.shm.ring.consumed ≤ m'.shm.ring.consumed := by
    rw [hc.consumed]
    exact Nat.le_succ _
  exact ⟨hl.congr hacc' hc.arb.pushed hle (by rw [hc.drop]), ⟨hc.consumed, by rw [hc.drop]⟩,
    hc.arb.pushed⟩

/-- One turn of the loop of `vms_stream_fetch_dropping_filter`. -/
theorem fetchDropping_safe {D : List Event} {last : ℕ} {w : Spin} {m : StreamMem}
    (hm : StreamInv f strict m) (hl : Ledger f strict D m) (ho : Open Event.isHole m.arb.pushed)
    (hi : m.drop.lastEventId = m.shm.ring.consumed) (hlast : D ≠ [] → last = m.shm.ring.consumed) :
    Safe (StreamInv f strict) (managerRole f strict) (ManagerKnows f strict)
      (fetchDropping f last w) m := by
  refine Safe.bind hm ((getEvent_safe hm).mono fun g m1 i1 hq => ?_)
  obtain ⟨h1, hevent, hended⟩ := hq
  have hk1 : ManagerKnows f strict (.fetching last w) m1 :=
    ManagerKnows.kept (i := .fetching last w) ⟨D, hl, ho, hi, hlast⟩ h1
  obtain ⟨D, hl1, ho1, hi1, hlast1⟩ := hk1
  cases g with
  | again w' => exact ret_safe i1 ⟨D, hl1, ho1, hi1, hlast1⟩
  | ended => exact ret_safe i1 ⟨D, hl1, hended rfl, fun hD => ⟨ho1, hlast1 hD⟩⟩
  | event p =>
    obtain ⟨e, hh1⟩ := hevent p rfl
    refine readSlot_safe i1 hh1 fun m2 h2 _ i2 => ?_
    obtain ⟨hid, hhole⟩ := i2.source _ _ (hh1.held h2).event
    rw [check_eq hhole, Prog.ret_bind]
    refine set_safe i2 (fun _ => rfl) (fun _ => rfl) fun m3 h3 i3 => ?_
    refine get_safe i3 fun m4 h4 i4 => ?_
    rw [h2.drop] at h3
    rw [h3.drop] at h4
    have h14 := (h2.trans h3).trans h4
    have hh4 := hh1.held h14
    have hlt := hh4.lt_word i4
    have hc4 : m4.shm.ring.consumed = m1.shm.ring.consumed := h14.shm.consumed
    have hi4 : m4.drop.lastEventId = m4.shm.ring.consumed + 1 := by
      rw [hc4] at hlt ⊢
      rw [h14.drop]
      show (m1.drop.lastEventId + 1) % 2 ^ 64 = _
      rw [hi1]
      exact Nat.mod_eq_of_lt hlt
    have hid4 : e.id = m4.shm.ring.consumed + 1 := hh4.id i4
    rw [check_eq (hid4.trans hi4.symm), Prog.ret_bind]
    have hl4 : Ledger f strict D m4 :=
      hl1.congr h14.shm.accepted h14.arb.pushed hc4.ge (by rw [h14.drop])
    have ho4 : Open Event.isHole m4.arb.pushed := by rw [h14.arb.pushed]; exact ho1
    cases hf : f e with
    | true =>
      simp only [if_true]
      refine Safe.bind i4 ((handleDroppingEvent_safe i4 hl4 ho4 hh4 hf).mono
        fun r m5 i5 ⟨hdrop, hpass⟩ => ?_)
      cases r with
      | true =>
        obtain ⟨D', hD', hl5, ho5, hmv⟩ := hdrop rfl
        refine ret_safe i5 ⟨D', hl5, ho5, ?_, fun _ => ?_⟩
        · rw [hmv.lastEventId, hi4, hmv.consumed]
        · rw [hid4, hmv.consumed]
      | false =>
        have hp5 := hpass rfl
        refine Safe.bind i5 ((forward_safe i5 hp5.books hp5.hand hf hp5.room).mono
          fun _ m6 i6 ⟨hl6, ho6, hmv⟩ => ret_safe i6 ⟨hl6, ho6, ?_⟩)
        rw [hmv.lastEventId, hp5.lastEventId, hi4, hmv.consumed, hp5.consumed]
    | false =>
      refine Safe.bind i4 ((reject_safe i4 hl4 hh4 hf).mono
        fun _ m5 i5 ⟨hl5, hmv, hp⟩ => ret_safe i5 ⟨D, hl5, by rw [hp]; exact ho4, ?_, fun _ => ?_⟩)
      · rw [hmv.lastEventId, hi4, hmv.consumed]
      · rw [hid4, hmv.consumed]

/-- The id before the last one is high enough for a hole, if the last event was rejected. -/
theorem before_last {D : List Event} {m : StreamMem} (hm : StreamInv f strict m)
    (hl : Ledger f strict D m) (hD : D ≠ [])
    (hrej : ∀ e ∈ m.shm.pushed[m.shm.ring.consumed - 1]?, f e = false) :
    (∀ d ∈ D, d.id ≤ before m.shm.ring.consumed) ∧
      before m.shm.ring.consumed ≤ m.shm.ring.consumed := by
  obtain ⟨n, hn⟩ : ∃ n, m.shm.ring.consumed = n + 1 := by
    obtain ⟨d, hd⟩ := List.exists_mem_of_ne_nil D hD
    obtain ⟨-, k, hk, -⟩ := hm.mem_accepted (hl.mem hd)
    exact ⟨m.shm.ring.consumed - 1, by omega⟩
  have hlt : n + 1 < 2 ^ 64 := by
    have h3 := hm.few
    have h4 := hm.shm.ring.consumed_le
    omega
  rw [hn] at hrej ⊢
  rw [before_succ hlt]
  refine ⟨fun d hd => ?_, Nat.le_succ n⟩
  obtain ⟨hfd, k, hk, hget, hdk⟩ := hm.mem_accepted (hl.mem hd)
  -- the dropped ones are before the last event
  have hne : k ≠ n := by
    rintro rfl
    exact absurd (hfd.symm.trans (hrej d hget)) (by decide)
  omega

/-- One turn of the loop of `handle_stream_end`. The hole has the id before the last one, which may
    be too low. -/
theorem handleStreamEnd_safe {D : List Event} {last : ℕ} {w : Spin} {m : StreamMem}
    (hm : StreamInv f strict m) (hl : Ledger f strict D m) (hdr : Drained m)
    (hlast : D ≠ [] → Open Event.isHole m.arb.pushed ∧ last = m.shm.ring.consumed) :
    Safe (StreamInv f strict) (managerRole f strict) (ManagerKnows f strict)
      (handleStreamEnd last w) m := by
  intro m1 g1 i1 hpre
  refine ⟨.refl m1, i1, ?_⟩
  have h1 := (g1.held hm).toKept
  obtain ⟨D, hl1, hdr1, hlast1⟩ : ManagerKnows f strict (.streamEnd last w) m1 :=
    ManagerKnows.kept (i := .streamEnd last w) ⟨D, hl, hdr, hlast⟩ h1
  show Safe _ _ _ (if 0 < m1.drop.droppedNum then _ else _) m1
  split
  case isTrue hpos =>
    have hD := hl1.ne_nil hpos
    obtain ⟨ho1, rfl⟩ := hlast1 hD
    refine Safe.bind i1 ((aboveThreshold_safe i1).mono fun above m2 i2 ⟨h2, hroom⟩ => ?_)
    have hl2 := hl1.kept h2.toKept
    have hdr2 := hdr1.kept h2.shm
    have ho2 : Open Event.isHole m2.arb.pushed := by rw [h2.arb.pushed]; exact ho1
    cases above with
    | true =>
      have hid : strict → (∀ d ∈ D, d.id ≤ before m1.shm.ring.consumed) ∧
          before m1.shm.ring.consumed ≤ m2.shm.ring.consumed := by
        intro hs
        rw [h2.shm.consumed]
        exact before_last i1 hl1 hD ((hpre hs rfl).resolve_left (Nat.ne_of_gt hpos))
      refine Safe.bind i2 ((pushDroppedEvent_safe i2 hl2 hD ho2 (room_two i1 (hroom rfl)) hid).mono
        fun _ m3 i3 h3 => ?_)
      refine Safe.bind i3 ((checkFree_safe i3 h3.room).mono fun _ m4 i4 h4 => ?_)
      have h4 := h3.held h4
      have hb4 : ¬ Quiet m4 := by
        intro hq
        have h0 : m2.drop.droppedNum = 0 := h4.dropped.symm.trans hq.2
        exact hl2.busy hD ⟨hdr2.2, h0⟩
      refine setDropped_safe i4 (fun _ => rfl) hb4 (fun _ _ => h4.tells) fun m5 h5 i5 => ?_
      exact ret_safe i5 ⟨[], h4.books h5.toKept, (hdr2.kept h4.shm).kept h5.shm,
        fun h => absurd rfl h⟩
    | false =>
      refine get_safe i2 fun m3 h3 i3 => ?_
      have hpos3 : 0 < m3.drop.droppedNum := by rw [h3.drop, h2.drop]; exact hpos
      rw [check_eq hpos3, Prog.ret_bind]
      refine ret_safe i3 (ManagerKnows.kept (i := .streamEnd _ _) ⟨D, hl2, hdr2, fun _ => ⟨ho2, ?_⟩⟩
        h3.toKept)
      rw [h2.shm.consumed]
  case isFalse hpos =>
    obtain rfl := hl1.eq_nil (Nat.eq_zero_of_not_pos hpos)
    refine Safe.bind i1 ((isReady_manager_safe i1).mono fun ready m2 i2 ⟨h2, _, hno⟩ => ?_)
    rw [check_eq (hno hdr1), Prog.ret_bind]
    refine get_safe i2 fun m3 h3 i3 => ?_
    have hl3 := (hl1.kept h2).kept h3.toKept
    have h0 : m3.drop.droppedNum = 0 := hl3.dropped
    rw [check_eq h0, Prog.ret_bind]
    exact ret_safe i3 ⟨hl3, (hdr1.kept h2.shm).kept h3.shm⟩

/-- `default_buffer_manager_thrd`, a turn at a time. -/
theorem managerBody_safe {i : ManagerAt} {m : StreamMem} (hm : StreamInv f strict m)
    (hk : ManagerKnows f strict i m) :
    Safe (StreamInv f strict) (managerRole f strict) (ManagerKnows f strict) (managerBody f i) m := by
  cases i with
  | top => exact fetchDropping_safe hm hk.1 hk.2.1 hk.2.2 fun h => absurd rfl h
  | fetching last w =>
    obtain ⟨D, hl, ho, hi, hlast⟩ := hk
    exact fetchDropping_safe hm hl ho hi hlast
  | streamEnd last w =>
    obtain ⟨D, hl, hdr, hlast⟩ := hk
    exact handleStreamEnd_safe hm hl hdr hlast
  | exited => exact ret_safe hm hk

end StreamMem

end Vamos
