import Mathlib.Tactic
import VamosBuffers.Core.ManagerReports

/-! The manager's steps, and what they report. While events are dropped the items are older than
    `drop_begin_id`, so the range from there on names no event that was written:

        continue_dropping      [drop_begin_id, consumed]
        send_dropped_event     [drop_begin_id, consumed]        the hole has the id of its end
        handle_stream_end      [drop_begin_id, consumed - 1]    this one may be empty -/

namespace Vamos
open Schemes

namespace StreamMem

variable {m m' : StreamMem}

/-! ### What the manager knows -/

/-- Between two events: what was dropped is younger than what was written. -/
structure Carrying (m : StreamMem) : Prop where
  tidy : Tidy m.info
  below : ∀ x ∈ m.arb.pushed, x.id ≤ m.shm.ring.consumed
  begun : 0 < m.drop.droppedNum → 1 ≤ m.drop.dropBeginId ∧
    m.drop.dropBeginId ≤ m.shm.ring.consumed ∧ ∀ x ∈ m.arb.pushed, x.id < m.drop.dropBeginId
  hole : 0 < m.drop.droppedNum → m.drop.holeEvent.isHole = true

/-- The hole before `last` has been written, if there was room, and its report is due. -/
structure HoleSent (last : ℕ) (m : StreamMem) : Prop where
  tidy : Tidy m.info
  first : 1 ≤ m.drop.dropBeginId ∧ m.drop.dropBeginId ≤ last
  last : last ≤ m.shm.ring.consumed + 1
  below : ∀ x ∈ m.arb.pushed, x.id ≤ m.shm.ring.consumed
  older : ∀ x ∈ m.arb.pushed, x.isHole = false → x.id < m.drop.dropBeginId

/-- `last` is the last event consumed, if events are dropped. -/
def Ends (last : ℕ) (m : StreamMem) : Prop :=
  0 < m.drop.droppedNum → m.drop.dropBeginId ≤ last ∧ last ≤ m.shm.ring.consumed

/-- What the manager knows at each of its locations. -/
def StepReports : StepAt → StreamMem → Prop
  | .top, m => Carrying m ∧ m.drop.droppedNum = 0
  | .fetching last _, m => Carrying m ∧ Ends last m
  | .got p e, m => Carrying m ∧ InHand p e m
  | .sending p e, m => Carrying m ∧ InHand p e m ∧ 0 < m.drop.droppedNum
  | .sent p last _, m => HoleSent last m ∧ m.drop.dropBeginId < last ∧ ∃ e, InHand p e m
  | .fetched p, m => Carrying m ∧ m.drop.droppedNum = 0 ∧ ∃ e, InHand p e m
  | .slot p out, m => Carrying m ∧ m.drop.droppedNum = 0 ∧ (∃ e, InHand p e m) ∧
      ∀ o, out = some o → Queue.WriteSlot o m.arb
  | .streamEnd last _, m => 0 < m.drop.droppedNum → Carrying m ∧ Ends last m
  | .endSent last _ _, m => HoleSent last m
  | .exited, _ => True

/-- What is being dropped is the same. -/
structure SameDropping (d d' : Dropping) : Prop where
  num : 0 < d'.droppedNum → 0 < d.droppedNum
  first : d'.dropBeginId = d.dropBeginId
  hole : d'.holeEvent.isHole = d.holeEvent.isHole

theorem SameDropping.refl (d : Dropping) : SameDropping d d := ⟨id, rfl, rfl⟩

theorem SameDropping.of_eq {d d' : Dropping} (h : d' = d) : SameDropping d d' := h ▸ .refl d'

theorem Carrying.kept {d : Dropping} (h : Carrying m) (hk : Kept d m m') (ht : SameTable m m')
    (hs : SameDropping m.drop d) : Carrying m' := by
  refine ⟨h.tidy.same ht, ?_, ?_, ?_⟩
  · rw [hk.arb.pushed, hk.shm.consumed]; exact h.below
  · rw [hk.drop, hk.arb.pushed, hk.shm.consumed, hs.first]
    exact fun h0 => h.begun (hs.num h0)
  · rw [hk.drop, hs.hole]
    exact fun h0 => h.hole (hs.num h0)

theorem HoleSent.kept {d : Dropping} {last : ℕ} (h : HoleSent last m) (hk : Kept d m m')
    (ht : SameTable m m') (hb : d.dropBeginId = m.drop.dropBeginId) : HoleSent last m' := by
  refine ⟨h.tidy.same ht, ?_, ?_, ?_, ?_⟩
  · rw [hk.drop, hb]; exact h.first
  · rw [hk.shm.consumed]; exact h.last
  · rw [hk.arb.pushed, hk.shm.consumed]; exact h.below
  · rw [hk.arb.pushed, hk.drop, hb]; exact h.older

theorem Ends.kept {d : Dropping} {last : ℕ} (h : Ends last m) (hk : Kept d m m')
    (hs : SameDropping m.drop d) : Ends last m' := by
  unfold Ends
  rw [hk.drop, hk.shm.consumed, hs.first]
  exact fun h0 => h (hs.num h0)

theorem StepReports.stable {i : StepAt} (h : StepReports i m) (hm : ReportInv m)
    (hr : ForReporter m m') : StepReports i m' := by
  have hh := hr.held hm.1
  have hk := hh.toKept
  have hc : Carrying m → Carrying m' := fun h => h.kept hk hr.table (.refl _)
  have hd : m'.drop = m.drop := hh.drop
  have hin : ∀ {p : ℕ}, (∃ e, InHand p e m) → ∃ e, InHand p e m' := fun ⟨e, he⟩ => ⟨e, he.held hh⟩
  cases i with
  | top => exact ⟨hc h.1, hd ▸ h.2⟩
  | fetching last w => exact ⟨hc h.1, h.2.kept hk (.refl _)⟩
  | got p e => exact ⟨hc h.1, h.2.held hh⟩
  | sending p e => exact ⟨hc h.1, h.2.1.held hh, hd ▸ h.2.2⟩
  | sent p last ok => exact ⟨h.1.kept hk hr.table rfl, hd ▸ h.2.1, hin h.2.2⟩
  | fetched p => exact ⟨hc h.1, hd ▸ h.2.1, hin h.2.2⟩
  | slot p out =>
    exact ⟨hc h.1, hd ▸ h.2.1, hin h.2.2.1, fun o ho => (h.2.2.2 o ho).stable hr.arb⟩
  | streamEnd last w =>
    have h : 0 < m.drop.droppedNum → Carrying m ∧ Ends last m := h
    intro h0
    rw [hd] at h0
    exact ⟨hc (h h0).1, (h h0).2.kept hk (.refl _)⟩
  | endSent last w ok => exact HoleSent.kept h hk hr.table rfl
  | exited => trivial

theorem report_ret {i : StepAt} (hm : ReportInv m) (h : StepReports i m) :
    Safe ReportInv droppingRole StepReports (.ret i) m :=
  fun _ hr _ => h.stable hm hr

/-- The event in hand is consumed; events are dropped from before, or this one is the first. -/
theorem Carrying.consumed (h : Carrying m) (ht : SameTable m m')
    (hp : m'.arb.pushed = m.arb.pushed) (hc : m'.shm.ring.consumed = m.shm.ring.consumed + 1)
    (hb : 0 < m'.drop.droppedNum →
      0 < m.drop.droppedNum ∧ m'.drop.dropBeginId = m.drop.dropBeginId ∨
        m'.drop.dropBeginId = m.shm.ring.consumed + 1)
    (hh : 0 < m'.drop.droppedNum → m'.drop.holeEvent.isHole = true) : Carrying m' := by
  refine ⟨h.tidy.same ht, fun x hx => ?_, fun h0 => ?_, hh⟩
  · rw [hp] at hx
    have := h.below x hx
    omega
  · rw [hp, hc]
    rcases hb h0 with ⟨h0, hb⟩ | hb
    · obtain ⟨h1, h2, h3⟩ := h.begun h0
      rw [hb]
      exact ⟨h1, by omega, h3⟩
    · refine ⟨by omega, by omega, fun x hx => ?_⟩
      have := h.below x hx
      omega

/-- And then it is the last one consumed. -/
theorem Carrying.ends {last : ℕ} (h : Carrying m) (hl : last = m.shm.ring.consumed) : Ends last m :=
  fun h0 => ⟨hl ▸ (h.begun h0).2.1, hl.le⟩

/-! ### One step of the manager -/

/-- One turn of the loop of a fetch, up to its filter. -/
theorem nextEvent_reports {last : ℕ} {w : Spin} (hm : ReportInv m) (hc : Carrying m)
    (he : Ends last m) :
    Safe ReportInv droppingRole StepReports (nextEvent last w) m := by
  -- what the queue says of the location that the turn ends at
  have hq : Safe ItemsInv itemRole (fun i m' => ∃ d, Kept d m m' ∧
      SameDropping m.drop d ∧
      (i = .streamEnd last .start ∨ (∃ w, i = .fetching last w) ∨
        ∃ p e, i = .got p e ∧ InHand p e m')) (nextEvent last w) m := by
    refine Safe.bind hm.1 ((getEvent_safe hm.1).mono fun g m1 i1 ⟨h1, hevent, _⟩ => ?_)
    cases g with
    | again w' =>
      exact fun m2 h2 _ => ⟨_, h1.trans (ForManager.held h2 i1).toKept, .of_eq h1.drop,
        .inr (.inl ⟨w', rfl⟩)⟩
    | ended =>
      exact fun m2 h2 _ => ⟨_, h1.trans (ForManager.held h2 i1).toKept, .of_eq h1.drop, .inl rfl⟩
    | event p =>
      obtain ⟨e, hh1⟩ := hevent p rfl
      refine readSlot_safe i1 hh1 fun m2 h2 _ i2 => Safe.ofChk_bind trivial ?_
      refine itemStore_bind i2 (fun _ => rfl) fun m3 h3 i3 => ?_
      refine get_safe i3 fun m4 h4 i4 => Safe.ofChk_bind trivial fun m5 h5 _ => ?_
      have h25 := ((h2.trans h3).trans h4).trans (ForManager.held h5 i4)
      refine ⟨_, h1.trans h25.toKept, ?_, .inr (.inr ⟨p, e, rfl, hh1.held h25⟩)⟩
      rw [h4.drop, h3.drop, h2.drop, h1.drop]
      exact ⟨id, rfl, rfl⟩
  refine (quietly (silent_nextEvent last w) hq).mono fun i m' i' ⟨⟨d, hk, hs, hi⟩, ht⟩ => ?_
  have hc' := hc.kept hk ht hs
  have he' := he.kept hk hs
  rcases hi with rfl | ⟨w, rfl⟩ | ⟨p, e, rfl, hh⟩
  · exact fun _ => ⟨hc', he'⟩
  · exact ⟨hc', he'⟩
  · exact ⟨hc', hh⟩

/-- The event in hand is consumed and nothing is reported. -/
theorem consume_reports {p : ℕ} {e : Event} (hm : ReportInv m) (hh : InHand p e m) :
    Safe ReportInv droppingRole (fun _ m' => Consumed m m' ∧ SameTable m m') consume m :=
  quietly silent_consume (consume_items_safe hm.1 hh)

/-- `start_dropping`. -/
theorem startDropping_reports {p : ℕ} {e : Event} (hm : ReportInv m) (hc : Carrying m)
    (hh : InHand p e m) :
    Safe ReportInv droppingRole (fun _ m' => Carrying m' ∧ e.id = m'.shm.ring.consumed)
      (startDropping e) m := by
  have hid := hh.id hm.1
  have hq : Safe ItemsInv itemRole (fun _ m' => m'.arb.pushed = m.arb.pushed ∧
      m'.shm.ring.consumed = m.shm.ring.consumed + 1 ∧ m'.drop.dropBeginId = e.id ∧
      m'.drop.holeEvent.isHole = true) (startDropping e) m := by
    refine itemStore_bind hm.1 (fun _ => rfl) fun m1 h1 i1 => ?_
    refine get_safe i1 fun m2 h2 i2 => Safe.ofChk_bind trivial ?_
    refine itemStore_bind i2 (fun _ => rfl) fun m3 h3 i3 => ?_
    refine itemStore_bind i3 (fun _ => rfl) fun m4 h4 i4 => ?_
    refine itemStore_bind i4 (fun _ => rfl) fun m5 h5 i5 => ?_
    have hk := (((h1.trans h2).trans h3).trans h4).trans h5
    refine Safe.bind i5 ((consume_items_safe i5 (hh.held hk)).mono fun _ m6 i6 h6 => fun m7 h7 _ => ?_)
    have h7 : Held m6.drop m6 m7 := ForManager.held h7 i6
    refine ⟨?_, ?_, ?_, ?_⟩
    · rw [h7.arb.pushed, h6.arb.pushed, hk.arb.pushed]
    · rw [h7.shm.consumed, h6.consumed, hk.shm.consumed]
    · rw [h7.drop, h6.drop, hk.drop, h4.drop, h3.drop, h2.drop, h1.drop]
    · rw [h7.drop, h6.drop, hk.drop, h4.drop]
      rfl
  refine (quietly (silent_startDropping e) hq).mono fun _ m' _ ⟨⟨hp, hcs, hb, hx⟩, ht⟩ => ?_
  exact ⟨hc.consumed ht hp hcs (fun _ => .inr (hb.trans hid)) fun _ => hx, hid.trans hcs.symm⟩

/-- The id before one that has been consumed, or is in hand. -/
theorem before_eq {n : ℕ} (hm : ItemsInv m) (h1 : 1 ≤ n) (h2 : n ≤ m.shm.ring.consumed + 1) :
    before n = n - 1 := by
  have h3 := hm.few
  have h4 := hm.shm.ring.consumed_le
  unfold before
  omega

/-- `continue_dropping`: the range that it may report ends before the event in hand. -/
theorem continueDropping_reports {p : ℕ} {e : Event} (hm : ReportInv m) (hc : Carrying m)
    (hh : InHand p e m) (h0 : 0 < m.drop.droppedNum) :
    Safe ReportInv droppingRole (fun _ m' => Carrying m' ∧ e.id = m'.shm.ring.consumed)
      (continueDropping e) m := by
  have hid := hh.id hm.1
  have hlt := hh.lt_word hm.1
  obtain ⟨hb1, hb2, hb3⟩ := hc.begun h0
  -- the consumption, from any state in which the table is tidy
  have hlast : ∀ d m1, Held d m m1 → Tidy m1.info → ReportInv m1 →
      d.dropBeginId = m.drop.dropBeginId → d.holeEvent.isHole = true →
      Safe ReportInv droppingRole (fun _ m' => Carrying m' ∧ e.id = m'.shm.ring.consumed)
        (do let _ ← consume) m1 := by
    intro d m1 h1 ht1 i1 hdb hdh
    refine Safe.bind i1 ((consume_reports i1 (hh.held h1)).mono
      fun _ m2 i2 ⟨h2, ht2⟩ => fun m3 h3 _ => ?_)
    have h3 : ForReporter m2 m3 := h3
    have hh3 := h3.held i2.1
    have hp : m3.arb.pushed = m.arb.pushed := by rw [hh3.arb.pushed, h2.arb.pushed, h1.arb.pushed]
    have hcs : m3.shm.ring.consumed = m.shm.ring.consumed + 1 := by
      rw [hh3.shm.consumed, h2.consumed, h1.shm.consumed]
    have hbegin : m3.drop.dropBeginId = m.drop.dropBeginId := by
      rw [hh3.drop, h2.drop, h1.drop, hdb]
    refine ⟨⟨(ht1.same ht2).same h3.table, fun x hx => ?_, fun _ => ?_, fun _ => ?_⟩,
      hid.trans hcs.symm⟩
    · have := hc.below x (hp ▸ hx)
      omega
    · rw [hbegin, hp]
      exact ⟨hb1, by omega, hb3⟩
    · rw [hh3.drop, h2.drop, h1.drop]
      exact hdh
  refine report_set hm (fun _ => rfl) fun m1 h1 t1 i1 => ?_
  refine report_set i1 (fun _ => rfl) fun m2 h2 t2 i2 => ?_
  refine report_get i2 fun m3 h3 t3 i3 => ?_
  have h13 := (h1.trans h2).trans h3
  have hd2 : m2.drop.dropBeginId = m.drop.dropBeginId := by rw [h2.drop, h1.drop]
  have hx2 : m2.drop.holeEvent.isHole = true := by
    rw [h2.drop, h1.drop]
    exact hc.hole h0
  have ht3 := ((hc.tidy.same t1).same t2).same t3
  split
  · refine report_get i3 fun m4 h4 t4 i4 => ?_
    have h14 := h13.trans h4
    have hb4 : m4.drop.dropBeginId = m.drop.dropBeginId := by rw [h4.drop, h3.drop, hd2]
    have hbe : before e.id = m.shm.ring.consumed := by rw [hid, before_succ hlt]
    have hbehind : Behind ⟨m4.drop.dropBeginId, before e.id⟩ m4 := by
      refine ⟨by rw [hbe, h14.shm.consumed], fun x hx _ hr => ?_⟩
      have hr1 : m4.drop.dropBeginId ≤ x.id := hr.1
      rw [h14.arb.pushed] at hx
      have := hb3 x hx
      omega
    refine Safe.bind i4 ((report_dropped_safe i4 (ht3.same t4) hbehind).mono
      fun _ m5 i5 ⟨h5, ht5⟩ => ?_)
    refine hlast _ m5 (h14.trans h5) (ht5 (by omega) (by omega)) i5 hb4 ?_
    rw [h4.drop, h3.drop]
    exact hx2
  · exact hlast _ m3 h13 ht3 i3 hd2 hx2

/-- `assert(vms_arbiter_buffer_free_space(buffer) > 0)`, whether it holds or not. -/
theorem checkFree_reports (hm : ReportInv m) :
    Safe ReportInv droppingRole (fun _ m' => Held m.drop m m' ∧ SameTable m m') checkFree m := by
  refine quietly silent_checkFree (Safe.bind hm.1 ((freeSpace_safe hm.1).mono
    fun n m1 i1 ⟨h1, _⟩ => ?_))
  have hend : Safe ItemsInv itemRole (fun _ m' => Held m.drop m m') (.ret ()) m1 :=
    fun m2 h2 _ => h1.drop ▸ h1.trans (ForManager.held h2 i1)
  by_cases hn : 0 < n
  · rw [check_eq hn]; exact hend
  · have hc : check (0 < n) = .fault (.ret ()) := by simp [check, Chk.require, hn, Prog.ofChk]
    rw [hc]
    exact ⟨trivial, hend⟩

/-- What a verdict says of the reports. -/
def Ruled (p : ℕ) (e : Event) : Verdict → StreamMem → Prop
  | .dropped, m => Carrying m ∧ e.id = m.shm.ring.consumed
  | .send, m => StepReports (.sending p e) m
  | .pass, m => StepReports (.fetched p) m

/-- `handle_dropping_event` up to the call of `send_dropped_event`. -/
theorem decideEvent_reports {p : ℕ} {e : Event} (hm : ReportInv m) (hc : Carrying m)
    (hh : InHand p e m) :
    Safe ReportInv droppingRole (Ruled p e) (decideEvent e) m := by
  -- a verdict that stands stays
  have stays : ∀ {m1 m2 : StreamMem}, Carrying m1 ∧ e.id = m1.shm.ring.consumed → ReportInv m1 →
      ForReporter m1 m2 → Carrying m2 ∧ e.id = m2.shm.ring.consumed := by
    intro m1 m2 hs i1 hr
    obtain ⟨h1, hid⟩ := hs
    have hk := (hr.held i1.1).toKept
    exact ⟨h1.kept hk hr.table (.refl _), hid.trans hk.shm.consumed.symm⟩
  refine report_get hm fun m1 h1 t1 i1 => ?_
  have hh1 := hh.held h1
  have hc1 := hc.kept h1.toKept t1 (.refl _)
  split
  case isTrue h0 =>
    refine Safe.bind i1 ((quietly silent_aboveThreshold (aboveThreshold_safe i1.1)).mono
      fun above m2 i2 hq => ?_)
    obtain ⟨⟨h2, -⟩, t2⟩ := hq
    have hc2 := hc1.kept h2.toKept t2 (.refl _)
    have h02 : 0 < m2.drop.droppedNum := by rw [h2.drop]; exact h0
    cases above with
    | true =>
      have hk : StepReports (.sending p e) m2 := ⟨hc2, hh1.held h2, h02⟩
      exact fun m3 h3 _ => hk.stable i2 h3
    | false =>
      exact Safe.bind i2 ((continueDropping_reports i2 hc2 (hh1.held h2) h02).mono
        fun _ m3 i3 h3 => fun m4 h4 _ => stays h3 i3 h4)
  case isFalse h0 =>
    refine Safe.bind i1 ((quietly silent_freeSpace (freeSpace_safe i1.1)).mono
      fun free m2 i2 hq => ?_)
    obtain ⟨⟨h2, -⟩, t2⟩ := hq
    have hc2 := hc1.kept h2.toKept t2 (.refl _)
    split
    case isTrue hz =>
      exact Safe.bind i2 ((startDropping_reports i2 hc2 (hh1.held h2)).mono
        fun _ m3 i3 h3 => fun m4 h4 _ => stays h3 i3 h4)
    case isFalse hz =>
      refine Safe.bind i2 ((checkFree_reports i2).mono fun _ m3 i3 hq => ?_)
      obtain ⟨h3, t3⟩ := hq
      refine report_get i3 fun m4 h4 t4 i4 => Safe.ofChk_bind trivial ?_
      have h24 := h2.trans (h3.trans h4)
      have hk : StepReports (.fetched p) m4 := by
        refine ⟨hc1.kept h24.toKept ((t4.trans t3).trans t2) (.of_eq (h3.drop.trans h2.drop)), ?_, e,
          hh1.held h24⟩
        rw [h4.drop, h3.drop, h2.drop]
        omega
      exact fun m5 h5 _ => hk.stable i4 h5

/-- The rest of a turn of a fetch, whatever the filter says. -/
theorem filtered_reports {p : ℕ} {e : Event} {accept : Bool} (hm : ReportInv m) (hc : Carrying m)
    (hh : InHand p e m) :
    Safe ReportInv droppingRole StepReports (filtered p e accept) m := by
  unfold filtered
  cases accept with
  | true =>
    refine Safe.bind hm ((decideEvent_reports hm hc hh).mono fun v m1 i1 hv => ?_)
    cases v with
    | dropped => exact report_ret i1 ⟨hv.1, hv.1.ends hv.2⟩
    | send => exact report_ret i1 hv
    | pass => exact report_ret i1 hv
  | false =>
    refine Safe.bind hm ((consume_reports hm hh).mono fun _ m1 i1 ⟨h1, t1⟩ => ?_)
    have hc1 : Carrying m1 := by
      refine hc.consumed t1 h1.arb.pushed h1.consumed ?_ ?_
      · rw [h1.drop]; exact fun h0 => .inl ⟨h0, rfl⟩
      · rw [h1.drop]; exact hc.hole
    exact report_ret i1 ⟨hc1, hc1.ends ((hh.id hm.1).trans h1.consumed.symm)⟩

/-- The push of `push_dropped_event`: the hole is not older than any item. -/
theorem pushHole_reports {last id : ℕ} (hm : ReportInv m) (hc : Carrying m)
    (h0 : 0 < m.drop.droppedNum) (hid : id = last - 1) (hb : m.drop.dropBeginId ≤ last)
    (hl : last ≤ m.shm.ring.consumed + 1) :
    Safe ReportInv droppingRole (fun _ m' => HoleSent last m' ∧
      m'.drop.dropBeginId = m.drop.dropBeginId ∧ ShmKept m m' ∧
      ∀ n, m.shm.ring.Avail n → m'.shm.ring.Avail n) (pushHole id) m := by
  obtain ⟨hb1, hb2, hb3⟩ := hc.begun h0
  have hq : Safe ItemsInv itemRole (fun _ m' => ShmKept m m' ∧
      (∀ n, m.shm.ring.Avail n → m'.shm.ring.Avail n) ∧ m'.drop.dropBeginId = m.drop.dropBeginId ∧
      ∀ x ∈ m'.arb.pushed, x ∈ m.arb.pushed ∨ x.isHole = true ∧ x.id = last - 1)
      (pushHole id) m := by
    refine get_safe hm.1 fun m1 h1 i1 => Safe.ofChk_bind trivial ?_
    refine itemStore_bind i1 (fun _ => rfl) fun m2 h2 i2 => ?_
    refine get_safe i2 fun m3 h3 i3 => ?_
    have h13 := (h1.trans h2).trans h3
    have hhole : m3.drop.holeEvent.isHole = true := by
      rw [h3.drop, h2.drop, h1.drop]
      exact hc.hole h0
    have hhid : m3.drop.holeEvent.id = last - 1 := by
      rw [h3.drop, h2.drop, ← hid]
    have hnext : Next m3.drop.holeEvent m3 := by
      have hle : m3.drop.holeEvent.id ≤ m3.shm.ring.consumed := by
        rw [hhid, h13.shm.consumed]
        omega
      refine ⟨fun a ha => ?_, ⟨by omega, fun _ => hle, fun hn => ?_⟩, .inl hhole⟩
      · rw [h13.arb.pushed] at ha
        have := hb3 a ha
        exact ⟨by omega, fun hn => Bool.noConfusion (hn.symm.trans hhole)⟩
      · exact Bool.noConfusion (hn.symm.trans hhole)
    refine (pushAny_safe i3 hnext).mono fun _ m4 _ h4 => ⟨h13.shm.trans h4.shm,
      fun n hn => h4.avail n (h13.avail n hn), ?_, fun x hx => ?_⟩
    · rw [h4.drop, h3.drop, h2.drop, h1.drop]
    · rcases h4.pushed with hp | hp
      · rw [hp, h13.arb.pushed] at hx
        exact .inl hx
      · rw [hp, h13.arb.pushed] at hx
        rcases List.mem_append.mp hx with hx | hx
        · exact .inl hx
        · rw [List.mem_singleton.mp hx]
          exact .inr ⟨hhole, hhid⟩
  refine (quietly (silent_pushHole _) hq).mono fun _ m' _ ⟨⟨hs, ha, hbegin, hitems⟩, ht⟩ =>
    ⟨⟨hc.tidy.same ht, ?_, ?_, fun x hx => ?_, fun x hx hn => ?_⟩, hbegin, hs, ha⟩
  · rw [hbegin]; exact ⟨hb1, hb⟩
  · rw [hs.consumed]; exact hl
  · rw [hs.consumed]
    rcases hitems x hx with hx | ⟨-, hx⟩
    · exact hc.below x hx
    · omega
  · rw [hbegin]
    rcases hitems x hx with hx | ⟨hx, -⟩
    · exact hb3 x hx
    · exact Bool.noConfusion (hn.symm.trans hx)

/-- `send_dropped_event` up to the push. -/
theorem sendHole_reports {p : ℕ} {e : Event} (hm : ReportInv m)
    (hk : StepReports (.sending p e) m) :
    Safe ReportInv droppingRole (fun ok m' => StepReports (.sent p e.id ok) m') (sendHole e.id) m := by
  obtain ⟨hc, hh, h0⟩ := hk
  have hid := hh.id hm.1
  refine report_get hm fun m1 h1 t1 i1 => Safe.ofChk_bind trivial ?_
  have hc1 := hc.kept h1.toKept t1 (.refl _)
  have h01 : 0 < m1.drop.droppedNum := by rw [h1.drop]; exact h0
  obtain ⟨-, hb, -⟩ := hc1.begun h01
  have hcs : m1.shm.ring.consumed = m.shm.ring.consumed := h1.shm.consumed
  have hbefore := before_eq i1.1 (n := e.id) (by omega) (by omega)
  exact (pushHole_reports i1 hc1 h01 hbefore (by omega) (by omega)).mono fun ok m2 _ ⟨h2, hb2, hs, ha⟩ =>
    ⟨h2, by omega, e, (hh.held h1).kept hs ha⟩

/-- What comes after a push: the report. -/
theorem afterHole_reports {last : ℕ} (hm : ReportInv m) (h : HoleSent last m) :
    Safe ReportInv droppingRole (fun _ m' => (∃ d, Held d m m') ∧
      (m.drop.dropBeginId < last → Tidy m'.info)) (afterHole (before last)) m := by
  have hid := before_eq hm.1 (h.first.1.trans h.first.2) h.last
  refine report_set hm (fun _ => rfl) fun m1 h1 t1 i1 => ?_
  refine report_get i1 fun m2 h2 t2 i2 => ?_
  have h12 := h1.trans h2
  have hb2 : m2.drop.dropBeginId = m.drop.dropBeginId := by rw [h2.drop, h1.drop]
  have hbehind : Behind ⟨m2.drop.dropBeginId, before last⟩ m2 := by
    refine ⟨?_, fun x hx hn hr => ?_⟩
    · have := h.last
      show before last ≤ m2.shm.ring.consumed
      rw [h12.shm.consumed]
      omega
    · have hr1 : m2.drop.dropBeginId ≤ x.id := hr.1
      rw [h12.arb.pushed] at hx
      have := h.older x hx hn
      omega
  refine Safe.bind i2 ((report_dropped_safe i2 ((h.tidy.same t1).same t2) hbehind).mono
    fun _ m3 i3 ⟨h3, ht3⟩ => ?_)
  refine (checkFree_reports i3).mono fun _ m4 _ ⟨h4, t4⟩ => ⟨⟨_, (h12.trans h3).trans h4⟩,
    fun hlt => Tidy.same (ht3 ?_ ?_) t4⟩
  · rw [hb2]; exact h.first.1
  · omega

/-- The rest of `send_dropped_event`. -/
theorem afterSend_reports {p last : ℕ} {ok : Bool} (hm : ReportInv m)
    (hk : StepReports (.sent p last ok) m) :
    Safe ReportInv droppingRole (fun _ m' => StepReports (.fetched p) m') (afterSend last) m := by
  obtain ⟨hs, hb, e, hh⟩ := hk
  refine Safe.bind hm ((afterHole_reports hm hs).mono fun _ m1 i1 ⟨⟨d, h1⟩, ht1⟩ => ?_)
  refine report_set i1 (fun _ => rfl) fun m2 h2 t2 i2 => ?_
  refine (checkFree_reports i2).mono fun _ m3 _ ⟨h3, t3⟩ => ?_
  have h13 := (h1.trans h2).trans h3
  have h0 : m3.drop.droppedNum = 0 := by rw [h3.drop, h2.drop]
  refine ⟨⟨((ht1 hb).same t2).same t3, ?_, fun hn => ?_, fun hn => ?_⟩, h0, e, hh.held h13⟩
  · rw [h13.arb.pushed, h13.shm.consumed]; exact hs.below
  · omega
  · omega

/-- The event in hand goes into its slot and is consumed. -/
theorem putEvent_reports {p : ℕ} {out : Option ℕ} (hm : ReportInv m)
    (hk : StepReports (.slot p out) m) :
    Safe ReportInv droppingRole StepReports (putEvent p out) m := by
  obtain ⟨hc, h0, ⟨e, hh⟩, hw⟩ := hk
  cases out with
  | none => exact Safe.ofChk_bind trivial (report_ret hm ⟨hc, h0⟩)
  | some o =>
    have hid := hh.id hm.1
    have hno : e.isHole = false := (hm.1.source _ _ hh.event).2
    have hq : Safe ItemsInv itemRole (fun i m' => i = .top ∧ m'.drop = m.drop ∧
        m'.arb.pushed = m.arb.pushed ++ [e] ∧
        m'.shm.ring.consumed = m.shm.ring.consumed + 1) (putEvent p (some o)) m := by
      refine readSlot_safe hm.1 hh fun m1 h1 g1 i1 => ?_
      have hw1 : Queue.WriteSlot o m1.arb := (hw o rfl).stable (Carries.rely ItemsInv g1).arb
      refine Safe.bind i1 ((arbFill_safe i1 hw1).mono fun _ m2 i2 ⟨h2, hw2, hx2⟩ => ?_)
      have h12 : Held m.drop m m2 := h1.drop ▸ h1.trans h2
      have hnext : Next e m2 := by
        have hcs := h12.shm.consumed
        refine ⟨fun a ha => ?_, ⟨by omega, fun hx => ?_, fun _ => by omega⟩, .inr (by omega)⟩
        · rw [h12.arb.pushed] at ha
          have := hc.below a ha
          exact ⟨by omega, fun _ => by omega⟩
        · exact Bool.noConfusion (hno.symm.trans hx)
      refine Safe.bind i2 ((publish_items_safe i2 hw2 hx2 hnext).mono fun _ m3 i3 h3 => ?_)
      refine Safe.bind i3 ((consume_items_safe i3 ((hh.held h12).kept h3.shm h3.avail)).mono
        fun _ m4 i4 h4 => fun m5 h5 _ => ?_)
      have h5 : Held m4.drop m4 m5 := ForManager.held h5 i4
      refine ⟨rfl, ?_, ?_, ?_⟩
      · rw [h5.drop, h4.drop, h3.drop, h12.drop]
      · rw [h5.arb.pushed, h4.arb.pushed, h3.pushed, h12.arb.pushed]
      · rw [h5.shm.consumed, h4.consumed, h3.shm.consumed, h12.shm.consumed]
    refine (quietly (silent_putEvent p (some o)) hq).mono fun i m' _ ⟨⟨hi, hd, hp, hcs⟩, ht⟩ => ?_
    subst hi
    have h0' : m'.drop.droppedNum = 0 := by rw [hd]; exact h0
    refine ⟨⟨hc.tidy.same ht, fun x hx => ?_, fun hn => by omega, fun hn => by omega⟩, h0'⟩
    rw [hp] at hx
    rcases List.mem_append.mp hx with hx | hx
    · have := hc.below x hx
      omega
    · rw [List.mem_singleton.mp hx]
      omega

/-- One turn of the loop of `handle_stream_end`, up to the push. -/
theorem endTurn_reports {last : ℕ} {w : Spin} (hm : ReportInv m)
    (hk : StepReports (.streamEnd last w) m) :
    Safe ReportInv droppingRole StepReports (endTurn last w) m := by
  refine report_get hm fun m1 h1 t1 i1 => ?_
  have hk1 : StepReports (.streamEnd last w) m1 := by
    intro h0
    rw [h1.drop] at h0
    exact ⟨(hk h0).1.kept h1.toKept t1 (.refl _), (hk h0).2.kept h1.toKept (.refl _)⟩
  split
  case isTrue h0 =>
    obtain ⟨hc1, he1⟩ := hk1 h0
    refine Safe.bind i1 ((quietly silent_aboveThreshold (aboveThreshold_safe i1.1)).mono
      fun above m2 i2 hq => ?_)
    obtain ⟨⟨h2, -⟩, t2⟩ := hq
    have hc2 := hc1.kept h2.toKept t2 (.refl _)
    have he2 := he1.kept h2.toKept (.refl _)
    have h02 : 0 < m2.drop.droppedNum := by rw [h2.drop]; exact h0
    cases above with
    | true =>
      obtain ⟨hb, hl⟩ := he2 h02
      have hbefore := before_eq i2.1 ((hc2.begun h02).1.trans hb) (by omega)
      exact Safe.bind i2 ((pushHole_reports i2 hc2 h02 hbefore hb (by omega)).mono
        fun ok m3 i3 h3 => report_ret i3 h3.1)
    | false =>
      refine report_get i2 fun m3 h3 t3 i3 => Safe.ofChk_bind trivial (report_ret i3 fun _ => ?_)
      exact ⟨hc2.kept h3.toKept t3 (.refl _), he2.kept h3.toKept (.refl _)⟩
  case isFalse h0 =>
    refine Safe.bind i1 ((quietly silent_isReady (isReady_manager_safe i1.1)).mono
      fun ready m2 i2 _ => Safe.ofChk_bind trivial ?_)
    exact report_get i2 fun m3 h3 t3 i3 => Safe.ofChk_bind trivial (report_ret i3 trivial)

/-- The rest of that turn. -/
theorem afterEndSend_reports {last : ℕ} (hm : ReportInv m) (h : HoleSent last m) :
    Safe ReportInv droppingRole (fun _ m' => m'.drop.droppedNum = 0) (afterEndSend last) m := by
  refine Safe.bind hm ((afterHole_reports hm h).mono fun _ m1 i1 _ => ?_)
  refine Safe.bind i1 ((checkFree_reports i1).mono fun _ m2 i2 _ => ?_)
  refine Safe.mono (quietly (silent_set _ _) (itemStore_safe i2.1 ?_)) fun _ m3 _ h3 => ?_
  · exact fun _ => rfl
  · rw [h3.1.drop]

/-- The manager, one step at a time, whatever its filters say. -/
theorem stepBody_reports {i : StepAt} {x : Bool} (hm : ReportInv m) (hk : StepReports i m) :
    Safe ReportInv droppingRole StepReports (stepBody i x) m := by
  cases i with
  | top =>
    have h0 : m.drop.droppedNum = 0 := hk.2
    exact nextEvent_reports hm hk.1 fun h => by omega
  | fetching last w => exact nextEvent_reports hm hk.1 hk.2
  | got p e => exact filtered_reports hm hk.1 hk.2
  | sending p e =>
    exact Safe.bind hm ((sendHole_reports hm hk).mono fun ok m1 i1 h1 => report_ret i1 h1)
  | sent p last ok =>
    exact Safe.bind hm ((afterSend_reports hm hk).mono fun _ m1 i1 h1 => report_ret i1 h1)
  | fetched p =>
    obtain ⟨hc, h0, e, hh⟩ := hk
    unfold stepBody
    cases x with
    | true =>
      refine Safe.bind hm ((quietly (silent_onArb _) (onArb_asks hm.1
        (Queue.writePtr_safe hm.1.arb))).mono fun out m1 i1 ⟨⟨hq, h1⟩, t1⟩ => report_ret i1 ?_)
      obtain ⟨-, -, hsome, -⟩ := hq
      exact ⟨hc.kept h1.toKept t1 (.refl _), by rw [h1.drop]; exact h0, ⟨e, hh.held h1⟩, hsome⟩
    | false =>
      refine Safe.bind hm ((consume_reports hm hh).mono fun _ m1 i1 ⟨h1, t1⟩ => report_ret i1 ?_)
      refine ⟨hc.consumed t1 h1.arb.pushed h1.consumed ?_ ?_, by rw [h1.drop]; exact h0⟩
      · rw [h1.drop]; exact fun hn => by omega
      · rw [h1.drop]; exact hc.hole
  | slot p out => exact putEvent_reports hm hk
  | streamEnd last w => exact endTurn_reports hm hk
  | endSent last w ok =>
    exact Safe.bind hm ((afterEndSend_reports hm hk).mono fun _ m1 i1 h1 =>
      report_ret i1 fun h0 => by omega)
  | exited => exact report_ret hm trivial

end StreamMem

end Vamos
