import Mathlib.Tactic
import VamosBuffers.Core.ReportRuns
import VamosBuffers.Schemes.Family

/-! When a monitor stops. Its loop goes on while `shamon_is_ready`, which asks the streams one after
    the other, while the sources push and the managers carry events over:

        stream 1   ready? ── no ─▶ items? ── no ─┐
        stream 2                                 └▶ ready? ── no ─▶ items? ── no ─▶ stop

    A stream that is not ready has ended and its SHM ring is empty, so of events nothing more is
    written to its arbiter buffer. But events may still be dropped, which is not asked, and the hole
    for them is written when the loop has stopped. It is the only item that is missed.

    The streams have no sub-buffers, and there are at most ten of them: from the eleventh on the
    vector of the arbiter buffers has lost the first ten, and is asked for their sizes all the same. -/

namespace Vamos
open Schemes

namespace StreamMem

/-! ### One stream -/

/-- `vms_arbiter_buffer_size`. -/
def bufferSize : StreamProg ℕ := onArb Queue.size

/-- The body of the loop of `shamon_is_ready`, for a stream without new substreams whose arbiter
    buffer has not been lost. -/
def hasMore : StreamProg Bool := do
  let ready ← isReady
  if ready then pure true
  else do
    let size ← bufferSize
    pure (decide (0 < size))

/-- The events of the stream and those that may be reported. -/
def WatchInv (f : Event → Bool) (m : StreamMem) : Prop := StreamInv f False m ∧ ReportInv m

/-- Holes have been written, and nothing else. -/
def HolesOnly (m m' : StreamMem) : Prop :=
  ∃ l, m'.arb.pushed = m.arb.pushed ++ l ∧ ∀ x ∈ l, x.isHole = true

/-- What the monitor relies on. -/
structure ForWatcher (m m' : StreamMem) : Prop extends ForArbiter m m' where
  drained : Drained m → Drained m' ∧ HolesOnly m m'

/-- The stream has ended, and what is left in the arbiter buffer are holes. -/
def Emptied (m : StreamMem) : Prop :=
  Drained m ∧ ∀ x ∈ m.arb.content, x.isHole = true

section Stream

variable {f : Event → Bool} {m m' m'' : StreamMem}

theorem HolesOnly.of_eq (h : m'.arb.pushed = m.arb.pushed) : HolesOnly m m' :=
  ⟨[], by rw [h, List.append_nil], nofun⟩

theorem HolesOnly.trans (h : HolesOnly m m') (h' : HolesOnly m' m'') : HolesOnly m m'' := by
  obtain ⟨l, hp, hl⟩ := h
  obtain ⟨l', hp', hl'⟩ := h'
  refine ⟨l ++ l', by rw [hp', hp, List.append_assoc], fun x hx => ?_⟩
  exact (List.mem_append.mp hx).elim (hl x) (hl' x)

theorem ForWatcher.refl (m : StreamMem) : ForWatcher m m := ⟨.refl m, fun h => ⟨h, .of_eq rfl⟩⟩

theorem ForWatcher.trans (h : ForWatcher m m') (h' : ForWatcher m' m'') : ForWatcher m m'' := by
  refine ⟨h.toForArbiter.trans h'.toForArbiter, fun hd => ?_⟩
  obtain ⟨hd1, hp1⟩ := h.drained hd
  obtain ⟨hd2, hp2⟩ := h'.drained hd1
  exact ⟨hd2, hp1.trans hp2⟩

/-- The monitor, past failed assertions. -/
def watcherRole : Role StreamMem StreamAcc where
  rely := ForWatcher
  guar := ProcessStep
  refl := ForWatcher.refl
  trans := ForWatcher.trans
  lenient := True

/-- Holes are written behind what is left. -/
theorem HolesOnly.left (h : HolesOnly m m') (hc : m'.arb.ring.consumed = m.arb.ring.consumed)
    (hl : ∀ x ∈ m.arb.content, x.isHole = true) : ∀ x ∈ m'.arb.content, x.isHole = true := by
  obtain ⟨l, hp, hh⟩ := h
  intro x hx
  rw [Queue.content, hp, hc, List.drop_append] at hx
  exact (List.mem_append.mp hx).elim (hl x) fun hx => hh x (List.drop_subset _ _ hx)

theorem Emptied.stable (h : Emptied m) (hr : ForWatcher m m') : Emptied m' := by
  obtain ⟨hd, hp⟩ := hr.drained h.1
  exact ⟨hd, hp.left hr.arb.ring.consumed h.2⟩

/-- Once the ring is drained the manager writes no event: it would be one that was pushed and not
    consumed. -/
theorem holesOnly_of_new (hm' : StreamInv f False m') (hd : Drained m) (hn : NewItems m m')
    (hs : Queue.ConsumerMoves m.shm m'.shm) : HolesOnly m m' := by
  obtain ⟨l, hp, hl⟩ := hn
  refine ⟨l, hp, fun x hx => ?_⟩
  rcases hl x hx with hh | hlt
  · exact hh
  by_contra hn
  obtain ⟨E, hE, ht⟩ := hm'.items
  have hmem : x ∈ m'.shm.pushed := by
    refine (List.mem_filter.mp (hE.subset (ht.mem ?_ (Bool.eq_false_iff.mpr hn)))).1
    rw [hp]
    exact List.mem_append_right _ hx
  obtain ⟨k, hk⟩ := List.mem_iff_getElem?.mp hmem
  have hid := (hm'.source k x hk).1
  have hlt' := (List.getElem?_eq_some_iff.mp hk).1
  rw [hm'.shm.pushed_length, hs.ring.written, ← hd.2] at hlt'
  omega

/-- If the items tell of `E`, those removed tell of all of it but what a last hole stands for. -/
theorem Emptied.seen (h : Emptied m) {E : List Event} (ht : ItemsTell False m.arb.pushed E) :
    ∃ told missed, E = told ++ missed ∧
      ItemsTell False (m.arb.pushed.take m.arb.ring.consumed) told ∧
      (m.arb.content = [] ∧ missed = [] ∨
        ∃ x, m.arb.content = [x] ∧ x.isHole = true ∧ x.n = missed.length) := by
  have hall : m.arb.pushed.take m.arb.ring.consumed ++ m.arb.content = m.arb.pushed :=
    List.take_append_drop _ _
  rw [← hall] at ht
  rcases ht.holes_last h.2 with hc | ⟨x, hc⟩
  · refine ⟨E, [], (List.append_nil E).symm, ?_, .inl ⟨hc, rfl⟩⟩
    rwa [hc, List.append_nil] at ht
  · have hx : x.isHole = true := h.2 x (by rw [hc]; exact List.mem_singleton_self x)
    rw [hc] at ht
    rcases ht.concat with ⟨-, -, -, hn⟩ | ⟨told, missed, rfl, ht', -, -, -, hst⟩
    · exact Bool.noConfusion (hn.symm.trans hx)
    · exact ⟨told, missed, rfl, ht', .inr ⟨x, hc, hx, hst.1⟩⟩

/-! ### The monitor's calls on a stream -/

/-- What the monitor does without a report keeps the reports true. -/
theorem watch {α : Type} {p : StreamProg α} {Q : α → StreamMem → Prop} (hp : p.Each Silent)
    (h : Safe (StreamInv f False) arbiterRole Q p m) : Safe (WatchInv f) watcherRole Q p m := by
  refine Safe.each (I := StreamInv f False) (J := ReportInv) (ρ := arbiterRole) (π := watcherRole)
    (fun _ _ hr => ForWatcher.toForArbiter hr) (fun _ _ _ => trivial) id
    (fun l g m1 hs _ ht hi' hg => ?_) hp h
  have hg : ArbiterStep m1 (g m1) := hg
  -- only the arbiter buffer has changed
  have heq : g m1 = { m1 with arb := (g m1).arb } := by
    have h1 := hg.shm
    have h2 := hg.destroyed
    have h3 := hg.drop
    have h4 := hs m1
    generalize g m1 = m2 at h1 h2 h3 h4 ⊢
    cases m1
    cases m2
    simp_all
  refine ⟨⟨hg, fun _ => hs m1, ?_, ?_⟩, ?_⟩
  · exact congrArg ShmInfo.droppedRanges (hs m1)
  · rw [hs m1]
  · rw [heq]
    exact ⟨ht.1.setArb hi'.arb hg.arb.elemSize hg.arb.capacity hg.arb.pushed,
      ht.2.mono le_rfl (.of_eq hg.arb.pushed) hg.arb.ring.consumed rfl⟩

theorem watcher_removes : Removes (WatchInv f) watcherRole where
  queue _ h := ⟨h.1.arb, h.1.arbSize⟩
  rely _ _ h := h.arb
  guar l m q h hq hs := by
    obtain ⟨hg, hi⟩ := processor_removes.guar l m q h.2 hq hs
    exact ⟨hg, h.1.consumerMoves hq hs, hi⟩
  lenient := trivial

/-- `vms_arbiter_buffer_drop`. -/
theorem watchDrop_safe {k : ℕ} (hm : WatchInv f m) :
    Safe (WatchInv f) watcherRole (fun _ _ => True) (bufferDrop k) m := by
  refine bufferDrop_safe watcher_removes hm fun e m1 _ hl => ?_
  have hs : Safe (WatchInv f) (arbiterRole.and processorRole) (fun _ _ => True ∧ True)
      (setLastProcessedId e.id) m1 := (setLastProcessedId_safe e.id).and (processed_safe hl)
  have hw : Safe (WatchInv f) watcherRole (fun _ _ => True ∧ True) (setLastProcessedId e.id) m1 :=
    hs.weaken (fun _ _ (hr : ForWatcher _ _) => ⟨hr.toForArbiter, hr.arb⟩) (fun _ _ _ hg => hg.2)
      (fun _ _ _ => ⟨trivial, trivial⟩) fun _ => trivial
  exact hw.mono fun _ _ _ _ => trivial

/-- A buffer of a stream that has ended, found empty. -/
theorem bufferSize_safe (hm : WatchInv f m) (hd : Drained m) :
    Safe (WatchInv f) watcherRole (fun n m' => n = 0 → Emptied m') bufferSize m := by
  have hsz := Queue.released (Queue.onRing_consumer (q := m.arb)
    (Ringbuf.size_reader_safe (N := 0) m.arb.ring))
  have hz := Safe.zoom (I := WatchInv f) (ρ := watcherRole) (L := arbLens) (φ := StreamAcc.arb)
    (s := m) (fun m' => Drained m' ∧ HolesOnly m m') (fun m' i => i.1.arb)
    (fun m' m'' _ hr _ => (ForWatcher.toForArbiter hr).arb) (fun _ _ _ => trivial) ?_ ?_
    (fun _ => trivial) ⟨hd, .of_eq rfl⟩ hsz
  · refine hz.mono fun n m2 i2 hq hn => ?_
    obtain ⟨⟨⟨hw, -, hc⟩, -⟩, hd2, hp⟩ := hq
    have hw : m.arb.ring.written ≤ m.arb.ring.consumed + n := hw
    have hle : m.arb.pushed.length ≤ m.arb.ring.consumed := by
      rw [hm.1.arb.pushed_length]; omega
    refine ⟨hd2, hp.left hc ?_⟩
    rw [Queue.content, List.drop_eq_nil_of_le hle]
    exact fun x hx => absurd hx List.not_mem_nil
  · rintro m' m'' ⟨hd', hp⟩ hr -
    obtain ⟨hd'', hp'⟩ := ForWatcher.drained hr hd'
    exact ⟨hd'', hp.trans hp'⟩
  · rintro l m' q - ⟨hd', hp⟩ hi hq ⟨hst, -, -, -⟩
    obtain ⟨hg, hi'⟩ := watcher_removes.guar l m' q hi hq hst.toConsumerMoves
    exact ⟨hg, hi', hd', hp.trans (.of_eq hst.toConsumerMoves.pushed)⟩

/-- The monitor finds nothing in a stream: it has ended, and only holes can be left. -/
theorem hasMore_safe (hm : WatchInv f m) :
    Safe (WatchInv f) watcherRole (fun more m' => more = false → Emptied m') hasMore m := by
  refine Safe.bind hm ((watch silent_isReady isReady_arbiter_safe).mono fun ready m1 i1 hd => ?_)
  cases ready with
  | true => exact fun _ _ _ h => by cases h
  | false =>
    refine Safe.bind i1 ((bufferSize_safe i1 (hd rfl)).mono fun n m2 i2 he => fun m3 h3 _ hn => ?_)
    have hn : decide (0 < n) = false := hn
    exact (he (Nat.eq_zero_of_not_pos (of_decide_eq_false hn))).stable h3

/-! ### The manager, once more -/

/-- The rest of a turn. -/
theorem finishTurn_reports (f : Event → Bool) : ∀ (n : ℕ) {i : StepAt} {m : StreamMem},
    ReportInv m → StepReports i m →
      Safe ReportInv droppingRole (fun j m => StepReports j.step m) (finishTurn f n i) m := by
  have ret : ∀ {m : StreamMem} (j : ManagerAt), ReportInv m → StepReports j.step m →
      Safe ReportInv droppingRole (fun j m => StepReports j.step m) (.ret j) m :=
    fun j hm hk m' hr _ => hk.stable hm hr
  intro n
  induction n with
  | zero =>
    intro i m hm hk
    cases i with
    | top => exact ret .top hm hk
    | fetching last w => exact ret (.fetching last w) hm hk
    | streamEnd last w => exact ret (.streamEnd last w) hm hk
    | _ => exact ret .exited hm trivial
  | succ n ih =>
    intro i m hm hk
    have step : ∀ x, Safe ReportInv droppingRole (fun j m => StepReports j.step m)
        (stepBody i x >>= finishTurn f n) m := fun x =>
      Safe.bind hm ((stepBody_reports hm hk).mono fun _ _ i1 h1 => ih i1 h1)
    cases i with
    | top => exact ret .top hm hk
    | fetching last w => exact ret (.fetching last w) hm hk
    | streamEnd last w => exact ret (.streamEnd last w) hm hk
    | exited => exact ret .exited hm hk
    | _ => exact step _

/-- A turn of the manager keeps the events, and the reports. -/
theorem managerTurn_safe {i : ManagerAt} (hm : WatchInv f m) (hk : ManagerKnows f False i m)
    (hs : StepReports i.step m) :
    Safe (WatchInv f) ((managerRole f False).and droppingRole)
      (fun j m => ManagerKnows f False j m ∧ StepReports j.step m) (managerBody f i) m := by
  refine (managerBody_safe hm.1 hk).and ?_
  rw [managerBody_eq]
  exact Safe.bind hm.2 ((stepBody_reports hm.2 hs).mono fun _ _ i1 h1 =>
    finishTurn_reports f 5 i1 h1)

end Stream

end StreamMem

namespace ShamonReady
open StreamMem

/-! ### Threads -/

section Family

variable {J : Type} [DecidableEq J]

/-- The streams of a `shamon`. With ten at most, `vms_vector_aligned_extend` has moved no arbiter
    buffer, and `vms_vector_at` finds that of each stream. -/
structure Watched (J : Type) where
  streams : List J
  few : streams.length ≤ 10

/-- `shamon_is_ready`. -/
def shamonIsReady : List J → Prog (J → StreamMem) (J × StreamAcc) Bool
  | [] => pure false
  | j :: streams => do
    let more ← hasMore.member j
    if more then pure true else shamonIsReady streams

/-- Each stream has a source and a manager; there is one monitor. -/
inductive MonitorThread (J : Type) where
  | source (j : J)
  | manager (j : J)
  | monitor
  deriving DecidableEq

/-- The monitor between two calls: in its loop, or after it. -/
inductive MonitorAt where
  | looping
  | stopped
  deriving DecidableEq, Repr

inductive MonitorCall (J : Type) where
  | isReady
  | drop (j : J) (k : ℕ)

/-- `while (shamon_is_ready(shmn))`, with a body that removes items from the arbiter buffers. -/
def monitorClient (w : Watched J) :
    Client (J → StreamMem) (J × StreamAcc) MonitorAt (MonitorCall J) where
  enabled i x _ := i = .looping ∧ match x with
    | .isReady => True
    | .drop j _ => j ∈ w.streams
  body _ x := match x with
    | .isReady => do
      let r ← shamonIsReady w.streams
      pure (if r then .looping else .stopped)
    | .drop j k => do
      let _ ← (bufferDrop k).member j
      pure .looping

abbrev At : MonitorThread J → Type
  | .source _ => SourceAt
  | .manager _ => ManagerAt
  | .monitor => MonitorAt

abbrev Call : MonitorThread J → Type
  | .source _ => SourceCall
  | .manager _ => Unit
  | .monitor => MonitorCall J

def monitorClients (w : Watched J) (f : J → Event → Bool) :
    (t : MonitorThread J) → Client (J → StreamMem) (J × StreamAcc) (At t) (Call t)
  | .source j => sourceClient.member j
  | .manager j => (managerClient (f j) fun _ _ => True).member j
  | .monitor => monitorClient w

/-- New streams, before their first events. -/
def begin (s : J → Setup) : Cfg (J → StreamMem) (J × StreamAcc) (At (J := J)) :=
  ⟨fun j => (s j).mem, fun
    | .source _ => .ret (.active 0)
    | .manager _ => .ret .top
    | .monitor => .ret .looping⟩

/-! ### Runs -/

def monitorRole (f : J → Event → Bool) : MonitorThread J → Role (J → StreamMem) (J × StreamAcc)
  | .source j => (sourceRole.and supplierRole).member j
  | .manager j => ((managerRole (f j) False).and droppingRole).member j
  | .monitor => watcherRole.shared

/-- What each thread knows between two calls. -/
def Known (w : Watched J) (f : J → Event → Bool) :
    (t : MonitorThread J) → At t → (J → StreamMem) → Prop
  | .source j, i, m => StreamMem.Known (f j) False .source i (m j) ∧ ReportKnown .source i (m j)
  | .manager j, i, m => ManagerKnows (f j) False i (m j) ∧ StepReports i.step (m j)
  | .monitor, .looping, _ => True
  | .monitor, .stopped, m => ∀ j ∈ w.streams, Emptied (m j)

variable {w : Watched J} {f : J → Event → Bool} {m m' : J → StreamMem}

/-- Within one stream, each thread's steps are steps that the others rely on. -/
theorem monitorRole_compat {t u : MonitorThread J} (htu : t ≠ u) {l : J × StreamAcc}
    (hm' : ∀ j, WatchInv (f j) (m' j))
    (hg : (monitorRole f t).guar l m m') : (monitorRole f u).rely m m' := by
  cases t with
  | source j =>
    obtain ⟨⟨hs, hq⟩, -, ho⟩ := hg
    have hs : SourceStep (m j) (m' j) := hs
    cases u with
    | source k =>
      exact ho.rely (π := sourceRole.and supplierRole) fun h => absurd (congrArg _ h) htu
    | manager k =>
      refine ho.rely (π := (managerRole (f k) False).and droppingRole) ?_
      rintro rfl
      have hs : (role (f j) False .source).guar l.2 (m j) (m' j) := hs
      exact ⟨role_compat (t := .source) (u := .manager) nofun hs, reportRole_compat (t := .source) (u := .manager) nofun (l := l.2) hq⟩
    | monitor =>
      intro k
      refine ho.rely (π := watcherRole) ?_
      rintro rfl
      have hg : (role (f j) False .source).guar l.2 (m j) (m' j) := hs
      refine ⟨role_compat (t := .source) (u := .arbiter) nofun hg, fun hd => ?_⟩
      exact Bool.noConfusion (hs.alive.symm.trans hd.1)
  | manager j =>
    obtain ⟨⟨hs, hq⟩, -, ho⟩ := hg
    cases u with
    | source k =>
      refine ho.rely (π := sourceRole.and supplierRole) ?_
      rintro rfl
      have hs : (role (f j) False .manager).guar l.2 (m j) (m' j) := hs
      exact ⟨role_compat (t := .manager) (u := .source) nofun hs, reportRole_compat (t := .manager) (u := .source) nofun (l := l.2) hq⟩
    | manager k =>
      exact ho.rely (π := (managerRole (f k) False).and droppingRole)
        fun h => absurd (congrArg _ h) htu
    | monitor =>
      intro k
      refine ho.rely (π := watcherRole) ?_
      rintro rfl
      have hs : (role (f j) False .manager).guar l.2 (m j) (m' j) := hs
      have hf : ForArbiter (m j) (m' j) := role_compat (t := .manager) (u := .arbiter) nofun hs
      have hq : ReportStep l.2 (m j) (m' j) := hq
      exact ⟨hf, fun hd => ⟨hd.forArbiter hf (hm' j).1,
        holesOnly_of_new (hm' j).1 hd hq.items hq.shm⟩⟩
  | monitor =>
    obtain ⟨hs, ho⟩ := hg
    have hs : ProcessStep l.2 (m l.1) (m' l.1) := hs
    cases u with
    | source k =>
      refine ho.rely (π := sourceRole.and supplierRole) ?_
      rintro rfl
      have ha : (role (f l.1) False .arbiter).guar l.2 (m l.1) (m' l.1) := hs.toArbiterStep
      exact ⟨role_compat (t := .arbiter) (u := .source) nofun ha, reportRole_compat (t := .arbiter) (u := .source) nofun
        (l := l.2) hs⟩
    | manager k =>
      refine ho.rely (π := (managerRole (f k) False).and droppingRole) ?_
      rintro rfl
      have ha : (role (f l.1) False .arbiter).guar l.2 (m l.1) (m' l.1) := hs.toArbiterStep
      exact ⟨role_compat (t := .arbiter) (u := .manager) nofun ha, reportRole_compat (t := .arbiter) (u := .manager) nofun
        (l := l.2) hs⟩
    | monitor => exact absurd rfl htu

/-- The streams of `streams`, asked one after the other; those of `asked` are emptied. -/
theorem shamonIsReady_safe {streams asked : List J} (hm : ∀ j, WatchInv (f j) (m j))
    (ha : ∀ j ∈ asked, Emptied (m j)) :
    Safe (fun m => ∀ j, WatchInv (f j) (m j)) watcherRole.shared
      (fun r m' => r = false → ∀ j, j ∈ asked ∨ j ∈ streams → Emptied (m' j))
      (shamonIsReady streams) m := by
  induction streams generalizing asked m with
  | nil =>
    intro m' hr _ _ j hj
    rcases hj with hj | hj
    · exact (ha j hj).stable (hr j)
    · cases hj
  | cons j streams ih =>
    have hj := Safe.shared (I := fun j => WatchInv (f j)) (ρ := watcherRole) (j := j) (m := m)
      (G := fun k s => k ∈ asked → Emptied s)
      (fun _ _ _ hg hr _ hk => (hg hk).stable hr) (hasMore_safe (hm j)) fun k _ hk => ha k hk
    refine Safe.bind hm (hj.mono fun more m1 i1 ⟨he, ho⟩ => ?_)
    cases more with
    | true => exact fun _ _ _ h => by cases h
    | false =>
      have hasked : ∀ k ∈ j :: asked, Emptied (m1 k) := by
        intro k hk
        by_cases hkj : k = j
        · subst hkj; exact he rfl
        · exact ho k hkj ((List.mem_cons.mp hk).resolve_left hkj)
      refine (ih i1 hasked).mono fun r m2 _ hq hr k hk => hq hr k ?_
      simp only [List.mem_cons] at hk ⊢
      tauto

theorem monitorClients_safe (t : MonitorThread J) (i : At t) (x : Call t) (m : J → StreamMem)
    (hm : ∀ j, WatchInv (f j) (m j)) (hk : Known w f t i m)
    (he : (monitorClients w f t).enabled i x m) :
    Safe (fun m => ∀ j, WatchInv (f j) (m j)) (monitorRole f t) (Known w f t)
      ((monitorClients w f t).body i x) m := by
  cases t with
  | source j =>
    exact Safe.member (I := fun j => WatchInv (f j)) ((sourceClient_safe (hm j).1 hk.1 he).and
      (reportClients_safe .source i x (m j) (hm j).2 hk.2 he))
  | manager j =>
    exact Safe.member (I := fun j => WatchInv (f j)) (managerTurn_safe (hm j) hk.1 hk.2)
  | monitor =>
    obtain ⟨rfl, he⟩ := he
    cases x with
    | isReady =>
      have hnone : ∀ j ∈ ([] : List J), Emptied (m j) := fun _ h => absurd h List.not_mem_nil
      refine Safe.bind hm ((shamonIsReady_safe hm hnone).mono fun r m1 _ hq => fun m2 h2 _ => ?_)
      cases r with
      | true => trivial
      | false => exact fun j hj => (hq rfl j (.inr hj)).stable (h2 j)
    | drop j k =>
      have hd := Safe.shared (I := fun j => WatchInv (f j)) (ρ := watcherRole) (j := j) (m := m)
        (G := fun _ _ => True) (fun _ _ _ _ _ _ => trivial) (watchDrop_safe (k := k) (hm j))
        fun _ _ => trivial
      exact Safe.bind hm (hd.mono fun _ _ _ _ => fun _ _ _ => trivial)

/-- Every configuration that a run reaches. -/
theorem reach_monitor (s : J → Setup) {c : Cfg (J → StreamMem) (J × StreamAcc) At}
    (h : Reach (monitorClients w f) (begin s) c) :
    (∀ j, WatchInv (f j) (c.mem j)) ∧
      ∀ t, Safe (fun m => ∀ j, WatchInv (f j) (m j)) (monitorRole f t) (Known w f t)
        (c.prog t) c.mem := by
  refine reach_safe (ρ := monitorRole f) (Q := Known w f) (fun t l m _ => ?_)
    (fun _ _ htu _ _ _ _ hm' hg => monitorRole_compat htu hm' hg) monitorClients_safe
    (fun j => ⟨(s j).inv, (s j).reports⟩) (fun t => ?_) h
  · cases t with
    | source j => exact ⟨trivial, trivial⟩
    | manager j => exact ⟨False.elim, trivial⟩
    | monitor => trivial
  · cases t with
    | source j =>
      have hk : Safe (WatchInv (f j)) (sourceRole.and supplierRole)
          (fun i m => StreamMem.Known (f j) False .source i m ∧ ReportKnown .source i m)
          (.ret (.active 0)) (s j).mem := ((s j).known .source).and ((s j).begin_reports .source)
      exact Safe.member (I := fun j => WatchInv (f j)) (m := fun j => (s j).mem) hk
    | manager j =>
      have hs : StepReports .top (s j).mem :=
        ((s j).begin_reports .manager).at_ret (s j).reports rfl
      have hk : Safe (WatchInv (f j)) ((managerRole (f j) False).and droppingRole)
          (fun i m => ManagerKnows (f j) False i m ∧ StepReports i.step m) (.ret .top) (s j).mem :=
        ((s j).known .manager).and fun _ hr _ => hs.stable (s j).reports hr
      exact Safe.member (I := fun j => WatchInv (f j)) (m := fun j => (s j).mem) hk
    | monitor => exact fun _ _ _ => trivial

/-- When the monitor has stopped, then and ever after, each stream has ended and all its events have
    been consumed from the SHM ring. The items removed tell of them, in order, but for a last run of
    dropped events: nothing is left in the arbiter buffer but a hole, and when the manager has exited
    this hole counts all the events that the monitor has missed. -/
theorem stopped_misses_hole (s : J → Setup) {c : Cfg (J → StreamMem) (J × StreamAcc) At}
    (h : Reach (monitorClients w f) (begin s) c) (hp : c.prog .monitor = .ret .stopped) {j : J}
    (hj : j ∈ w.streams) :
    Drained (c.mem j) ∧ ∃ told missed, (c.mem j).shm.pushed.filter (f j) = told ++ missed ∧
      Tells Event.isHole (fun hole ds => hole.n = ds.length)
        ((c.mem j).arb.pushed.take (c.mem j).arb.ring.consumed) told ∧
      ((c.mem j).arb.content = [] ∨ ∃ x, (c.mem j).arb.content = [x] ∧ x.isHole = true) ∧
      (c.prog (.manager j) = .ret .exited → (c.mem j).arb.content = [] ∧ missed = [] ∨
        ∃ x, (c.mem j).arb.content = [x] ∧ x.isHole = true ∧ x.n = missed.length) := by
  obtain ⟨hm, hs⟩ := reach_monitor s h
  have he : Emptied (c.mem j) := (hs .monitor).at_ret hm hp j hj
  refine ⟨he.1, ?_⟩
  by_cases hx : c.prog (.manager j) = .ret .exited
  · -- the items tell of everything
    have hk : ManagerKnows (f j) False .exited (c.mem j) := ((hs (.manager j)).at_ret hm hx).1
    have hall : accepted (f j) (c.mem j) = (c.mem j).shm.pushed.filter (f j) := by
      rw [accepted, he.1.2, ← (hm j).1.shm.pushed_length, List.take_length]
    have ht := hk.1.tells
    rw [hall] at ht
    obtain ⟨told, missed, hE, ht', hl⟩ := he.seen ht
    refine ⟨told, missed, hE, ht'.imp fun _ _ hst => hst.1, ?_, fun _ => hl⟩
    exact hl.imp And.left fun hl => hl.imp fun _ hx => ⟨hx.1, hx.2.1⟩
  · obtain ⟨E, ⟨more, hE⟩, ht⟩ := (hm j).1.items
    obtain ⟨told, missed, rfl, ht', hl⟩ := he.seen ht
    refine ⟨told, missed ++ more, ?_, ht'.imp fun _ _ hst => hst.1, ?_, fun h => absurd h hx⟩
    · rw [← hE, List.append_assoc]
    · exact hl.imp And.left fun hl => hl.imp fun _ hx => ⟨hx.1, hx.2.1⟩

end Family

def twoStreams : Watched Bool := ⟨[false, true], by decide⟩

/-- One of two streams drops its fourth event and ends; the monitor removes the three items and
    stops. -/
theorem stopped_misses_hole_fourth : ∃ c, Reach (monitorClients twoStreams fun _ _ => true)
    (begin fun _ => small) c ∧ c.prog .monitor = .ret .stopped ∧
    (c.mem false).drop.droppedNum = 1 ∧ Drained (c.mem false) := by
  have h0 : Reach (monitorClients twoStreams fun _ _ => true) (begin fun _ => small) _ := .start
  have h1 := h0.call (.source false) (i := .active 0) (.push ⟨9, 1, 0⟩) rfl ⟨rfl, rfl, by decide⟩
    fun _ _ => trivial
  have h2 := h1.call (.source false) (i := .active 1) (.push ⟨9, 2, 0⟩) rfl ⟨rfl, rfl, by decide⟩
    fun _ _ => trivial
  have h3 := h2.call (.source false) (i := .active 2) (.push ⟨9, 3, 0⟩) rfl ⟨rfl, rfl, by decide⟩
    fun _ _ => trivial
  have h4 := h3.call (.source false) (i := .active 3) (.push ⟨9, 4, 0⟩) rfl ⟨rfl, rfl, by decide⟩
    fun _ _ => trivial
  have h5 := h4.call (.manager false) (i := .top) () rfl trivial fun _ _ => trivial
  have h6 := h5.call (.manager false) (i := .top) () rfl trivial fun _ _ => trivial
  have h7 := h6.call (.manager false) (i := .top) () rfl trivial fun _ _ => trivial
  have h8 := h7.call (.manager false) (i := .top) () rfl trivial fun _ _ => trivial
  have h9 := h8.call (.source false) (i := .active 4) .destroy rfl trivial fun _ _ => trivial
  have h10 := h9.call (.source true) (i := .active 0) .destroy rfl trivial fun _ _ => trivial
  have h11 := h10.call .monitor (i := .looping) (.drop false 3) rfl
    ⟨rfl, by simp [twoStreams]⟩ fun _ _ => trivial
  have h12 := h11.call .monitor (i := .looping) .isReady rfl ⟨rfl, trivial⟩ fun _ _ => trivial
  refine ⟨_, h12, Prog.done_eq_some.mp (by decide +kernel), by decide +kernel, ?_⟩
  exact (stopped_misses_hole (fun _ => small) h12 (Prog.done_eq_some.mp (by decide +kernel))
    (by simp [twoStreams])).1

end ShamonReady

end Vamos
