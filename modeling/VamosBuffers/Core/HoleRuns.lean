import Mathlib.Tactic
import VamosBuffers.Core.HoleHandling
import VamosBuffers.Schemes.Turns

/-! Runs of a stream with a hole handling of its own, over every interleaving of the source, the buffer
    manager and a reader of the arbiter buffer.

        at any time             the items tell of the first events that the filter accepts
        stream destroyed        at most 1013 turns for each event left, and 1013 to see the end

    The stream is ready while it is not destroyed or not empty, as generic streams are. For one of
    calls, which is ready as long as its reader is attached, the second line fails. -/

namespace Vamos
open Schemes

namespace StreamMem

/-! ### Threads -/

abbrev HoleAt : Thread → Type
  | .source => SourceAt
  | .manager => ManagerAt
  | .arbiter => Unit

abbrev HoleCall : Thread → Type
  | .source => SourceCall
  | .manager => Unit
  | .arbiter => Removal

/-- The threads of a stream with handling `H` and filter `f`. -/
def holeClients (H : HoleHandling) (f : Event → Bool) :
    (t : Thread) → Client StreamMem StreamAcc (HoleAt t) (HoleCall t)
  | .source => sourceClient
  | .manager => { enabled := fun _ _ _ => True, body := fun i _ => managerBodyBy H f i }
  | .arbiter => readerClient

abbrev HoleCfg : Type := Cfg StreamMem StreamAcc HoleAt

/-- A new stream, before its first event. -/
def Setup.holeStart (s : Setup) : HoleCfg :=
  ⟨s.mem, fun
    | .source => .ret (.active 0)
    | .manager => .ret .top
    | .arbiter => .ret ()⟩

/-- The manager, if it waits, asks after fewer than 1013 turns whether the stream is ready. -/
def AsksSoon : ManagerAt → Prop
  | .fetching _ w => waited 1013 w = none
  | .top => True
  | .streamEnd _ _ => True
  | .exited => True

/-- What each thread knows between two calls. -/
def HoleKnown (H : HoleHandling) (f : Event → Bool) : (t : Thread) → HoleAt t → StreamMem → Prop
  | .source, .active k, m => Active k m
  | .source, .closed, m => m.destroyed = true
  | .manager, i, m => HolesKnown H f i m ∧ AsksSoon i
  | .arbiter, _, _ => True

/-! ### Waiting -/

section Waiting

variable {n : ℕ} {w w' : Spin}

theorem waited_succ (n : ℕ) (w : Spin) : waited (n + 1) w =
    if w.tick.tired then
      if w.tick.short sleepTimeThresNs then waited n w.tick.longer else none
    else waited n w.tick := rfl

theorem waited_rest (h : waited 1 w = some w') : waited (n + 1) w = waited n w' := by
  rw [waited_succ] at h ⊢
  split at h
  case isTrue ht =>
    split at h
    case isTrue hs =>
      rw [if_pos ht, if_pos hs, Option.some.inj h]
    case isFalse => cases h
  case isFalse ht =>
    rw [if_neg ht, Option.some.inj h]

theorem waited_none (h : waited n w = none) : waited (n + 1) w = none := by
  induction n generalizing w with
  | zero => cases h
  | succ n ih =>
    rw [waited_succ] at h ⊢
    split
    case isTrue ht =>
      rw [if_pos ht] at h
      split
      case isTrue hs =>
        rw [if_pos hs] at h
        exact ih h
      case isFalse => rfl
    case isFalse ht =>
      rw [if_neg ht] at h
      exact ih h

theorem waited_pos (h : waited n w = none) : 0 < n := by
  rcases Nat.eq_zero_or_pos n with rfl | hn
  · cases h
  · exact hn

/-- The sleeping time has been doubled often enough; only the counter of turns goes on. -/
theorem waited_long (hw : w.short sleepTimeThresNs = false) : waited 1013 w = none := by
  -- by induction on the turns that are left before the thread is tired
  have hawake : ∀ (n : ℕ) (v : Spin), v.short sleepTimeThresNs = false →
      v.spinned ≤ busyWaitForEvents → busyWaitForEvents < v.spinned + n → waited n v = none := by
    intro n
    induction n with
    | zero => omega
    | succ n ih =>
      intro v hv hle hlt
      have hspun : v.tick.spinned = v.spinned + 1 :=
        Nat.mod_eq_of_lt (by unfold busyWaitForEvents at hle; omega)
      have hv' : v.tick.short sleepTimeThresNs = false := hv
      rw [waited_succ]
      split
      case isTrue =>
        rw [hv']
        rfl
      case isFalse ht =>
        have ht : ¬ busyWaitForEvents < v.tick.spinned := fun h => ht (decide_eq_true h)
        exact ih v.tick hv' (by omega) (by omega)
  have hw' : w.tick.short sleepTimeThresNs = false := hw
  rw [waited_succ]
  split
  case isTrue =>
    rw [hw']
    rfl
  case isFalse ht =>
    have ht : ¬ busyWaitForEvents < w.tick.spinned := fun h => ht (decide_eq_true h)
    refine hawake 1012 w.tick hw' (by omega) ?_
    unfold busyWaitForEvents
    omega

theorem waited_start : waited 1013 .start = none := by decide +kernel

variable {i i' : ManagerAt} {m m' : StreamMem}

theorem Fetched.asksSoon (h : Fetched w m i m') (hw : waited 1013 w = none) : AsksSoon i := by
  cases h with
  | top => trivial
  | next => exact waited_start
  | again _ hw' =>
    rcases hw' with h1 | ⟨-, rfl, hs⟩
    · exact (waited_rest h1).symm.trans (waited_none hw)
    · exact waited_long hs
  | ended => trivial

theorem Turned.asksSoon (h : Turned i m i' m') (hi : AsksSoon i) : AsksSoon i' := by
  cases i with
  | top => exact Fetched.asksSoon h waited_start
  | fetching last w => exact Fetched.asksSoon h hi
  | streamEnd last w =>
    cases i' with
    | fetching last' w' => cases h.1
    | top => trivial
    | streamEnd last' w' => trivial
    | exited => trivial
  | exited =>
    obtain rfl : i' = .exited := h
    trivial

end Waiting

/-! ### Runs -/

section Runs

variable {H : HoleHandling} {f : Event → Bool} {m : StreamMem}

/-- What the reader reports, the holes do not depend on. -/
theorem report_holes_safe (id : ℕ) :
    Safe (HoleInv H f) readerRole (fun _ _ => True) (setLastProcessedId id) m := by
  refine Safe.access_bind fun m1 _ i1 => ⟨.refl m1, i1, Safe.ofChk_bind trivial ?_⟩
  refine Safe.access fun m2 _ i2 => ⟨⟨.refl _, rfl, rfl, rfl⟩, ?_, fun _ _ _ => trivial⟩
  exact ⟨⟨i2.shm, i2.arb, i2.shmSize, i2.arbSize, i2.source, i2.few, i2.threshold⟩, i2.items⟩

theorem holeClients_safe (hH : H.Marks) (t : Thread) (i : HoleAt t) (x : HoleCall t) (m : StreamMem)
    (hm : HoleInv H f m) (hk : HoleKnown H f t i m) (he : (holeClients H f t).enabled i x m) :
    Safe (HoleInv H f) (spaceRole t) (HoleKnown H f t) ((holeClients H f t).body i x) m := by
  cases t with
  | source =>
    cases i with
    | closed => exact he.elim
    | active k =>
      cases x with
      | push e =>
        obtain ⟨hid, hhole, hlt⟩ := he
        refine Safe.bind hm ((shmPush_safe hk hid hhole hlt).mono fun ok m1 _ ha => ?_)
        exact fun m2 h2 _ => ha.stable h2
      | destroy =>
        refine Safe.bind hm ((shmDestroy_safe hk).mono fun _ m1 _ hd => fun m2 h2 _ => ?_)
        exact ForSource.destroyed h2 |>.trans hd
  | manager =>
    exact (managerBody_holes hH hm hk.1).mono fun _ _ _ hq => ⟨hq.1, hq.2.asksSoon hk.2⟩
  | arbiter =>
    cases x with
    | drop k =>
      exact Safe.bind hm ((bufferDrop_safe hole_removes hm fun e _ _ _ =>
        report_holes_safe e.id).mono fun _ m1 _ _ => fun _ _ _ => trivial)
    | dropOlderThan id =>
      exact Safe.bind hm ((dropOlderThan_safe hole_removes hm fun _ _ _ _ =>
        report_holes_safe id).mono fun _ m1 _ _ => fun _ _ _ => trivial)

theorem Setup.holes (s : Setup) : HoleInv H f s.mem := by
  have hok : StreamOk s.mem := (s.inv : StreamInv (fun _ => true) False s.mem).ok
  have ha : s.mem.arb.pushed = [] := rfl
  exact ⟨hok, [], List.nil_prefix, by rw [ha]; exact .nil⟩

theorem holeClients_pre (t : Thread) (l : StreamAcc) (m : StreamMem)
    (_ : (holeClients H f t).allowed l m) : (spaceRole t).pre l m := by
  cases t <;> trivial

/-- Every configuration that a run reaches. -/
theorem reach_holes (hH : H.Marks) (s : Setup) {c : HoleCfg}
    (h : Reach (holeClients H f) s.holeStart c) : HoleInv H f c.mem ∧
      ∀ t, Safe (HoleInv H f) (spaceRole t) (HoleKnown H f t) (c.prog t) c.mem := by
  have hstart : ∀ t,
      Safe (HoleInv H f) (spaceRole t) (HoleKnown H f t) (s.holeStart.prog t) s.holeStart.mem := by
    intro t
    cases t with
    | source =>
      have h : Active 0 s.mem := ⟨rfl, rfl⟩
      exact fun m hr _ => h.stable hr
    | manager =>
      have ha : s.holeStart.mem.arb.pushed = [] := rfl
      have h : HolesKnown H f .top s.holeStart.mem :=
        ⟨.balanced (by rw [ha]; exact .nil) rfl, by rw [ha]; exact .nil⟩
      have hm : HoleInv H f s.holeStart.mem := s.holes
      exact fun m hr _ => ⟨h.kept (ForManager.held hr hm).toKept, trivial⟩
    | arbiter => exact fun _ _ _ => trivial
  exact reach_safe (ρ := spaceRole) (Q := HoleKnown H f) holeClients_pre
    (fun _ _ htu _ _ _ _ _ hg => spaceRole_compat htu hg) (holeClients_safe hH) s.holes hstart h

/-- When the manager has exited the items tell of everything. -/
theorem HolesKnown.tells_all (hk : HolesKnown H f .exited m) (hm : HoleInv H f m) :
    Tells Event.isHole H.Made m.arb.pushed (m.shm.pushed.filter f) := by
  obtain ⟨hb, hd⟩ := hk
  have hall : accepted f m = m.shm.pushed.filter f := by
    rw [accepted, hd.2, ← hm.shm.pushed_length, List.take_length]
  rw [← hall]
  exact hb.tells

/-- In every interleaving, whatever the filter, the free space and the two functions: the items of the
    arbiter buffer tell of the first events that the filter accepts, each hole made by the handling of
    the run that it stands for; between two fetches they tell of all that have been consumed, and when
    the manager has exited of all that there were. -/
theorem holes_made (s : Setup) (hH : H.Marks) {c : HoleCfg}
    (h : Reach (holeClients H f) s.holeStart c) :
    (∃ E, E <+: c.mem.shm.pushed.filter f ∧ Tells Event.isHole H.Made c.mem.arb.pushed E) ∧
    (c.prog .manager = .ret .top → Tells Event.isHole H.Made c.mem.arb.pushed (accepted f c.mem)) ∧
    (c.prog .manager = .ret .exited →
      Tells Event.isHole H.Made c.mem.arb.pushed (c.mem.shm.pushed.filter f)) := by
  obtain ⟨hm, hs⟩ := reach_holes hH s h
  have hk : ∀ i, c.prog .manager = .ret i → HolesKnown H f i c.mem :=
    fun i hp => ((hs .manager).at_ret hm hp).1
  exact ⟨hm.items, fun hp => (hk _ hp).1.tells, fun hp => (hk _ hp).tells_all hm⟩

/-- A handling that adds up the payloads. -/
def sums : HoleHandling where
  init h := { h with kind := Event.holeKind, n := 0 }
  update h e := { h with n := (h.n + e.n) % 2 ^ 64 }

theorem sums_marks : sums.Marks := ⟨fun _ => rfl, fun _ _ h => h⟩

/-- The source pushes the event after the first `n`, with the payload `10 * n`. -/
def pays (n : ℕ) (c : HoleCfg) : HoleCfg :=
  (c.begin .source (sourceClient.body (.active n) (.push ⟨9, n + 1, 10 * n⟩))).finish .source

theorem reach_pays {c₀ c : HoleCfg} {n : ℕ} (h : Reach (holeClients H f) c₀ c)
    (hp : c.prog .source = .ret (.active n)) (hn : n + 1 < 2 ^ 64) :
    Reach (holeClients H f) c₀ (pays n c) :=
  h.call .source (i := .active n) (.push ⟨9, n + 1, 10 * n⟩) hp ⟨rfl, rfl, hn⟩ fun _ _ => trivial

/-- The manager makes the first turn of a fetch. -/
def fetchesOnce (c : HoleCfg) : HoleCfg :=
  (c.begin .manager (managerBodyBy sums (fun _ => true) .top)).finish .manager

/-- The manager has forwarded three events and dropped the fourth. -/
def oneDropped : HoleCfg :=
  fetchesOnce (fetchesOnce (fetchesOnce (fetchesOnce
    (pays 3 (pays 2 (pays 1 (pays 0 small.holeStart)))))))

theorem reach_oneDropped : Reach (holeClients sums fun _ => true) small.holeStart oneDropped := by
  have h0 : Reach (holeClients sums fun _ => true) small.holeStart small.holeStart := .start
  have h1 := reach_pays (n := 0) h0 rfl (by decide)
  have h2 := reach_pays (n := 1) h1 rfl (by decide)
  have h3 := reach_pays (n := 2) h2 rfl (by decide)
  have h4 := reach_pays (n := 3) h3 rfl (by decide)
  have h5 := h4.call .manager (i := .top) () rfl trivial fun _ _ => trivial
  have h6 := h5.call .manager (i := .top) () rfl trivial fun _ _ => trivial
  have h7 := h6.call .manager (i := .top) () rfl trivial fun _ _ => trivial
  exact h7.call .manager (i := .top) () rfl trivial fun _ _ => trivial

/-- The fourth and the fifth event are dropped, and their hole holds the sum of their payloads. -/
theorem holes_made_two : ∃ c, Reach (holeClients sums fun _ => true) small.holeStart c ∧
    c.mem.arb.pushed.map Event.n = [0, 10, 20, 70, 50] ∧
    ∃ E, E <+: c.mem.shm.pushed.filter (fun _ => true) ∧
      Tells Event.isHole sums.Made c.mem.arb.pushed E := by
  have h1 := reach_pays (n := 4) reach_oneDropped rfl (by decide)
  have h2 := h1.call .manager (i := .fetching 4 .start) () rfl trivial fun _ _ => trivial
  have h3 := h2.call .arbiter (i := ()) (.drop 2) rfl trivial fun _ _ => trivial
  have h4 := reach_pays (n := 5) h3 rfl (by decide)
  have h5 := h4.call .manager (i := .fetching 5 .start) () rfl trivial fun _ _ => trivial
  exact ⟨_, h5, rfl, (holes_made small sums_marks h5).1⟩

/-! ### The end of the stream -/

/-- The source has destroyed the stream, and `m'` is later than `m`. -/
structure Over (m m' : StreamMem) : Prop where
  destroyed : m'.destroyed = true
  written : m'.shm.ring.written = m.shm.ring.written
  consumed : m.shm.ring.consumed ≤ m'.shm.ring.consumed

/-- Nothing is pushed any more, whatever the others do. -/
theorem Over.safe {Q : ManagerAt → StreamMem → Prop} {p : StreamProg ManagerAt} {I : StreamMem → Prop}
    (hd : m.destroyed = true) (h : Safe I carryRole Q p m) :
    Safe I carryRole (fun i m' => Q i m' ∧ Over m m') p m := by
  refine h.frame (fun m1 m2 ho hr => ?_) (fun _ m1 m2 ho hg => ?_) ⟨hd, rfl, le_rfl⟩
  · obtain ⟨hd', hs⟩ := ForManager.closed hr ho.destroyed
    exact ⟨hd', by rw [hs]; exact ho.written, by rw [hs]; exact ho.consumed⟩
  · have hg : CarryStep m1 m2 := hg
    exact ⟨hg.destroyed.trans ho.destroyed, hg.shm.ring.written.trans ho.written,
      ho.consumed.trans hg.shm.ring.consumed⟩

/-- The events that are still to be consumed. -/
def unread (m : StreamMem) : ℕ := m.shm.ring.written - m.shm.ring.consumed

/-- So many turns of a fetch are enough when the stream has been destroyed. -/
def Enough (b : ℕ) : ManagerAt → StreamMem → Prop
  | .top, m => (unread m + 1) * 1013 ≤ b
  | .fetching _ w, m => ∃ k, waited k w = none ∧ unread m * 1013 + k ≤ b
  | .streamEnd _ _, _ => True
  | .exited, _ => True

variable {b : ℕ} {i i' : ManagerAt} {m' : StreamMem}

theorem AsksSoon.enough {u : ℕ} (hi : AsksSoon i) (hu : unread m ≤ u) :
    Enough ((u + 1) * 1013) i m := by
  cases i with
  | top => exact Nat.mul_le_mul_right _ (Nat.succ_le_succ hu)
  | fetching last w => exact ⟨1013, hi, by omega⟩
  | streamEnd last w => trivial
  | exited => trivial

theorem Enough.pos (h : Enough b i m) (hi : fetches i = true) : 0 < b := by
  cases i with
  | top =>
    have h : (unread m + 1) * 1013 ≤ b := h
    omega
  | fetching last w =>
    obtain ⟨k, hk, hb⟩ := h
    have := waited_pos hk
    omega
  | streamEnd last w => cases hi
  | exited => cases hi

/-- A turn of a fetch consumes an event, or counts, or sees the end. -/
theorem Fetched.enough {w : Spin} {k : ℕ} (h : Fetched w m i m') (ho : Over m m')
    (hd : m.destroyed = true) (hle : m'.shm.ring.consumed ≤ m'.shm.ring.written)
    (hk : waited k w = none) (hb : unread m * 1013 + k ≤ b + 1) : Enough b i m' := by
  have hpos := waited_pos hk
  have hw := ho.written
  -- an event fewer is left
  have hnext : m'.shm.ring.consumed = m.shm.ring.consumed + 1 → (unread m' + 1) * 1013 ≤ b := by
    intro h
    have hu : unread m' + 1 = unread m := by unfold unread; omega
    rw [hu]
    exact Nat.le_of_succ_le_succ ((Nat.add_le_add_left hpos _).trans hb)
  cases h with
  | top h => exact hnext h
  | next h => exact ⟨1013, waited_start, (Nat.succ_mul _ _).symm.trans_le (hnext h)⟩
  | again h hagain =>
    have hu : unread m' = unread m := by unfold unread; omega
    rcases hagain with h1 | ⟨hno, -⟩
    · obtain ⟨k, rfl⟩ := Nat.exists_eq_succ_of_ne_zero hpos.ne'
      refine ⟨k, (waited_rest h1).symm.trans hk, ?_⟩
      rw [hu]
      exact Nat.le_of_succ_le_succ hb
    · rw [hd] at hno
      cases hno
  | ended => trivial

theorem Turned.enough (h : Turned i m i' m') (ho : Over m m') (hd : m.destroyed = true)
    (hle : m'.shm.ring.consumed ≤ m'.shm.ring.written) (hi : fetches i = true)
    (hb : Enough (b + 1) i m) : Enough b i' m' := by
  cases i with
  | top =>
    have hb : (unread m + 1) * 1013 ≤ b + 1 := hb
    exact Fetched.enough h ho hd hle waited_start (by omega)
  | fetching last w =>
    obtain ⟨k, hk, hb⟩ := hb
    exact Fetched.enough h ho hd hle hk hb
  | streamEnd last w => cases hi
  | exited => cases hi

/-- The manager does not come back from the end of the stream. -/
theorem Turned.enough_end (h : Turned i m i' m') (hi : ¬ fetches i = true) : Enough b i' m' := by
  cases i with
  | top => exact absurd rfl hi
  | fetching last w => exact absurd rfl hi
  | streamEnd last w =>
    cases i' with
    | top => cases h.1
    | fetching last' w' => cases h.1
    | streamEnd last' w' => trivial
    | exited => trivial
  | exited =>
    obtain rfl : i' = .exited := h
    trivial

/-- What the manager knows when the stream has been destroyed and it has `b` turns of a fetch left. -/
structure Ending (H : HoleHandling) (f : Event → Bool) (b : ℕ) (i : ManagerAt) (m : StreamMem) :
    Prop where
  known : HolesKnown H f i m
  destroyed : m.destroyed = true
  enough : Enough b i m

theorem managerBody_ending {b' : ℕ} (hH : H.Marks) (hm : HoleInv H f m) (hk : Ending H f b i m)
    (hb : ∀ i' m', Turned i m i' m' → Over m m' →
      m'.shm.ring.consumed ≤ m'.shm.ring.written → Enough b' i' m') :
    Safe (HoleInv H f) carryRole (Ending H f b') (managerBodyBy H f i) m :=
  (Over.safe hk.destroyed (managerBody_holes hH hm hk.known)).mono fun i' m' hm' hq =>
    ⟨hq.1.1, hq.2.destroyed, hb i' m' hq.1.2 hq.2 hm'.shm.ring.consumed_le⟩

/-- When the source has destroyed a stream that is ready as generic ones are, then, whatever the filter,
    the two functions and the order of the accesses, the manager begins at most so many more turns of
    its fetch loop: 1013 for each event still to be consumed, and 1013 to see the end. -/
theorem fetch_turns_bounded (s : Setup) (hH : H.Marks) {c c' : HoleCfg} {n : ℕ}
    (h : Reach (holeClients H f) s.holeStart c) (hp : c.prog .source = .ret .closed)
    (ht : Turns (holeClients H f) .manager (fun i => fetches i = true) c n c') :
    n ≤ (c.mem.shm.ring.written - c.mem.shm.ring.consumed + 1) * 1013 := by
  obtain ⟨hm, hs⟩ := reach_holes hH s h
  have hd : c.mem.destroyed = true := (hs .source).at_ret hm hp
  -- what the manager has begun before leaves no more than that
  have hK : Safe (HoleInv H f) carryRole (Ending H f ((unread c.mem + 1) * 1013))
      (c.prog .manager) c.mem := by
    refine (Over.safe hd (hs .manager)).mono fun i m _ hq => ?_
    obtain ⟨⟨hk, hw⟩, ho⟩ := hq
    have hle : unread m ≤ unread c.mem := by
      have h1 := ho.written
      have h2 := ho.consumed
      unfold unread
      omega
    exact ⟨hk, ho.destroyed, hw.enough hle⟩
  have hspend : ∀ b i m, HoleInv H f m → Ending H f b i m → fetches i = true →
      ∃ b', b = b' + 1 ∧ Safe (HoleInv H f) carryRole (Ending H f b') (managerBodyBy H f i) m := by
    intro b i m hm hk hi
    obtain ⟨b, rfl⟩ := Nat.exists_eq_succ_of_ne_zero (hk.enough.pos hi).ne'
    exact ⟨b, rfl, managerBody_ending hH hm hk fun _ _ h ho hle =>
      h.enough ho hk.destroyed hle hi hk.enough⟩
  have hkeep : ∀ b i m, HoleInv H f m → Ending H f b i m → ¬ fetches i = true →
      Safe (HoleInv H f) carryRole (Ending H f b) (managerBodyBy H f i) m :=
    fun b i m hm hk hi => managerBody_ending hH hm hk fun _ _ h _ _ => h.enough_end hi
  obtain ⟨b, hb, -⟩ := turns_safe (t := Thread.manager) (ρ := spaceRole) (Q := HoleKnown H f)
    (K := Ending H f) holeClients_pre (fun _ _ htu _ _ _ _ _ hg => spaceRole_compat htu hg)
    (holeClients_safe hH) (fun b i _ m hm hk _ hi => hspend b i m hm hk hi)
    (fun b i _ m hm hk _ hi => hkeep b i m hm hk hi) hm hs hK ht
  exact Nat.le.intro hb

/-- The source pushes one event and destroys the stream. -/
def oneLeft : HoleCfg :=
  ((pays 0 small.holeStart).begin .source (sourceClient.body (.active 1) .destroy)).finish .source

theorem reach_oneLeft : Reach (holeClients sums fun _ => true) small.holeStart oneLeft := by
  have h1 : Reach (holeClients sums fun _ => true) small.holeStart (pays 0 small.holeStart) :=
    reach_pays .start rfl (by decide)
  exact h1.call .source (i := .active 1) .destroy rfl trivial fun _ _ => trivial

/-- The manager takes the event in one turn, and finds the ring empty in the next. -/
theorem fetch_turns_bounded_one : Reach (holeClients sums fun _ => true) small.holeStart oneLeft ∧
    oneLeft.prog .source = .ret .closed ∧ ∃ c, Turns (holeClients sums fun _ => true) .manager
      (fun i => fetches i = true) oneLeft 2 c ∧
    2 ≤ (oneLeft.mem.shm.ring.written - oneLeft.mem.shm.ring.consumed + 1) * 1013 := by
  have t0 : Turns (holeClients sums fun _ => true) .manager (fun i => fetches i = true)
      oneLeft 0 oneLeft := .start
  have t1 := t0.whole (i := .top) () rfl trivial rfl fun _ _ => trivial
  have t2 := t1.whole (i := .top) () rfl trivial rfl fun _ _ => trivial
  exact ⟨reach_oneLeft, rfl, _, t2, fetch_turns_bounded small sums_marks reach_oneLeft rfl t2⟩

end Runs

end StreamMem

end Vamos
