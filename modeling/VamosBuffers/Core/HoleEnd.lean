import Mathlib.Tactic
import VamosBuffers.Core.HoleRuns
import VamosBuffers.Core.ArbiterDrops

/-! From every state of a stream with a hole handling of its own the buffer manager can still exit.

        calls finished ──▶ stream destroyed ──▶ fetches ──▶ buffer emptied ──▶ hole written
                                                                    │
                                                           nothing dropped ──▶ exited

    No order of the accesses leads to a state without a way out, if the stream is ready as generic ones
    are: while it is not destroyed or not empty. -/

namespace Vamos
open Schemes

namespace StreamMem

section Ends

variable {H : HoleHandling} {f : Event → Bool} {m : StreamMem} {c c' : HoleCfg} {i : ManagerAt}

theorem hole_allowed (t : Thread) (l : StreamAcc) (m : StreamMem) :
    (holeClients H f t).allowed l m := by
  cases t <;> trivial

/-- The source has destroyed the stream, and no thread is in a call. -/
structure AtRest (i : ManagerAt) (c : HoleCfg) : Prop where
  source : c.prog .source = .ret .closed
  manager : c.prog .manager = .ret i
  arbiter : c.prog .arbiter = .ret ()

/-- Every thread can finish its call, and the source then destroy the stream. -/
theorem comes_to_rest (c : HoleCfg) : ∃ c' i, Reach (holeClients H f) c c' ∧ AtRest i c' := by
  have h1 : Reach (holeClients H f) c (((c.finish .source).finish .manager).finish .arbiter) :=
    ((Reach.start.finish .source (Prog.within_of_forall (hole_allowed _) _ _)).finish .manager
      (Prog.within_of_forall (hole_allowed _) _ _)).finish .arbiter
      (Prog.within_of_forall (hole_allowed _) _ _)
  generalize hc : ((c.finish .source).finish .manager).finish .arbiter = c1 at h1
  obtain ⟨x, hs⟩ : ∃ x, c1.prog .source = .ret x := by subst hc; exact ⟨_, rfl⟩
  obtain ⟨i, hm⟩ : ∃ i, c1.prog .manager = .ret i := by subst hc; exact ⟨_, rfl⟩
  have ha : c1.prog .arbiter = .ret () := by subst hc; rfl
  cases x with
  | closed => exact ⟨c1, i, h1, hs, hm, ha⟩
  | active k =>
    exact ⟨_, i, h1.call .source (i := .active k) .destroy hs trivial (hole_allowed _),
      Cfg.call_self .., hm, ha⟩

/-! ### Calls at rest -/

/-- A turn of the manager. -/
theorem AtRest.turn {Q : ManagerAt → StreamMem → Prop} (hr : AtRest i c) (hm : HoleInv H f c.mem)
    (h : Safe (HoleInv H f) carryRole Q (managerBodyBy H f i) c.mem) :
    ∃ c' i', Reach (holeClients H f) c c' ∧ AtRest i' c' ∧ HoleInv H f c'.mem ∧ Q i' c'.mem := by
  obtain ⟨hi, hq, -⟩ := Safe.run (R := fun _ _ => True) (fun _ _ => trivial) (fun _ => trivial)
    (fun _ _ => trivial) (fun _ _ _ _ => trivial) hm h
  refine ⟨(c.begin .manager (managerBodyBy H f i)).finish .manager, _,
    Reach.start.call .manager () hr.manager trivial (hole_allowed _),
    ⟨hr.source, Cfg.call_self .., hr.arbiter⟩, ?_, ?_⟩
  · rw [Cfg.call_mem]
    exact hi
  · rw [Cfg.call_mem]
    exact hq

/-- `drop` of all the items, run alone. -/
theorem drop_all (hm : HoleInv H f m) :
    Room (m.drop.dropSpaceThreshold + 1) ((bufferDrop m.arb.content.length).run m).2 ∧
      HoleInv H f ((bufferDrop m.arb.content.length).run m).2 ∧
      ForManager m ((bufferDrop m.arb.content.length).run m).2 := by
  obtain ⟨hq, hmv, hd⟩ := bufferDrop_run hm.arb (by have := hm.arbSize; omega) m.arb.content.length
  obtain ⟨hi, -, hfm⟩ := Safe.run (R := ForManager) (fun _ _ => trivial) ForManager.refl
    ForManager.trans (fun _ _ _ hg => spaceRole_compat (t := .arbiter) (u := .manager) (by decide) hg)
    hm (bufferDrop_safe hole_removes hm fun e _ _ _ => report_holes_safe e.id)
  refine ⟨?_, hi, hfm⟩
  generalize ((bufferDrop m.arb.content.length).run m) = r at hq hmv hd
  -- nothing is left
  have hlen : m.arb.content.length < 2 ^ 64 := by
    have h1 := hm.arb.items_le
    have h2 := Nat.le_mul_of_pos_right (m.arb.capacity + 1) hm.arb.pos
    have h3 := hm.arb.fits
    rw [hm.arb.content_length]
    omega
  have hnone : r.2.arb.content = [] := by
    rw [hd.content, List.drop_eq_nil_iff, hd.num]
    omega
  have hall : r.2.arb.ring.written ≤ r.2.arb.ring.consumed := by
    rw [← hq.pushed_length]
    exact List.drop_eq_nil_iff.mp hnone
  have hcap : r.2.arb.ring.capacity = m.arb.capacity + 1 := by
    rw [hmv.ring.capacity, hm.arb.slots]
  have hthr := hm.threshold
  unfold Room
  omega

/-- The reader empties the arbiter buffer. -/
theorem AtRest.empties (hr : AtRest i c) (hm : HoleInv H f c.mem) :
    ∃ c', Reach (holeClients H f) c c' ∧ AtRest i c' ∧ HoleInv H f c'.mem ∧
      ForManager c.mem c'.mem ∧ Room (c'.mem.drop.dropSpaceThreshold + 1) c'.mem := by
  obtain ⟨hroom, hi, hfm⟩ := drop_all hm
  have hmem : ((readerClient.body () (.drop c.mem.arb.content.length)).run c.mem).2 =
      ((bufferDrop c.mem.arb.content.length).run c.mem).2 := by
    show (Prog.run (_ >>= _) _).2 = _
    rw [Prog.run_bind]
    rfl
  refine ⟨(c.begin .arbiter (readerClient.body () (.drop c.mem.arb.content.length))).finish .arbiter,
    Reach.start.call .arbiter (i := ()) (.drop c.mem.arb.content.length) hr.arbiter trivial
      (hole_allowed _), ⟨hr.source, hr.manager, Cfg.call_self ..⟩, ?_⟩
  rw [Cfg.call_mem, hmem]
  exact ⟨hi, hfm, by rw [hfm.drop]; exact hroom⟩

/-! ### The two loops -/

/-- The fetches come to an end. -/
theorem AtRest.fetched (hH : H.Marks) {b : ℕ} (hr : AtRest i c) (hm : HoleInv H f c.mem)
    (hk : Ending H f b i c.mem) : ∃ c' i', Reach (holeClients H f) c c' ∧ AtRest i' c' ∧
      HoleInv H f c'.mem ∧ HolesKnown H f i' c'.mem ∧ fetches i' = false := by
  induction b generalizing c i with
  | zero =>
    cases hf : fetches i with
    | true => exact absurd (hk.enough.pos hf) (lt_irrefl 0)
    | false => exact ⟨c, i, .start, hr, hm, hk.known, hf⟩
  | succ b ih =>
    cases hf : fetches i with
    | true =>
      obtain ⟨c1, i1, h1, hr1, hm1, hk1⟩ := hr.turn hm (managerBody_ending hH hm hk fun _ _ h ho hle =>
        h.enough ho hk.destroyed hle hf hk.enough)
      obtain ⟨c2, i2, h2, hrest⟩ := ih hr1 hm1 hk1
      exact ⟨c2, i2, h1.trans h2, hrest⟩
    | false => exact ⟨c, i, .start, hr, hm, hk.known, hf⟩

/-- At the end of the stream, with the arbiter buffer emptied, the manager writes the hole or exits. -/
theorem AtRest.endTurn (hH : H.Marks) (hr : AtRest i c) (hm : HoleInv H f c.mem)
    (hk : HolesKnown H f i c.mem) (hf : fetches i = false) :
    ∃ c' i', Reach (holeClients H f) c c' ∧ AtRest i' c' ∧ HoleInv H f c'.mem ∧
      HolesKnown H f i' c'.mem ∧ fetches i' = false ∧
      (i' = .exited ∨ 0 < c.mem.drop.droppedNum ∧ c'.mem.drop.droppedNum = 0) := by
  cases i with
  | top => cases hf
  | fetching last w => cases hf
  | exited => exact ⟨c, .exited, .start, hr, hm, hk, rfl, .inl rfl⟩
  | streamEnd last w =>
    obtain ⟨c1, h1, hr1, hm1, hfm, hroom⟩ := hr.empties hm
    have hk1 : HolesKnown H f (.streamEnd last w) c1.mem := hk.kept (ForManager.held hfm hm).toKept
    obtain ⟨c2, i2, h2, hr2, hm2, hk2, ht⟩ := hr1.turn hm1 (managerBody_holes hH hm1 hk1)
    refine ⟨c2, i2, h1.trans h2, hr2, hm2, hk2, ht.1, (ht.2 hroom).imp_right fun hd => ?_⟩
    rw [hfm.drop] at hd
    exact hd

theorem AtRest.exits (hH : H.Marks) (hr : AtRest i c) (hm : HoleInv H f c.mem)
    (hk : HolesKnown H f i c.mem) (hf : fetches i = false) :
    ∃ c', Reach (holeClients H f) c c' ∧ AtRest .exited c' := by
  obtain ⟨c1, i1, h1, hr1, hm1, hk1, hf1, hx1⟩ := hr.endTurn hH hm hk hf
  rcases hx1 with rfl | ⟨-, h0⟩
  · exact ⟨c1, h1, hr1⟩
  -- the hole has been written
  obtain ⟨c2, i2, h2, hr2, -, -, -, hx2⟩ := hr1.endTurn hH hm1 hk1 hf1
  rcases hx2 with rfl | ⟨hpos, -⟩
  · exact ⟨c2, h1.trans h2, hr2⟩
  · omega

/-- What has been pushed stays pushed. -/
theorem pushed_stay (s : Setup) (hH : H.Marks) (h : Reach (holeClients H f) s.holeStart c)
    (h' : Reach (holeClients H f) c c') : c.mem.shm.pushed <+: c'.mem.shm.pushed := by
  obtain ⟨hm, hs⟩ := reach_holes hH s h
  refine reach_related (ρ := spaceRole) (Q := HoleKnown H f)
    (R := fun m m' => m.shm.pushed <+: m'.shm.pushed) holeClients_pre
    (fun _ _ htu _ _ _ _ _ hg => spaceRole_compat htu hg) (holeClients_safe hH)
    (fun _ => List.prefix_rfl) List.IsPrefix.trans (fun t l m m' hg => ?_) hm hs h'
  cases t with
  | source => exact (SourceStep.shm hg).pushed_grows
  | manager => rw [(CarryStep.shm hg).pushed]
  | arbiter => rw [ArbiterStep.shm hg]

/-- From every state that a run reaches there is a way on: to a state in which the source has destroyed
    the stream and the manager has exited, and the items of the arbiter buffer tell of all accepted
    events, those that had been pushed before and any that a call under way still pushes. -/
theorem can_exit (s : Setup) (hH : H.Marks) (h : Reach (holeClients H f) s.holeStart c) :
    ∃ c', Reach (holeClients H f) c c' ∧ c'.prog .source = .ret .closed ∧
      c'.prog .manager = .ret .exited ∧ c.mem.shm.pushed <+: c'.mem.shm.pushed ∧
      Tells Event.isHole H.Made c'.mem.arb.pushed (c'.mem.shm.pushed.filter f) := by
  obtain ⟨c1, i, h1, hr1⟩ := comes_to_rest (H := H) (f := f) c
  obtain ⟨hm1, hs1⟩ := reach_holes hH s (h.trans h1)
  have hd1 : c1.mem.destroyed = true := (hs1 .source).at_ret hm1 hr1.source
  obtain ⟨hk1, hw1⟩ : HolesKnown H f i c1.mem ∧ AsksSoon i := (hs1 .manager).at_ret hm1 hr1.manager
  obtain ⟨c2, j, h2, hr2, hm2, hk2, hf2⟩ := hr1.fetched hH hm1 ⟨hk1, hd1, hw1.enough le_rfl⟩
  obtain ⟨c3, h3, hr3⟩ := hr2.exits hH hm2 hk2 hf2
  have h13 := (h1.trans h2).trans h3
  obtain ⟨hm3, hs3⟩ := reach_holes hH s (h.trans h13)
  have hk3 : HolesKnown H f .exited c3.mem := ((hs3 .manager).at_ret hm3 hr3.manager).1
  exact ⟨c3, h13, hr3.source, hr3.manager, pushed_stay s hH h h13, hk3.tells_all hm3⟩

/-- A way out for a manager that has dropped an event and has just begun another turn. -/
theorem can_exit_dropped : oneDropped.mem.drop.droppedNum = 1 ∧ ∃ c',
    Reach (holeClients sums fun _ => true)
      (oneDropped.begin .manager (managerBodyBy sums (fun _ => true) (.fetching 4 .start))) c' ∧
    c'.prog .source = .ret .closed ∧ c'.prog .manager = .ret .exited ∧
    oneDropped.mem.shm.pushed <+: c'.mem.shm.pushed ∧
    Tells Event.isHole sums.Made c'.mem.arb.pushed (c'.mem.shm.pushed.filter fun _ => true) :=
  ⟨rfl, can_exit small sums_marks (reach_oneDropped.begin .manager (i := .fetching 4 .start) () rfl
    trivial)⟩

end Ends

end StreamMem

end Vamos
