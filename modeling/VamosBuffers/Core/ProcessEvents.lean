import Mathlib.Tactic
import VamosBuffers.Core.Shamon

/-! What a call of `default_process_events` returns, and whether it returns.

        nearly full?   no:   the oldest item goes, and a copy of it is returned
                       yes:  min(c/2, size) items go, and `shmn->_ev` is returned as the last call
                             left it, with the id of the oldest item

    The loop goes round the buffers with `++i`; a buffer that is not active is passed over by
    `continue`, which comes before `++i`. -/

namespace Vamos
open Schemes

namespace StreamMem

/-- The number that `peek1` shows. -/
def qsize (m : StreamMem) : ℕ := (Queue.peek1.run m.arb).1.1

end StreamMem

namespace Shamon

/-! ### What a call returns -/

/-- If half of the buffer is to go, `shmn->_ev` happens to tell it: it is a hole that counts the
    items, or there is one item to go and `shmn->_ev` differs from it in the id only. -/
def Tells (nearlyFull : ℕ → ℕ → Bool) (ev : Event) (m : StreamMem) : Prop :=
  nearlyFull m.qsize m.arb.capacity = true →
    (2 ≤ min (m.arb.capacity / 2) m.arb.content.length ∧ ev.isHole = true ∧
      ev.n = min (m.arb.capacity / 2) m.arb.content.length) ∨
    (min (m.arb.capacity / 2) m.arb.content.length = 1 ∧
      m.arb.content.head?.any fun oldest => ev.kind == oldest.kind && ev.n == oldest.n)

/-- The steps of a run, each with the states before and after it. -/
inductive Trace (nearlyFull : ℕ → ℕ → Bool) (s₀ : Shamon) :
    List (Shamon × Act × Shamon) → Shamon → Prop
  | start : Trace nearlyFull s₀ [] s₀
  | step {steps : List (Shamon × Act × Shamon)} {a : Act} {s s' : Shamon} :
      Trace nearlyFull s₀ steps s → Step nearlyFull s a s' →
      Trace nearlyFull s₀ (steps ++ [(s, a, s')]) s'

/-- What is kept of each buffer of an instance. -/
def LargeOk (m : StreamMem) : Prop := BufferOk m ∧ 3 ≤ m.arb.capacity

section Trace

variable {nearlyFull : ℕ → ℕ → Bool} {s s' s₀ : Shamon} {a : Act}
  {steps : List (Shamon × Act × Shamon)}

theorem LargeOk.setup (b : StreamMem.Setup) : LargeOk b.mem := by
  obtain ⟨-, hc, -⟩ := Queue.init_inv b.ok
  exact ⟨setup_ok b, hc.symm ▸ b.large⟩

theorem LargeOk.push {m : StreamMem} (h : LargeOk m) (e : Event) :
    LargeOk ((StreamMem.onArb (Queue.push e)).run m).2 := by
  have hcap := (Queue.push_run (x := e) h.1.arb h.1.size).2.capacity
  refine ⟨push_ok h.1 e, ?_⟩
  rw [StreamMem.run_onArb]
  exact hcap ▸ h.2

theorem LargeOk.takeFrom {m : StreamMem} (h : LargeOk m) (ev : Event) :
    LargeOk ((StreamMem.takeFrom nearlyFull ev).run m).2 := by
  obtain ⟨hok, hm, -⟩ := takeFrom_run h.1 nearlyFull ev
  exact ⟨hok, hm.capacity ▸ h.2⟩

/-- Every step of a run of a new instance is made in a state where the buffers are in order. -/
theorem Trace.large {ev : Event} (h : Trace nearlyFull (create ev) steps s) :
    (∀ m ∈ s.buffers, LargeOk m) ∧ ∀ t ∈ steps, (∀ m ∈ t.1.buffers, LargeOk m) ∧
      Step nearlyFull t.1 t.2.1 t.2.2 := by
  induction h with
  | start => exact ⟨nofun, nofun⟩
  | step _ hst ih =>
    refine ⟨hst.buffers (fun _ ev hm => hm.takeFrom ev) (fun _ e hm => hm.push e) LargeOk.setup ih.1,
      fun t ht => ?_⟩
    rcases List.mem_append.mp ht with ht | ht
    · exact ih.2 t ht
    · obtain rfl := List.mem_singleton.mp ht
      exact ⟨ih.1, hst⟩

end Trace

/-- A buffer for four events. -/
def four : StreamMem.Setup :=
  { StreamMem.small with
    capacity := 4
    ok := by decide
    large := by decide
    threshold := ⟨le_rfl, by decide⟩ }

/-- The loop of `default_process_events`, as long as it goes on: what is returned, and the buffers
    looked at. `continue` for a buffer that is not active leaves the counter where it is. -/
def scan (nearlyFull : ℕ → ℕ → Bool) (active : ℕ → Bool) :
    ℕ → Shamon → Option (Outcome × List ℕ × Shamon)
  | 0, _ => none
  | fuel + 1, s =>
    if s.i < s.buffers.length then
      if active s.i then
        match s.turn nearlyFull with
        | (.passed j, s') => (scan nearlyFull active fuel s').map fun r => (r.1, j :: r.2.1, r.2.2)
        | (o, s') => some (o, [s.i], s')
      else (scan nearlyFull active fuel s).map fun r => (r.1, s.i :: r.2.1, r.2.2)
    else some (.null, [], (s.turn nearlyFull).2)

/-- A call, while the active flags stay as they are. -/
def processEvents (nearlyFull : ℕ → ℕ → Bool) (active : ℕ → Bool) (fuel : ℕ) (s : Shamon) :
    Option (Outcome × List ℕ × Shamon) :=
  scan nearlyFull active fuel s.enter

/-- The call comes to an end, and looks at no buffer twice. -/
def Ends (nearlyFull : ℕ → ℕ → Bool) (active : ℕ → Bool) (s : Shamon) : Prop :=
  ∃ fuel o looks s', processEvents nearlyFull active fuel s = some (o, looks, s') ∧ looks.Nodup

/-- The items of buffer `p`, if there is one. -/
def items (s : Shamon) (p : ℕ) : Option (List Event) := (s.buffers[p]?).map fun m => m.arb.content

/-- The loop goes on after it has looked at position `p`: there is an active buffer, which is empty. -/
def GoesOn (active : ℕ → Bool) (s : Shamon) (p : ℕ) : Prop := active p = true ∧ s.items p = some []

/-- The loop ends at position `p`: it is past the end, or an active buffer with items is there. -/
def EndsAt (active : ℕ → Bool) (s : Shamon) (p : ℕ) : Prop :=
  s.items p = none ∨ active p = true ∧ ∃ e es, s.items p = some (e :: es)

/-- The positions that the loop comes to, with a counter of 32 bits. -/
def position (i j : ℕ) : ℕ := (i + j) % 2 ^ 32

/-- From its counter on, the call comes to active empty buffers only, until it comes to an active
    buffer with items or past the end. -/
def MeetsNoInactive (active : ℕ → Bool) (s : Shamon) : Prop :=
  ∃ k < 2 ^ 32, (∀ j < k, GoesOn active s (position s.enter.i j)) ∧
    EndsAt active s (position s.enter.i k)

section Scan

variable {nearlyFull : ℕ → ℕ → Bool} {active : ℕ → Bool} {s s' : Shamon} {p : ℕ}

theorem GoesOn.not_endsAt (h : GoesOn active s p) : ¬ EndsAt active s p := by
  rintro (hn | ⟨-, e, es, hs⟩)
  · rw [h.2] at hn; cases hn
  · rw [h.2] at hs; cases hs

theorem items_lt : p < s.buffers.length ↔ s.items p ≠ none := by
  rw [items, Ne, Option.map_eq_none_iff, List.getElem?_eq_none_iff, not_le]

/-- A turn at an empty buffer: the counter goes on, and all items stay where they are. -/
theorem turn_empty (nearlyFull : ℕ → ℕ → Bool) (hs : Ok s) (hcall : s.inCall = true)
    (h : s.items s.i = some []) :
    ∃ s', s.turn nearlyFull = (.passed s.i, s') ∧ Ok s' ∧ s'.inCall = true ∧
      s'.i = (s.i + 1) % 2 ^ 32 ∧ s'.items = s.items := by
  obtain ⟨m, hm, hnil⟩ := Option.map_eq_some_iff.mp h
  have hstep : Step nearlyFull s _ (s.turn nearlyFull).2 := .turn hcall
  have hok' := hstep.ok hs
  obtain ⟨-, hmv, hnone⟩ := takeFrom_run (hs.buffers m (List.mem_of_getElem? hm)) nearlyFull s.ev
  rcases turn_cases nearlyFull s with ⟨hle, -⟩ | ⟨m', hm', hr⟩
  · rw [List.getElem?_eq_none hle] at hm
    cases hm
  obtain rfl : m = m' := Option.some.inj (hm.symm.trans hm')
  rcases hr with ⟨ev, hev, -⟩ | ⟨-, he⟩
  · rw [hnone.mpr hnil] at hev
    cases hev
  rw [he] at hok' ⊢
  refine ⟨_, rfl, hok', hcall, rfl, funext fun p => ?_⟩
  -- the one buffer that was looked at is still empty
  have hnil' : ((StreamMem.takeFrom nearlyFull s.ev).run m).2.arb.content = [] := by
    rw [Queue.content, hmv.pushed]
    exact List.drop_eq_nil_of_le ((List.drop_eq_nil_iff.mp hnil).trans hmv.ring.consumed)
  rw [items, items, List.getElem?_set]
  split
  · rename_i hp
    obtain rfl := hp
    rw [if_pos (List.getElem?_eq_some_iff.mp hm).1, hm, Option.map_some, Option.map_some, hnil, hnil']
  · rfl

/-- A turn at a buffer with items. -/
theorem turn_nonempty (nearlyFull : ℕ → ℕ → Bool) (hs : Ok s) {e : Event} {es : List Event}
    (h : s.items s.i = some (e :: es)) : ∃ ev s', s.turn nearlyFull = (.took s.i ev, s') := by
  obtain ⟨m, hm, hne⟩ := Option.map_eq_some_iff.mp h
  obtain ⟨-, -, hnone⟩ := takeFrom_run (hs.buffers m (List.mem_of_getElem? hm)) nearlyFull s.ev
  rcases turn_cases nearlyFull s with ⟨hle, -⟩ | ⟨m', hm', hr⟩
  · rw [List.getElem?_eq_none hle] at hm
    cases hm
  obtain rfl : m = m' := Option.some.inj (hm.symm.trans hm')
  rcases hr with ⟨ev, -, he⟩ | ⟨hr, -⟩
  · exact ⟨ev, _, he⟩
  · rw [hnone.mp hr] at hne
    cases hne

theorem position_succ (i j : ℕ) : position ((i + 1) % 2 ^ 32) j = position i (j + 1) := by
  unfold position
  omega

/-- `k` empty buffers and the end: the loop comes to it, and has looked at those positions. -/
theorem scan_ends (nearlyFull : ℕ → ℕ → Bool) (active : ℕ → Bool) (k : ℕ) : ∀ {s : Shamon}, Ok s →
    s.inCall = true → (∀ j < k, GoesOn active s (position s.i j)) →
    EndsAt active s (position s.i k) → ∃ o n s', n ≤ k + 1 ∧
      scan nearlyFull active (k + 1) s = some (o, (List.range n).map (position s.i), s') := by
  induction k with
  | zero =>
    intro s hs hcall _ hend
    have h0 : position s.i 0 = s.i := Nat.mod_eq_of_lt hs.counter
    rw [h0] at hend
    rcases hend with hnone | ⟨hact, e, es, hitems⟩
    · have hlt : ¬ s.i < s.buffers.length := fun h => items_lt.mp h hnone
      exact ⟨_, 0, _, Nat.zero_le _, by rw [scan, if_neg hlt]; rfl⟩
    · obtain ⟨ev, s', ht⟩ := turn_nonempty nearlyFull hs hitems
      have hlt : s.i < s.buffers.length := items_lt.mpr (by rw [hitems]; nofun)
      refine ⟨.took s.i ev, 1, s', le_rfl, ?_⟩
      rw [scan, if_pos hlt, if_pos hact, ht, List.range_one, List.map_singleton, h0]
  | succ k ih =>
    intro s hs hcall hgo hend
    have h0 : position s.i 0 = s.i := Nat.mod_eq_of_lt hs.counter
    obtain ⟨hact, hnil⟩ := hgo 0 (Nat.succ_pos k)
    rw [h0] at hact hnil
    obtain ⟨s', ht, hs', hcall', hi', hitems⟩ := turn_empty nearlyFull hs hcall hnil
    have hlt : s.i < s.buffers.length := items_lt.mpr (by rw [hnil]; nofun)
    have hpos : ∀ j, position s'.i j = position s.i (j + 1) := fun j => hi' ▸ position_succ s.i j
    obtain ⟨o, n, s₂, hn, hscan⟩ := ih hs' hcall'
      (fun j hj => by rw [hpos, GoesOn, hitems]; exact hgo (j + 1) (by omega))
      (by rw [hpos, EndsAt, hitems]; exact hend)
    refine ⟨o, n + 1, s₂, by omega, ?_⟩
    rw [scan, if_pos hlt, if_pos hact, ht]
    simp only [hscan, Option.map_some, List.range_succ_eq_map, List.map_cons, List.map_map, h0]
    simp [Function.comp_def, hpos]

/-- A loop that has come to its end came to empty buffers only before. -/
theorem ends_of_scan {fuel : ℕ} : ∀ {s : Shamon} {r : Outcome × List ℕ × Shamon}, Ok s →
    s.inCall = true → scan nearlyFull active fuel s = some r →
    ∃ k, (∀ j < k, GoesOn active s (position s.i j)) ∧ EndsAt active s (position s.i k) := by
  induction fuel with
  | zero => intro s r _ _ h; cases h
  | succ fuel ih =>
    intro s r hs hcall h
    have h0 : position s.i 0 = s.i := Nat.mod_eq_of_lt hs.counter
    rw [scan] at h
    by_cases hlt : s.i < s.buffers.length
    · rw [if_pos hlt] at h
      by_cases hact : active s.i = true
      · rw [if_pos hact] at h
        obtain ⟨es, hes⟩ := Option.ne_none_iff_exists'.mp (items_lt.mp hlt)
        cases es with
        | cons e es =>
          refine ⟨0, nofun, .inr ⟨?_, e, es, ?_⟩⟩
          · rw [h0]; exact hact
          · rw [h0]; exact hes
        | nil =>
          obtain ⟨s', ht, hs', hcall', hi', hitems⟩ := turn_empty nearlyFull hs hcall hes
          rw [ht] at h
          obtain ⟨r', hr', -⟩ := Option.map_eq_some_iff.mp h
          obtain ⟨k, hgo, hend⟩ := ih hs' hcall' hr'
          have hpos : ∀ j, position s'.i j = position s.i (j + 1) := fun j =>
            hi' ▸ position_succ s.i j
          refine ⟨k + 1, fun j hj => ?_, by rw [← hpos, EndsAt, ← hitems]; exact hend⟩
          cases j with
          | zero => rw [h0]; exact ⟨hact, hes⟩
          | succ j => rw [← hpos, GoesOn, ← hitems]; exact hgo j (by omega)
      · -- nothing has changed: the loop is where it was
        rw [if_neg hact] at h
        obtain ⟨r', hr', -⟩ := Option.map_eq_some_iff.mp h
        exact ih hs hcall hr'
    · exact ⟨0, nofun, .inl (by rw [h0]; exact of_not_not fun h => hlt (items_lt.mpr h))⟩

theorem positions_nodup (i : ℕ) {n : ℕ} (hn : n ≤ 2 ^ 32) :
    ((List.range n).map (position i)).Nodup := by
  refine List.Nodup.map_on (fun j hj k hk h => ?_) List.nodup_range
  rw [List.mem_range] at hj hk
  unfold position at h
  omega

/-- For every vector of buffers, with any items and active flags, and every value of the counter: the
    call comes to an end after looking at each buffer at most once if and only if it comes to no
    buffer that is not active. -/
theorem ends_iff (nearlyFull : ℕ → ℕ → Bool) (active : ℕ → Bool) (hs : Ok s) :
    Ends nearlyFull active s ↔ MeetsNoInactive active s := by
  constructor
  · rintro ⟨fuel, o, looks, s', h, -⟩
    obtain ⟨k, hgo, hend⟩ := ends_of_scan (hs.enter) rfl h
    refine ⟨k, ?_, hgo, hend⟩
    -- once around the counter, the loop would end where it went on before
    by_contra hk
    have hwrap : position s.enter.i k = position s.enter.i (k - 2 ^ 32) := by
      unfold position
      omega
    rw [hwrap] at hend
    exact (hgo (k - 2 ^ 32) (by omega)).not_endsAt hend
  · rintro ⟨k, hk, hgo, hend⟩
    obtain ⟨o, n, s', hn, h⟩ := scan_ends nearlyFull active k (hs.enter) rfl hgo hend
    exact ⟨k + 1, o, _, s', h, positions_nodup _ (by omega)⟩

end Scan

/-- An instance with one buffer, in which nothing has arrived. -/
def oneEmpty : Shamon := (create ⟨0, 0, 0⟩).append four

theorem oneEmpty_ok : Ok oneEmpty := by
  have hstep : Step overFourFifths (create ⟨0, 0, 0⟩) .append oneEmpty := .append rfl four
  exact hstep.ok (create_ok _)

/-- If the buffer is active, the call looks at it and returns `NULL`. -/
theorem ends_oneEmpty : Ok oneEmpty ∧ Ends overFourFifths (fun _ => true) oneEmpty := by
  refine ⟨oneEmpty_ok, (ends_iff overFourFifths (fun _ => true) oneEmpty_ok).mpr
    ⟨1, by decide, fun j hj => ?_, .inl rfl⟩⟩
  obtain rfl : j = 0 := by omega
  exact ⟨rfl, rfl⟩

/-- If it is not, the call does not come to an end. -/
theorem inactive_never_ends : Ok oneEmpty ∧ ¬ Ends overFourFifths (fun _ => false) oneEmpty := by
  refine ⟨oneEmpty_ok, ?_⟩
  rintro ⟨fuel, o, looks, s', h, -⟩
  obtain ⟨k, hgo, hend⟩ := ends_of_scan oneEmpty_ok.enter rfl h
  cases k with
  | zero =>
    rcases hend with hnone | ⟨hact, -⟩
    · cases hnone
    · cases hact
  | succ k => cases (hgo 0 (Nat.succ_pos k)).1

end Shamon

end Vamos
