import Mathlib.Tactic
import VamosBuffers.Shmbuf.BufferAux

/-! The lock of the dropped ranges, `drop_ranges_lock` and `drop_ranges_unlock` of
    `src/shmbuf/buffer-aux.c`. The reader takes it in `notify_dropped` to store a range, the writer in
    `ab_was_dropped` to look through them.

        do { unlocked = false; } while (compare_exchange_weak(l, &unlocked, true));

    The loop goes on while the exchange succeeds. A party that finds the lock free takes it, tries
    again, fails on its own lock and enters; a party that finds it taken fails at once and enters,
    too. Any number of parties share the lock, and what each does inside is any program on the
    ranges. Where a party is (`phase`) is an auxiliary part of the memory.

    The last part has the two programs of the buffer themselves, load by load and store by store. Run
    without the other in between, they come to the whole report and the whole scan of `BufferAux`. -/

namespace Vamos
open Schemes

namespace DropLock

/-- Where a party is: `locking` after an exchange that succeeded, `inside` between the return of
    `drop_ranges_lock` and the store of `drop_ranges_unlock`. -/
inductive Phase where
  | outside | locking | inside
  deriving DecidableEq, Repr

/-- The lock, what it protects, and where each party is. -/
structure LockMem (T : Type) where
  droppedRangesLock : Bool
  info : ShmInfo
  phase : T → Phase

inductive LockAcc where
  | exchange | unlock | ranges
  deriving DecidableEq, Repr

variable {T : Type} [DecidableEq T]

abbrev LockProg (T α : Type) : Type := Prog (LockMem T) LockAcc α

omit [DecidableEq T] in
/-- No two parties are inside. -/
def LockMem.Exclusive (m : LockMem T) : Prop :=
  ∀ t u, m.phase t = .inside → m.phase u = .inside → t = u

/-- `atomic_compare_exchange_weak`: did it succeed, and the new value. It may fail for no reason
    (`spurious`). -/
def compareExchangeWeak (expected desired spurious value : Bool) : Bool × Bool :=
  if value = expected ∧ spurious = false then (true, desired) else (false, value)

/-- One turn of the loop of `drop_ranges_lock`. -/
def lockTurn (t : T) (spurious : Bool) : LockProg T Unit :=
  Prog.access .exchange (fun _ => ()) fun m =>
    let (again, l) := compareExchangeWeak false true spurious m.droppedRangesLock
    { m with droppedRangesLock := l,
             phase := Function.update m.phase t (if again then .locking else .inside) }

/-- `drop_ranges_unlock`. -/
def unlock (t : T) : LockProg T Unit :=
  Prog.access .unlock (fun _ => ()) fun m =>
    { m with droppedRangesLock := false, phase := Function.update m.phase t .outside }

omit [DecidableEq T] in
def infoLens : Lens (LockMem T) ShmInfo where
  get m := m.info
  set i m := { m with info := i }
  get_set _ _ := rfl
  set_get _ := rfl

/-- What a party may do next. -/
inductive LockCall where
  | turn (spurious : Bool)
  | critical (p : Prog ShmInfo Unit Unit)
  | unlock

/-- A party runs `drop_ranges_lock`, a critical section and `drop_ranges_unlock`, over and over. -/
def locker (allowed : T → LockAcc → LockMem T → Prop) (t : T) :
    Client (LockMem T) LockAcc Unit LockCall where
  enabled _ x m := match x with
    | .turn _ => m.phase t ≠ .inside
    | _ => m.phase t = .inside
  body _ x := match x with
    | .turn spurious => lockTurn t spurious
    | .critical p => p.zoom infoLens fun _ => .ranges
    | .unlock => unlock t
  allowed := allowed t

abbrev LockCfg (T : Type) : Type := Cfg (LockMem T) LockAcc (fun _ : T => Unit)

omit [DecidableEq T] in
/-- The lock is free and nobody is there. -/
def unlocked (info : ShmInfo) : LockCfg T := ⟨⟨false, info, fun _ => .outside⟩, fun _ => .ret ()⟩

/-! ### One party at a time -/

omit [DecidableEq T] in
/-- Nobody tries the lock while another party is inside. -/
def uncontended (t : T) (l : LockAcc) (m : LockMem T) : Prop :=
  l = .exchange → ∀ u, u ≠ t → m.phase u ≠ .inside

/-- A party that keeps to this; what the others do to the memory does not matter to it. -/
def lockRole (t : T) : Role (LockMem T) LockAcc where
  rely _ _ := True
  guar _ _ _ := True
  refl _ := trivial
  trans _ _ := trivial
  pre := uncontended t
  lenient := True

theorem LockMem.Exclusive.leave {m : LockMem T} (h : m.Exclusive) (t : T) {l : Bool} :
    LockMem.Exclusive
      { m with droppedRangesLock := l, phase := Function.update m.phase t .outside } := by
  intro u v hu hv
  have stays : ∀ w, Function.update m.phase t .outside w = .inside → m.phase w = .inside := by
    intro w hw
    by_cases hwt : w = t
    · subst hwt; rw [Function.update_self] at hw; cases hw
    · rwa [Function.update_of_ne hwt] at hw
  exact h u v (stays u hu) (stays v hv)

/-- A party that tries while nobody else is inside, is inside alone afterwards or not at all. -/
theorem LockMem.Exclusive.try {m : LockMem T} {t : T} (hu : uncontended t .exchange m) {l : Bool}
    {ph : Phase} :
    LockMem.Exclusive
      { m with droppedRangesLock := l, phase := Function.update m.phase t ph } := by
  have only : ∀ w, Function.update m.phase t ph w = .inside → w = t := by
    intro w hw
    by_contra hwt
    rw [Function.update_of_ne hwt] at hw
    exact hu rfl w hwt hw
  intro v w hv hw
  rw [only v hv, only w hw]

omit [DecidableEq T] in
/-- A critical section moves nobody. -/
theorem critical_safe {I : LockMem T → Prop} (hI : ∀ m i, I m → I { m with info := i }) (t : T) :
    ∀ (p : Prog ShmInfo Unit Unit) (m : LockMem T),
      Safe I (lockRole t) (fun _ _ => True) (p.zoom infoLens fun _ => LockAcc.ranges) m
  | .ret _, _ => fun _ _ _ => trivial
  | .fault p, m => ⟨trivial, critical_safe hI t p m⟩
  | .act _ _ k, _ => fun m' _ hi _ => ⟨trivial, hI _ _ hi, critical_safe hI t (k m'.info) _⟩

theorem locker_safe {t : T} {x : LockCall} {m : LockMem T} :
    Safe LockMem.Exclusive (lockRole t) (fun _ _ => True)
      ((locker uncontended t).body () x) m := by
  cases x with
  | turn spurious => exact fun m' _ _ hu => ⟨trivial, .try hu, fun _ _ _ => trivial⟩
  | critical p => exact critical_safe (fun _ _ h => h) t p m
  | unlock => exact fun m' _ hi _ => ⟨trivial, hi.leave t, fun _ _ _ => trivial⟩

theorem uncontended_exclusive {info : ShmInfo} {c : LockCfg T}
    (h : Reach (locker uncontended) (unlocked info) c) : c.mem.Exclusive := by
  have hr := reach_safe (I := LockMem.Exclusive) (ρ := lockRole) (Q := fun _ _ _ => True)
    (fun _ _ _ hl => hl) (fun _ _ _ _ _ _ _ _ _ => trivial) (fun _ _ _ _ _ _ _ => locker_safe)
    ?_ ?_ h
  · exact hr.1
  · intro t u ht
    cases ht
  · exact fun _ _ _ _ => trivial

/-! ### Two parties -/

omit [DecidableEq T] in
/-- Nothing is asked of the runs. -/
def anyhow (_ : T) (_ : LockAcc) (_ : LockMem T) : Prop := True

/-- A whole call, after which every party is between two calls again. -/
theorem call_between {info : ShmInfo} {c : LockCfg T} (h : Reach (locker anyhow) (unlocked info) c)
    (hc : ∀ u, c.prog u = .ret ()) (t : T) (x : LockCall)
    (he : (locker anyhow t).enabled () x c.mem) :
    ∃ c' : LockCfg T, Reach (locker anyhow) (unlocked info) c' ∧
      c'.mem = (((locker anyhow t).body () x).run c.mem).2 ∧ ∀ u, c'.prog u = .ret () := by
  refine ⟨_, h.call t x (hc t) he fun _ _ => trivial, Cfg.call_mem .., fun u => ?_⟩
  by_cases hu : u = t
  · subst hu
    exact Cfg.call_self ..
  · rw [Cfg.call_other _ _ _ hu]
    exact hc u

/-- Any two parties meet inside: one takes the lock and enters, the other fails to take it and
    enters. -/
theorem both_inside (info : ShmInfo) {t u : T} (htu : t ≠ u) :
    ∃ c : LockCfg T, Reach (locker anyhow) (unlocked info) c ∧ c.mem.phase t = .inside ∧
      c.mem.phase u = .inside := by
  have h0 : Reach (locker (T := T) anyhow) (unlocked info) (unlocked info) := .start
  obtain ⟨c1, h1, hm1, hp1⟩ := call_between h0 (fun _ => rfl) t (.turn false)
    (show Phase.outside ≠ .inside by decide)
  have hm1 : c1.mem = ⟨true, info, Function.update (fun _ => .outside) t .locking⟩ := hm1
  obtain ⟨c2, h2, hm2, hp2⟩ := call_between h1 hp1 t (.turn false) (by
    show c1.mem.phase t ≠ .inside
    simp [hm1])
  rw [hm1] at hm2
  have hm2 : c2.mem = ⟨true, info, Function.update (Function.update (fun _ => .outside) t .locking)
      t .inside⟩ := hm2
  obtain ⟨c3, h3, hm3, -⟩ := call_between h2 hp2 u (.turn false) (by
    show c2.mem.phase u ≠ .inside
    simp [hm2, htu.symm])
  rw [hm2] at hm3
  have hm3 : c3.mem = ⟨true, info, Function.update (Function.update (Function.update
      (fun _ => .outside) t .locking) t .inside) u .inside⟩ := hm3
  refine ⟨c3, h3, ?_, ?_⟩
  · simp [hm3, htu]
  · simp [hm3]

/-- The lock keeps the parties apart in the runs in which nobody tries it while another is inside.
    Over all runs it does so exactly when there is at most one party. -/
theorem lock_excludes (T : Type) [DecidableEq T] (info : ShmInfo) :
    (∀ c : LockCfg T, Reach (locker uncontended) (unlocked info) c → c.mem.Exclusive) ∧
    ((∀ c : LockCfg T, Reach (locker anyhow) (unlocked info) c → c.mem.Exclusive) ↔
      Subsingleton T) := by
  refine ⟨fun c h => uncontended_exclusive h, fun hall => ⟨fun t u => ?_⟩, fun hs c _ t u _ _ => ?_⟩
  · by_contra htu
    obtain ⟨c, h, ht, hu⟩ := both_inside info htu
    exact htu (hall c h t u ht hu)
  · exact Subsingleton.elim t u

/-- The two parties of a buffer. -/
inductive Party where
  | reader | writer
  deriving DecidableEq, Repr

/-- The reader takes the lock to store a range, and the writer enters while it is taken. -/
theorem lock_excludes_nobody : ∃ c : LockCfg Party,
    Reach (locker anyhow) (unlocked ShmInfo.fresh) c ∧ c.mem.droppedRangesLock = true ∧
    c.mem.phase .reader = .inside ∧ c.mem.phase .writer = .inside ∧ ¬ c.mem.Exclusive := by
  have h0 : Reach (locker (T := Party) anyhow) (unlocked ShmInfo.fresh) _ := .start
  have h1 := h0.call .reader (i := ()) (.turn false) rfl (show Phase.outside ≠ .inside by decide)
    fun _ _ => trivial
  have h2 := h1.call .reader (i := ()) (.turn false) rfl (show Phase.locking ≠ .inside by decide)
    fun _ _ => trivial
  have h3 := h2.call .writer (i := ()) (.turn false) rfl (show Phase.outside ≠ .inside by decide)
    fun _ _ => trivial
  refine ⟨_, h3, rfl, rfl, rfl, fun hx => ?_⟩
  exact absurd (hx .reader .writer rfl rfl) (by decide)

/-! ### A report and a scan -/

/-- Place `i` of the table. -/
def place (info : ShmInfo) (i : ℕ) : DroppedRange := info.droppedRanges.getD i ⟨0, 0⟩

/-- A load from the fields of the ranges. -/
def look {α : Type} (get : ShmInfo → α) : Prog ShmInfo Unit α := Prog.access () get id

/-- A store to them. -/
def put (f : ShmInfo → ShmInfo) : Prog ShmInfo Unit Unit := Prog.access () (fun _ => ()) f

/-- The loop of `ab_was_dropped` load by load, from place `i` on, with `left` places to look at. -/
def abWasDropped (ab : AuxBuffer) : (left i : ℕ) → Prog ShmInfo Unit Bool
  | 0, _ => pure false
  | left + 1, i => do
    let last ← look fun info => (place info i).last
    if last = 0 then abWasDropped ab left (i + 1)
    else do
      let first ← look fun info => (place info i).first
      if first ≤ ab.firstEventId then do
        let last ← look fun info => (place info i).last
        if ab.lastEventId ≤ last then pure true else abWasDropped ab left (i + 1)
      else abWasDropped ab left (i + 1)

/-- A store to a field of place `i`. -/
def storeAt (i : ℕ) (f : DroppedRange → DroppedRange) : Prog ShmInfo Unit Unit :=
  put fun info => { info with droppedRanges := info.droppedRanges.modify i f }

/-- `vms_shm_buffer_notify_dropped` load by load and store by store. -/
def notifyDropped (beginId endId : ℕ) : Prog ShmInfo Unit Unit := do
  let idx ← look (·.droppedRangesNext)
  let first ← look fun info => (place info idx).first
  let last ← look fun info => (place info idx).last
  if first = beginId ∨ last = (first + (2 ^ 64 - 1)) % 2 ^ 64 then
    storeAt idx fun r => { r with last := endId }
  else do
    let next := if idx + 1 = ShmInfo.droppedRangesNum then 0 else idx + 1
    put fun info => { info with droppedRangesNext := next }
    storeAt next fun r => { r with first := beginId }
    storeAt next fun r => { r with last := endId }

@[simp] theorem look_run {α : Type} (get : ShmInfo → α) (info : ShmInfo) :
    (look get).run info = (get info, info) := rfl

@[simp] theorem put_run (f : ShmInfo → ShmInfo) (info : ShmInfo) : (put f).run info = ((), f info) :=
  rfl

/-- A scan into which no report falls finds what the table says. -/
theorem abWasDropped_run (ab : AuxBuffer) (info : ShmInfo) {left i : ℕ}
    (h : i + left = info.droppedRanges.length) :
    (abWasDropped ab left i).run info = (ab.wasDropped (info.droppedRanges.drop i), info) := by
  induction left generalizing i with
  | zero =>
    rw [List.drop_eq_nil_of_le (by omega)]
    rfl
  | succ left ih =>
    have hi : i < info.droppedRanges.length := by omega
    have hr : place info i = info.droppedRanges[i] := by
      rw [place, List.getD_eq_getElem?_getD, List.getElem?_eq_getElem hi]
      rfl
    have hrest := ih (i := i + 1) (by omega)
    rw [List.drop_eq_getElem_cons hi, AuxBuffer.wasDropped, List.any_cons, ← hr]
    unfold AuxBuffer.wasDropped at hrest
    rw [abWasDropped, Prog.run_bind, look_run]
    dsimp only
    by_cases h0 : (place info i).last = 0
    · rw [if_pos h0, hrest]
      simp [h0]
    rw [if_neg h0, Prog.run_bind, look_run]
    dsimp only
    by_cases h1 : (place info i).first ≤ ab.firstEventId
    · rw [if_pos h1, Prog.run_bind, look_run]
      dsimp only
      by_cases h2 : ab.lastEventId ≤ (place info i).last
      · rw [if_pos h2]
        simp [h0, h1, h2]
      · rw [if_neg h2, hrest]
        simp [h2]
    · rw [if_neg h1, hrest]
      simp [h1]

/-- Places of the table change one at a time. -/
theorem modify_place (l : List DroppedRange) (i : ℕ) (f : DroppedRange → DroppedRange) :
    l.modify i f = l.set i (f (l.getD i ⟨0, 0⟩)) := by
  rw [List.getD_eq_getElem?_getD]
  exact @List.modify_eq_set DroppedRange ⟨⟨0, 0⟩⟩ f i l

/-- A report that falls into no scan changes the table as a whole. -/
theorem notifyDropped_run (info : ShmInfo) (beginId endId : ℕ) :
    (notifyDropped beginId endId).run info = ((), info.notifyDropped beginId endId) := by
  rw [notifyDropped, Prog.run_bind, look_run]
  dsimp only
  rw [Prog.run_bind, look_run]
  dsimp only
  rw [Prog.run_bind, look_run]
  dsimp only
  -- the test of the program and that of the whole report read the same place
  unfold ShmInfo.notifyDropped place
  dsimp only
  split
  · rw [storeAt, put_run, modify_place]
  · rw [storeAt, storeAt, Prog.run_bind, put_run]
    dsimp only
    rw [Prog.run_bind, put_run, put_run]
    dsimp only
    rw [List.modify_modify_eq, modify_place]
    rfl

end DropLock

end Vamos
