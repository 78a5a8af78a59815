import Mathlib.Tactic
import VamosBuffers.Core.ArbiterDrops
import VamosBuffers.Schemes.RoundRobin

/-! `default_process_events` of `src/core/shamon.c`: each call takes from one of the arbiter buffers. A
    static counter goes round them; it is advanced before the buffer is looked at, left past the end
    when nothing was found, and set back only by the next call.

        enter     i := 0 if i is past the end
        turn      i < size:  look at buffer i, ++i;  take and return, or go on
                  else:      return NULL

    Events arrive in the buffers at any time, and `shamon_add_stream` appends buffers between the
    calls. A step is one turn of the loop. All buffers are active. The test for a buffer that is
    nearly full is floating point, so it is a parameter. -/

namespace Vamos
open Schemes

namespace StreamMem

/-- Take from a buffer of capacity `c` whose first event is `inevent`: half of it goes if it is nearly
    full, else the one event. What is returned is the event that `shmn->_ev`, which held `ev`, holds
    then; `vms_stream_prepare_hole_event` sets only its id. -/
def takeItem (nearlyFull : Bool) (c : ℕ) (ev inevent : Event) : StreamProg (Option Event) :=
  if nearlyFull then do
    let k ← bufferDrop (c / 2)
    check (k ≠ 0)
    check (0 < ev.kind)
    pure (some { ev with id := inevent.id })
  else do
    let n ← bufferDrop 1
    check (n = 1)
    pure (some inevent)

/-- The body of the loop: take from the buffer if it is not empty. -/
def takeFrom (nearlyFull : ℕ → ℕ → Bool) (ev : Event) : StreamProg (Option Event) := do
  let (qsize, p) ← onArb Queue.peek1
  match p with
  | none => pure none
  | some p => do
    let inevent ← onArb (Queue.readSlot p)
    let c ← get .threshold (·.arb.capacity)
    takeItem (nearlyFull qsize c) c ev inevent

end StreamMem

/-- `struct shamon` with the static counter of `default_process_events`, and whether a call is going
    on. -/
structure Shamon where
  buffers : List StreamMem
  ev : Event
  i : ℕ
  inCall : Bool

namespace Shamon

/-- What one turn of the loop comes to. -/
inductive Outcome where
  | took (j : ℕ) (ev : Event)
  | passed (j : ℕ)
  | null
  deriving DecidableEq, Repr

inductive Act where
  | enter
  | turn (o : Outcome)
  | arrive (j : ℕ)
  | append
  deriving DecidableEq, Repr

/-- No buffers, and no call yet; `malloc` left something in `_ev`. -/
def create (ev : Event) : Shamon := ⟨[], ev, 0, false⟩

/-- The call begins: reset the counter if it is at the end. -/
def enter (s : Shamon) : Shamon :=
  { s with i := if s.buffers.length ≤ s.i then 0 else s.i, inCall := true }

/-- One turn of the loop of `default_process_events`. -/
def turn (nearlyFull : ℕ → ℕ → Bool) (s : Shamon) : Outcome × Shamon :=
  match s.buffers[s.i]? with
  | none => (.null, { s with inCall := false })
  | some m =>
    let r := (StreamMem.takeFrom nearlyFull s.ev).run m
    let s' := { s with buffers := s.buffers.set s.i r.2, i := (s.i + 1) % 2 ^ 32 }
    match r.1 with
    | some ev => (.took s.i ev, { s' with ev := ev, inCall := false })
    | none => (.passed s.i, s')

/-- The manager pushes an event into buffer `j`. -/
def arrive (s : Shamon) (j : ℕ) (e : Event) : Shamon :=
  { s with buffers := s.buffers.modify j fun m => ((StreamMem.onArb (Queue.push e)).run m).2 }

/-- `shamon_add_stream`. -/
def append (s : Shamon) (b : StreamMem.Setup) : Shamon := { s with buffers := s.buffers ++ [b.mem] }

/-- One step of a run. -/
inductive Step (nearlyFull : ℕ → ℕ → Bool) (s : Shamon) : Act → Shamon → Prop
  | enter (h : s.inCall = false) : Step nearlyFull s .enter s.enter
  | turn (h : s.inCall = true) :
      Step nearlyFull s (.turn (s.turn nearlyFull).1) (s.turn nearlyFull).2
  | arrive (j : ℕ) (e : Event) : Step nearlyFull s (.arrive j) (s.arrive j e)
  | append (h : s.inCall = false) (b : StreamMem.Setup) : Step nearlyFull s .append (s.append b)

/-- A run whose states all have the property `P`. -/
inductive Run (nearlyFull : ℕ → ℕ → Bool) (P : Shamon → Prop) (s₀ : Shamon) :
    List Act → Shamon → Prop
  | start : P s₀ → Run nearlyFull P s₀ [] s₀
  | step {acts : List Act} {a : Act} {s s' : Shamon} : Run nearlyFull P s₀ acts s →
      Step nearlyFull s a s' → P s' → Run nearlyFull P s₀ (acts ++ [a]) s'

/-- The states that runs of a new instance reach. -/
def Reached (nearlyFull : ℕ → ℕ → Bool) (s : Shamon) : Prop :=
  ∃ ev acts, Run nearlyFull (fun _ => True) (create ev) acts s

/-- Buffer `j` is there and not empty. -/
def NonEmpty (j : ℕ) (s : Shamon) : Prop := ∃ m, s.buffers[j]? = some m ∧ m.arb.content ≠ []

/-- Does the step take from buffer `j`? -/
def Act.takes (j : ℕ) : Act → Bool
  | .turn (.took k _) => k == j
  | _ => false

/-- Does the step find buffer `j` empty? -/
def Act.findsEmpty (j : ℕ) : Act → Bool
  | .turn (.passed k) => k == j
  | _ => false

/-- The buffer that the step looks at. -/
def Act.look : Act → Option ℕ
  | .turn (.took k _) => some k
  | .turn (.passed k) => some k
  | _ => none

/-! ### The buffers -/

/-- What is kept of each buffer: a slot holds an event or the hole. -/
structure BufferOk (m : StreamMem) : Prop where
  arb : Queue.QueueInv m.arb
  size : 24 ≤ m.arb.elemSize

theorem bufferDrop_ok {m : StreamMem} (h : BufferOk m) (k : ℕ) :
    BufferOk ((StreamMem.bufferDrop k).run m).2 ∧
      Queue.ConsumerMoves m.arb ((StreamMem.bufferDrop k).run m).2.arb := by
  have hs := h.size
  obtain ⟨hi, hm, -⟩ := StreamMem.bufferDrop_run h.arb (by omega) k
  exact ⟨⟨hi, hm.elemSize ▸ hs⟩, hm⟩

/-- What is taken, and what is returned. -/
theorem takeItem_run (nearlyFull : Bool) (c : ℕ) (ev inevent : Event) (m : StreamMem) :
    (StreamMem.takeItem nearlyFull c ev inevent).run m =
      (some (if nearlyFull then { ev with id := inevent.id } else inevent),
        ((StreamMem.bufferDrop (if nearlyFull then c / 2 else 1)).run m).2) := by
  cases nearlyFull <;> simp [StreamMem.takeItem, StreamMem.check]

/-- The body of the loop takes something unless the buffer is empty. -/
theorem takeFrom_run {m : StreamMem} (h : BufferOk m) (nearlyFull : ℕ → ℕ → Bool) (ev : Event) :
    BufferOk ((StreamMem.takeFrom nearlyFull ev).run m).2 ∧
      Queue.ConsumerMoves m.arb ((StreamMem.takeFrom nearlyFull ev).run m).2.arb ∧
      (((StreamMem.takeFrom nearlyFull ev).run m).1 = none ↔ m.arb.content = []) := by
  obtain ⟨hi, hm, -, hnil, -⟩ := Queue.peek1_run h.arb
  rw [← hnil]
  unfold StreamMem.takeFrom
  simp only [Prog.run_bind, StreamMem.run_onArb]
  generalize Queue.peek1.run m.arb = r at hi hm ⊢
  obtain ⟨⟨qsize, p⟩, q⟩ := r
  have hok : BufferOk { m with arb := q } := ⟨hi, hm.elemSize ▸ h.size⟩
  cases p with
  | none => simpa using ⟨hok, hm⟩
  | some p =>
    have hrest := takeItem_run (nearlyFull qsize q.capacity) q.capacity ev (q.data p)
      { m with arb := q }
    obtain ⟨hok', hm'⟩ := bufferDrop_ok hok (if nearlyFull qsize q.capacity then q.capacity / 2 else 1)
    refine ⟨?_, ?_, ?_⟩
    · simpa [StreamMem.get, Queue.readSlot, hrest] using hok'
    · simpa [StreamMem.get, Queue.readSlot, hrest] using hm.trans hm'
    · simp [StreamMem.get, Queue.readSlot, hrest]

/-- Every buffer is well formed, and the counter is a 32-bit word. -/
structure Ok (s : Shamon) : Prop where
  buffers : ∀ m ∈ s.buffers, BufferOk m
  counter : s.i < 2 ^ 32

section Runs

variable {nearlyFull : ℕ → ℕ → Bool} {P : Shamon → Prop} {s s' s₀ : Shamon} {a : Act}
  {acts : List Act}

/-- What one turn of the loop can do. -/
theorem turn_cases (nearlyFull : ℕ → ℕ → Bool) (s : Shamon) :
    (s.buffers.length ≤ s.i ∧ s.turn nearlyFull = (.null, { s with inCall := false })) ∨
    ∃ m, s.buffers[s.i]? = some m ∧
      let r := (StreamMem.takeFrom nearlyFull s.ev).run m
      let s' := { s with buffers := s.buffers.set s.i r.2, i := (s.i + 1) % 2 ^ 32 }
      (∃ ev, r.1 = some ev ∧
        s.turn nearlyFull = (.took s.i ev, { s' with ev := ev, inCall := false })) ∨
      r.1 = none ∧ s.turn nearlyFull = (.passed s.i, s') := by
  unfold turn
  cases hb : s.buffers[s.i]? with
  | none => exact .inl ⟨List.getElem?_eq_none_iff.mp hb, rfl⟩
  | some m =>
    refine .inr ⟨m, rfl, ?_⟩
    dsimp only
    cases (StreamMem.takeFrom nearlyFull s.ev).run m with
    | mk r m' =>
      cases r with
      | none => exact .inr ⟨rfl, rfl⟩
      | some ev => exact .inl ⟨ev, rfl, rfl⟩

/-- What `takeFrom` and `push` keep of a buffer, and a new one has, all buffers have after a step. -/
theorem Step.buffers {B : StreamMem → Prop}
    (htake : ∀ m ev, B m → B ((StreamMem.takeFrom nearlyFull ev).run m).2)
    (hpush : ∀ m e, B m → B ((StreamMem.onArb (Queue.push e)).run m).2)
    (hnew : ∀ b : StreamMem.Setup, B b.mem) (h : Step nearlyFull s a s')
    (hs : ∀ m ∈ s.buffers, B m) : ∀ m ∈ s'.buffers, B m := by
  intro m hm
  cases h with
  | enter _ => exact hs m hm
  | turn _ =>
    rcases turn_cases nearlyFull s with ⟨-, he⟩ | ⟨m', hm', hr⟩
    · rw [he] at hm
      exact hs m hm
    · have hset : m ∈ s.buffers.set s.i ((StreamMem.takeFrom nearlyFull s.ev).run m').2 := by
        rcases hr with ⟨ev, -, he⟩ | ⟨-, he⟩
        · rw [he] at hm; exact hm
        · rw [he] at hm; exact hm
      rcases List.mem_or_eq_of_mem_set hset with hin | rfl
      · exact hs m hin
      · exact htake m' s.ev (hs m' (List.mem_of_getElem? hm'))
  | arrive j e =>
    obtain ⟨k, hk⟩ := List.mem_iff_getElem?.mp hm
    have hk : (s.buffers.modify j _)[k]? = some m := hk
    rw [List.getElem?_modify] at hk
    obtain ⟨m', hm', rfl⟩ := Option.map_eq_some_iff.mp hk
    have hin := hs m' (List.mem_of_getElem? hm')
    split
    · exact hpush m' e hin
    · exact hin
  | append _ b =>
    rcases List.mem_append.mp hm with hin | hin
    · exact hs m hin
    · obtain rfl := List.mem_singleton.mp hin
      exact hnew b

theorem push_ok {m : StreamMem} (h : BufferOk m) (e : Event) :
    BufferOk ((StreamMem.onArb (Queue.push e)).run m).2 := by
  obtain ⟨hi, hs⟩ := Queue.push_run (x := e) h.arb h.size
  rw [StreamMem.run_onArb]
  exact ⟨hi, hs.elemSize ▸ h.size⟩

theorem setup_ok (b : StreamMem.Setup) : BufferOk b.mem := by
  obtain ⟨hi, -, he⟩ := Queue.init_inv b.ok
  exact ⟨hi, he.symm ▸ b.fits⟩

theorem create_ok (ev : Event) : Ok (create ev) := ⟨nofun, by show 0 < 2 ^ 32; decide⟩

theorem Ok.enter (hs : Ok s) : Ok s.enter := by
  refine ⟨hs.buffers, ?_⟩
  have := hs.counter
  simp only [Shamon.enter]
  split <;> omega

theorem Step.ok (h : Step nearlyFull s a s') (hs : Ok s) : Ok s' := by
  refine ⟨h.buffers (fun _ ev hm => (takeFrom_run hm nearlyFull ev).1) (fun _ e hm => push_ok hm e)
    setup_ok hs.buffers, ?_⟩
  have hi := hs.counter
  have hlt : (s.i + 1) % 2 ^ 32 < 2 ^ 32 := Nat.mod_lt _ (by decide)
  cases h with
  | enter _ => exact hs.enter.counter
  | turn _ =>
    rcases turn_cases nearlyFull s with ⟨-, he⟩ | ⟨m, -, ⟨ev, -, he⟩ | ⟨-, he⟩⟩
    · rw [he]; exact hi
    · rw [he]; exact hlt
    · rw [he]; exact hlt
  | arrive j e => exact hi
  | append _ b => exact hi

theorem Run.ok (h : Run nearlyFull P s₀ acts s) (h₀ : Ok s₀) : Ok s := by
  induction h with
  | start _ => exact h₀
  | step _ hst _ ih => exact hst.ok ih

theorem Reached.ok (h : Reached nearlyFull s) : Ok s := by
  obtain ⟨ev, acts, hr⟩ := h
  exact hr.ok (create_ok ev)

/-! ### The counter -/

/-- The counter and the number of buffers. -/
def wheel (s : Shamon) : Wheel := ⟨s.i, s.buffers.length⟩

theorem Step.wheel (h : Step nearlyFull s a s') : Wheel.Step (2 ^ 32) s.wheel a.look s'.wheel := by
  have stay : ∀ s' : Shamon, s'.i = s.i → s'.buffers.length = s.buffers.length →
      Wheel.Step (2 ^ 32) s.wheel none s'.wheel := by
    intro s' hi hl
    have : s'.wheel = ⟨s.wheel.pos, s'.buffers.length⟩ := by rw [Shamon.wheel, hi]; rfl
    rw [this]
    exact .grow hl.ge
  cases h with
  | enter _ =>
    by_cases hi : s.buffers.length ≤ s.i
    · have : s.enter.wheel = ⟨0, s.wheel.size⟩ := by simp [Shamon.wheel, Shamon.enter, hi]
      rw [this]
      exact .reset hi
    · exact stay _ (by simp [Shamon.enter, hi]) rfl
  | turn _ =>
    rcases turn_cases nearlyFull s with ⟨-, he⟩ | ⟨m, hm, ⟨ev, -, he⟩ | ⟨-, he⟩⟩
    · rw [he]; exact stay _ rfl rfl
    · have hlt : s.wheel.pos < s.wheel.size := (List.getElem?_eq_some_iff.mp hm).1
      have hl := Wheel.Step.look (W := 2 ^ 32) hlt
      rw [he]
      simpa [Shamon.wheel, Act.look] using hl
    · have hlt : s.wheel.pos < s.wheel.size := (List.getElem?_eq_some_iff.mp hm).1
      have hl := Wheel.Step.look (W := 2 ^ 32) hlt
      rw [he]
      simpa [Shamon.wheel, Act.look] using hl
  | arrive j e => exact stay _ rfl (by simp [Shamon.arrive])
  | append _ b =>
    have : (s.append b).wheel = ⟨s.wheel.pos, s.buffers.length + 1⟩ := by
      simp [Shamon.wheel, Shamon.append]
    rw [this]
    exact .grow (Nat.le_succ _)

theorem filterMap_look (a : Act) : [a].filterMap Act.look = a.look.toList := by
  rw [List.filterMap_cons]
  cases a.look <;> rfl

theorem Run.turns (h : Run nearlyFull P s₀ acts s) :
    Wheel.Turns (2 ^ 32) s₀.wheel (acts.filterMap Act.look) s.wheel := by
  induction h with
  | start _ => exact .start
  | step _ hst _ ih =>
    rw [List.filterMap_append, filterMap_look]
    exact ih.step hst.wheel

/-- A look takes or finds nothing. -/
theorem count_looks (j : ℕ) (acts : List Act) :
    (acts.filterMap Act.look).count j =
      acts.countP (Act.takes j) + acts.countP (Act.findsEmpty j) := by
  induction acts with
  | nil => rfl
  | cons a acts ih =>
    rw [← List.singleton_append, List.filterMap_append, filterMap_look, List.count_append, ih,
      List.countP_append, List.countP_append]
    cases a with
    | turn o => cases o <;> simp [Act.look, Act.takes, Act.findsEmpty, List.count_singleton] <;>
        omega
    | _ => simp [Act.look, Act.takes, Act.findsEmpty]

theorem Run.holds (h : Run nearlyFull P s₀ acts s) : P s := by
  cases h with
  | start hp => exact hp
  | step _ _ hp => exact hp

/-- A step that takes from buffer `j`: the counter stood there and has moved on. -/
theorem Step.took {j : ℕ} {ev : Event} (h : Step nearlyFull s (.turn (.took j ev)) s') :
    s.i = j ∧ j < s.buffers.length ∧ s'.wheel = ⟨(j + 1) % 2 ^ 32, s.buffers.length⟩ := by
  generalize hact : Act.turn (.took j ev) = act at h
  cases h with
  | enter _ => cases hact
  | arrive _ _ => cases hact
  | append _ _ => cases hact
  | turn _ =>
    rcases turn_cases nearlyFull s with ⟨-, he⟩ | ⟨m, hm, ⟨ev', -, he⟩ | ⟨-, he⟩⟩
    · rw [he] at hact; cases hact
    · rw [he] at hact ⊢
      cases hact
      exact ⟨rfl, (List.getElem?_eq_some_iff.mp hm).1, by simp [Shamon.wheel]⟩
    · rw [he] at hact; cases hact

/-- A buffer that is not empty is not found empty. -/
theorem Step.not_findsEmpty {j : ℕ} (h : Step nearlyFull s a s') (hs : Ok s) (hj : NonEmpty j s) :
    a.findsEmpty j = false := by
  cases h with
  | enter _ => rfl
  | arrive _ _ => rfl
  | append _ _ => rfl
  | turn _ =>
    rcases turn_cases nearlyFull s with ⟨-, he⟩ | ⟨m, hm, ⟨ev, -, he⟩ | ⟨hr, he⟩⟩
    · rw [he]; rfl
    · rw [he]; rfl
    · rw [he]
      refine beq_false_of_ne fun hij => ?_
      obtain ⟨m', hm', hne⟩ := hj
      rw [← hij, hm] at hm'
      obtain rfl := Option.some.inj hm'
      exact hne ((takeFrom_run (hs.buffers m (List.mem_of_getElem? hm)) nearlyFull s.ev).2.2.mp hr)

theorem Run.not_findsEmpty {j : ℕ} (h : Run nearlyFull (NonEmpty j) s₀ acts s) (h₀ : Ok s₀) :
    acts.countP (Act.findsEmpty j) = 0 := by
  induction h with
  | start _ => rfl
  | step hr hst _ ih =>
    rw [List.countP_append, ih, List.countP_singleton, hst.not_findsEmpty (hr.ok h₀) hr.holds]
    rfl

end Runs

/-- Round robin, in every run of an instance and for every pattern of arrivals: from one call that
    takes from buffer `b` to the next such call, another buffer that was there and is never empty is
    taken from once, and once more each time that a call in between finds `b` empty. -/
theorem round_robin {nearlyFull : ℕ → ℕ → Bool} {s₀ s₁ s₂ s₃ : Shamon} {a b : ℕ} {ev ev' : Event}
    {acts : List Act} (h₀ : Reached nearlyFull s₀)
    (h₁ : Step nearlyFull s₀ (.turn (.took b ev)) s₁)
    (hrun : Run nearlyFull (NonEmpty a) s₁ acts s₂)
    (h₂ : Step nearlyFull s₂ (.turn (.took b ev')) s₃) (hno : acts.countP (Act.takes b) = 0)
    (hab : a ≠ b) (ha : a < s₀.buffers.length) (hword : a < 2 ^ 32) :
    acts.countP (Act.takes a) = acts.countP (Act.findsEmpty b) + 1 := by
  obtain ⟨hi, hb, hw⟩ := h₁.took
  have hok := h₀.ok
  have hturns := hrun.turns
  rw [hw] at hturns
  have hbword : b < 2 ^ 32 := hi ▸ hok.counter
  have hcount := hturns.count h₂.took.1 hab.symm hb ha hbword hword
  rw [count_looks, count_looks, hno, hrun.not_findsEmpty (h₁.ok hok)] at hcount
  omega

/-! ### Two buffers -/

/-- `qsize > 0.8 * c`, where the product is exact. -/
def overFourFifths (qsize c : ℕ) : Bool := decide (4 * c < 5 * qsize)

/-- Two small buffers. Three events have arrived in the first and one in the second, one of the three
    has been taken, and a call has begun that will look at the second buffer. -/
def twoBuffers : Shamon :=
  let s := ((create ⟨0, 0, 0⟩).append StreamMem.small).append StreamMem.small
  let s := ((s.arrive 0 ⟨9, 1, 0⟩).arrive 0 ⟨9, 2, 0⟩).arrive 1 ⟨9, 1, 0⟩
  let s := (s.enter.turn overFourFifths).2
  (s.arrive 0 ⟨9, 3, 0⟩).enter

theorem twoBuffers_reached : Reached overFourFifths twoBuffers := by
  have r0 : Run overFourFifths (fun _ => True) (create ⟨0, 0, 0⟩) [] _ := .start trivial
  have r1 := r0.step (.append rfl StreamMem.small) trivial
  have r2 := r1.step (.append rfl StreamMem.small) trivial
  have r3 := r2.step (.arrive 0 ⟨9, 1, 0⟩) trivial
  have r4 := r3.step (.arrive 0 ⟨9, 2, 0⟩) trivial
  have r5 := r4.step (.arrive 1 ⟨9, 1, 0⟩) trivial
  have r6 := r5.step (.enter rfl) trivial
  have r7 := r6.step (.turn rfl) trivial
  have r8 := r7.step (.arrive 0 ⟨9, 3, 0⟩) trivial
  have r9 := r8.step (.enter rfl) trivial
  exact ⟨_, _, r9⟩

/-- The second buffer is taken from, gets another event and is taken from again: the first buffer is
    taken from once in between. -/
theorem round_robin_two : ∃ s₁ s₂ s₃ acts ev ev',
    Step overFourFifths twoBuffers (.turn (.took 1 ev)) s₁ ∧
    Run overFourFifths (NonEmpty 0) s₁ acts s₂ ∧
    Step overFourFifths s₂ (.turn (.took 1 ev')) s₃ ∧ acts.countP (Act.findsEmpty 1) = 0 ∧
    acts.countP (Act.takes 0) = acts.countP (Act.findsEmpty 1) + 1 := by
  have h₁ : Step overFourFifths twoBuffers (.turn (.took 1 ⟨9, 1, 0⟩)) _ := .turn rfl
  have r0 : Run overFourFifths (NonEmpty 0) (twoBuffers.turn overFourFifths).2 [] _ :=
    .start ⟨_, rfl, List.cons_ne_nil _ _⟩
  have r1 := r0.step (.arrive 1 ⟨9, 2, 0⟩) ⟨_, rfl, List.cons_ne_nil _ _⟩
  have r2 := r1.step (.enter rfl) ⟨_, rfl, List.cons_ne_nil _ _⟩
  have r3 := r2.step (.turn rfl) ⟨_, rfl, List.cons_ne_nil _ _⟩
  have r4 := r3.step (.enter rfl) ⟨_, rfl, List.cons_ne_nil _ _⟩
  exact ⟨_, _, _, _, ⟨9, 1, 0⟩, ⟨9, 2, 0⟩, h₁, r4, .turn rfl, rfl, round_robin twoBuffers_reached h₁ r4
    (show Step _ _ (.turn (.took 1 ⟨9, 2, 0⟩)) _ from .turn rfl) rfl (by decide) (by decide)
    (by decide)⟩

/-- The second buffer is empty after it is taken from, a call finds it so and returns `NULL`, and an
    event arrives there only later: the first buffer is taken from twice in between. -/
theorem round_robin_twice : ∃ s₁ s₂ s₃ acts ev ev', Reached overFourFifths twoBuffers ∧
    Step overFourFifths twoBuffers (.turn (.took 1 ev)) s₁ ∧
    Run overFourFifths (NonEmpty 0) s₁ acts s₂ ∧
    Step overFourFifths s₂ (.turn (.took 1 ev')) s₃ ∧ acts.countP (Act.takes 1) = 0 ∧
    0 < twoBuffers.buffers.length ∧ acts.countP (Act.takes 0) = 2 := by
  have h₁ : Step overFourFifths twoBuffers (.turn (.took 1 ⟨9, 1, 0⟩)) _ := .turn rfl
  have r0 : Run overFourFifths (NonEmpty 0) (twoBuffers.turn overFourFifths).2 [] _ :=
    .start ⟨_, rfl, List.cons_ne_nil _ _⟩
  have r1 := r0.step (.enter rfl) ⟨_, rfl, List.cons_ne_nil _ _⟩
  have r2 := r1.step (.turn rfl) ⟨_, rfl, List.cons_ne_nil _ _⟩
  have r3 := r2.step (.arrive 0 ⟨9, 4, 0⟩) ⟨_, rfl, List.cons_ne_nil _ _⟩
  have r4 := r3.step (.enter rfl) ⟨_, rfl, List.cons_ne_nil _ _⟩
  have r5 := r4.step (.turn rfl) ⟨_, rfl, List.cons_ne_nil _ _⟩
  have r6 := r5.step (.turn rfl) ⟨_, rfl, List.cons_ne_nil _ _⟩
  have r7 := r6.step (.enter rfl) ⟨_, rfl, List.cons_ne_nil _ _⟩
  have r8 := r7.step (.turn rfl) ⟨_, rfl, List.cons_ne_nil _ _⟩
  have r9 := r8.step (.arrive 1 ⟨9, 2, 0⟩) ⟨_, rfl, List.cons_ne_nil _ _⟩
  have r10 := r9.step (.enter rfl) ⟨_, rfl, List.cons_ne_nil _ _⟩
  exact ⟨_, _, _, _, ⟨9, 1, 0⟩, ⟨9, 2, 0⟩, twoBuffers_reached, h₁, r10, .turn rfl, rfl, by decide, rfl⟩

end Shamon

end Vamos
