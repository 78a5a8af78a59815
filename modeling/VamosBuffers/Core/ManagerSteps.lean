import Mathlib.Tactic
import VamosBuffers.Core.ArbiterRuns

/-! The manager of a stream in smaller steps. A turn of its loop is cut where a call returns whose
    answer matters, so that the answer is part of where the manager is:

        fetching ──▶ got ──▶ fetched ──write_ptr──▶ slot ──▶ top
           ▲          │         ▲
           │          ├──▶ sending ──push──▶ sent ──┘
           └─ dropped, rejected

        streamEnd ──push──▶ endSent ──▶ streamEnd ──▶ exited

    Cutting a turn changes nothing: the pieces put together are the turn, and the others may run
    between any two accesses anyway. Both filters are here, the one of
    `vms_stream_fetch_dropping_filter` and the one of the manager's own loop; what they say is up to
    the caller, event by event. -/

namespace Vamos
open Schemes

namespace StreamMem

/-! ### The pieces -/

/-- `vms_par_queue_push` in `push_dropped_event`, and what comes before it. -/
def pushHole (notifyId : ℕ) : StreamProg Bool := do
  let kind ← get .holeEvent (·.drop.holeEvent.kind)
  check (0 < kind)
  set .holeEvent fun d => { d with holeEvent := { d.holeEvent with id := notifyId } }
  let hole ← get .holeEvent (·.drop.holeEvent)
  onArb (Queue.push hole)

/-- What comes after it. -/
def afterHole (notifyId : ℕ) : StreamProg Unit := do
  set .totals fun d =>
    { d with totalDroppedNum := (d.totalDroppedNum + d.droppedNum) % 2 ^ 64,
             totalDroppedTimes := (d.totalDroppedTimes + 1) % 2 ^ 64 }
  let beginId ← get .dropBeginId (·.drop.dropBeginId)
  notifyDropped beginId notifyId
  checkFree

theorem pushDroppedEvent_eq (notifyId : ℕ) :
    pushDroppedEvent notifyId = pushHole notifyId >>= fun _ => afterHole notifyId := by
  simp only [pushDroppedEvent, pushHole, afterHole, Prog.bind_assoc]

/-- `send_dropped_event` up to the push. -/
def sendHole (lastEvId : ℕ) : StreamProg Bool := do
  let sum ← get .droppedNum fun m => (m.drop.droppedNum + m.drop.dropBeginId) % 2 ^ 64
  check (lastEvId = sum)
  pushHole (before lastEvId)

/-- The rest of `send_dropped_event`. -/
def afterSend (lastEvId : ℕ) : StreamProg Unit := do
  afterHole (before lastEvId)
  set .setDroppedNum fun d => { d with droppedNum := 0 }
  checkFree

theorem sendDroppedEvent_eq (lastEvId : ℕ) :
    sendDroppedEvent lastEvId = sendHole lastEvId >>= fun _ => afterSend lastEvId := by
  simp only [sendDroppedEvent, pushDroppedEvent_eq, sendHole, afterSend, Prog.bind_assoc]

/-- What `handle_dropping_event` decides. -/
inductive Verdict where
  | dropped
  | send
  | pass
  deriving DecidableEq, Repr

/-- `handle_dropping_event` up to the call of `send_dropped_event`. -/
def decideEvent (e : Event) : StreamProg Verdict := do
  let dropped ← get .droppedNum (·.drop.droppedNum)
  if 0 < dropped then do
    let above ← aboveThreshold
    if above then pure .send
    else do
      continueDropping e
      pure .dropped
  else do
    let free ← freeSpace
    if free = 0 then do
      startDropping e
      pure .dropped
    else do
      checkFree
      let dropped ← get .droppedNum (·.drop.droppedNum)
      check (dropped = 0)
      pure .pass

theorem handleDroppingEvent_eq (e : Event) : handleDroppingEvent e = decideEvent e >>= fun v =>
    match v with
    | .dropped => pure true
    | .send => do
      sendDroppedEvent e.id
      pure false
    | .pass => pure false := by
  unfold handleDroppingEvent decideEvent
  rw [Prog.bind_assoc]
  congr 1
  funext dropped
  split
  · rw [Prog.bind_assoc]
    congr 1
    funext above
    split
    · rfl
    · simp only [Prog.bind_assoc, Prog.pure_eq_ret, Prog.ret_bind]
  · rw [Prog.bind_assoc]
    congr 1
    funext free
    split
    · simp only [Prog.bind_assoc, Prog.pure_eq_ret, Prog.ret_bind]
    · simp only [Prog.bind_assoc, Prog.pure_eq_ret, Prog.ret_bind]

/-- Where the manager is. -/
inductive StepAt where
  /-- before a fetch -/
  | top
  /-- in the loop of `get_event` of a fetch -/
  | fetching (lastEvId : ℕ) (w : Spin)
  /-- the fetch has read the event at `p` -/
  | got (p : ℕ) (e : Event)
  /-- it calls `send_dropped_event` -/
  | sending (p : ℕ) (e : Event)
  /-- there, `vms_par_queue_push` has returned `ok` -/
  | sent (p lastEvId : ℕ) (ok : Bool)
  /-- the fetch has returned the event at `p` -/
  | fetched (p : ℕ)
  /-- `vms_arbiter_buffer_write_ptr` has returned `out` -/
  | slot (p : ℕ) (out : Option ℕ)
  /-- in the loop of `handle_stream_end` -/
  | streamEnd (lastEvId : ℕ) (w : Spin)
  /-- there, `vms_par_queue_push` has returned `ok` -/
  | endSent (lastEvId : ℕ) (w : Spin) (ok : Bool)
  | exited
  deriving DecidableEq, Repr

/-- One turn of the loop of a fetch, up to its filter. -/
def nextEvent (lastEvId : ℕ) (w : Spin) : StreamProg StepAt := do
  match ← getEvent w with
  | .again w => pure (.fetching lastEvId w)
  | .ended => pure (.streamEnd lastEvId .start)
  | .event p => do
    let e ← onShm (Queue.readSlot p)
    check (e.isHole = false)
    set .lastEventId fun d => { d with lastEventId := (d.lastEventId + 1) % 2 ^ 64 }
    let id ← get .lastEventId (·.drop.lastEventId)
    check (e.id = id)
    pure (.got p e)

/-- The rest of that turn, with what the filter says. -/
def filtered (p : ℕ) (e : Event) (accept : Bool) : StreamProg StepAt :=
  if accept then do
    match ← decideEvent e with
    | .dropped => pure (.fetching e.id .start)
    | .send => pure (.sending p e)
    | .pass => pure (.fetched p)
  else do
    let _ ← consume
    pure (.fetching e.id .start)

/-- The event at `p` goes into the slot and is consumed. -/
def putEvent (p : ℕ) (out : Option ℕ) : StreamProg StepAt :=
  match out with
  | some out => do
    let e ← onShm (Queue.readSlot p)
    onArb (Queue.fill out e)
    onArb Queue.writeFinish
    let _ ← consume
    pure .top
  | none => do
    check False
    pure .top

/-- One turn of the loop of `handle_stream_end`, up to the push. -/
def endTurn (lastEvId : ℕ) (w : Spin) : StreamProg StepAt := do
  let dropped ← get .atEnd (·.drop.droppedNum)
  if 0 < dropped then do
    let above ← aboveThreshold
    if above then do
      let ok ← pushHole (before lastEvId)
      pure (.endSent lastEvId w ok)
    else do
      let dropped ← get .droppedNum (·.drop.droppedNum)
      check (0 < dropped)
      pure (.streamEnd lastEvId (if w.short (10 * sleepTimeThresNs) then w.longer else w))
  else do
    let ready ← isReady
    check (ready = false)
    let dropped ← get .droppedNum (·.drop.droppedNum)
    check (dropped = 0)
    pure .exited

/-- The rest of that turn. -/
def afterEndSend (lastEvId : ℕ) : StreamProg Unit := do
  afterHole (before lastEvId)
  checkFree
  set .setDroppedNum fun d => { d with droppedNum := 0 }

/-- The manager, one step at a time. The answer is that of the filter at the location: of the fetch
    at `got`, of the manager's own loop at `fetched`. -/
def stepBody : StepAt → Bool → StreamProg StepAt
  | .top, _ => nextEvent 1 .start
  | .fetching lastEvId w, _ => nextEvent lastEvId w
  | .got p e, accept => filtered p e accept
  | .sending p e, _ => do
    let ok ← sendHole e.id
    pure (.sent p e.id ok)
  | .sent p lastEvId _, _ => do
    afterSend lastEvId
    pure (.fetched p)
  | .fetched p, keep =>
    if keep then do
      let out ← onArb Queue.writePtr
      pure (.slot p out)
    else do
      let _ ← consume
      pure .top
  | .slot p out, _ => putEvent p out
  | .streamEnd lastEvId w, _ => endTurn lastEvId w
  | .endSent lastEvId w _, _ => do
    afterEndSend lastEvId
    pure (.streamEnd lastEvId w)
  | .exited, _ => pure .exited

/-! ### The pieces together -/

/-- The same location. -/
def ManagerAt.step : ManagerAt → StepAt
  | .top => .top
  | .fetching lastEvId w => .fetching lastEvId w
  | .streamEnd lastEvId w => .streamEnd lastEvId w
  | .exited => .exited

/-- The steps up to the end of a turn, if the fetch has the filter `f` and the manager's loop has
    none. -/
def finishTurn (f : Event → Bool) : ℕ → StepAt → StreamProg ManagerAt
  | _, .top => pure .top
  | _, .fetching lastEvId w => pure (.fetching lastEvId w)
  | _, .streamEnd lastEvId w => pure (.streamEnd lastEvId w)
  | _, .exited => pure .exited
  | 0, _ => pure .exited
  | n + 1, .got p e => stepBody (.got p e) (f e) >>= finishTurn f n
  | n + 1, i => stepBody i true >>= finishTurn f n

theorem finishTurn_fetched (f : Event → Bool) (n p : ℕ) :
    finishTurn f (n + 2) (.fetched p) = forward p >>= fun _ => pure .top := by
  simp only [finishTurn, stepBody, forward, if_true, Prog.bind_assoc]
  congr 1
  funext out
  cases out with
  | none => simp [finishTurn, stepBody, putEvent, Prog.bind_assoc]
  | some out => simp [finishTurn, stepBody, putEvent, Prog.bind_assoc]

theorem finishTurn_sending (f : Event → Bool) (n p : ℕ) (e : Event) :
    finishTurn f (n + 4) (.sending p e) = sendDroppedEvent e.id >>= fun _ =>
      forward p >>= fun _ => pure .top := by
  simp only [sendDroppedEvent_eq, Prog.bind_assoc]
  rw [← finishTurn_fetched f n p]
  simp [finishTurn, stepBody, Prog.bind_assoc]

theorem finishTurn_got (f : Event → Bool) (n p : ℕ) (e : Event) :
    finishTurn f (n + 5) (.got p e) =
      if f e then handleDroppingEvent e >>= fun dropped =>
        if dropped then pure (.fetching e.id .start) else forward p >>= fun _ => pure .top
      else consume >>= fun _ => pure (.fetching e.id .start) := by
  rw [finishTurn, stepBody, filtered]
  split
  · rw [handleDroppingEvent_eq, Prog.bind_assoc, Prog.bind_assoc]
    congr 1
    funext v
    cases v with
    | dropped => rfl
    | send =>
      simp only [Prog.pure_eq_ret, Prog.ret_bind, Prog.bind_assoc]
      exact finishTurn_sending f n p e
    | pass => exact finishTurn_fetched f (n + 2) p
  · rw [Prog.bind_assoc]
    rfl

theorem fetchDropping_eq (f : Event → Bool) (last : ℕ) (w : Spin) :
    fetchDropping f last w = nextEvent last w >>= finishTurn f 5 := by
  unfold fetchDropping nextEvent
  rw [Prog.bind_assoc]
  congr 1
  funext g
  cases g with
  | again w => rfl
  | ended => rfl
  | event p => simp only [Prog.bind_assoc, Prog.pure_eq_ret, Prog.ret_bind, finishTurn_got f 0]

theorem handleStreamEnd_eq (f : Event → Bool) (last : ℕ) (w : Spin) :
    handleStreamEnd last w = endTurn last w >>= finishTurn f 5 := by
  unfold handleStreamEnd endTurn
  rw [Prog.bind_assoc]
  congr 1
  funext dropped
  split
  · rw [Prog.bind_assoc]
    congr 1
    funext above
    split
    · simp [pushDroppedEvent_eq, finishTurn, stepBody, afterEndSend, Prog.bind_assoc]
    · simp [finishTurn, Prog.bind_assoc]
  · simp [finishTurn, Prog.bind_assoc]

/-- A turn of the manager is its steps put together. -/
theorem managerBody_eq (f : Event → Bool) (i : ManagerAt) :
    managerBody f i = stepBody i.step true >>= finishTurn f 5 := by
  cases i with
  | top => exact fetchDropping_eq f 1 .start
  | fetching last w => exact fetchDropping_eq f last w
  | streamEnd last w => exact handleStreamEnd_eq f last w
  | exited => rfl

end StreamMem

end Vamos
