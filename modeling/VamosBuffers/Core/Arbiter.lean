import Mathlib.Tactic
import VamosBuffers.Core.Event
import VamosBuffers.Shmbuf.BufferAux

/-! `src/core/arbiter.c` and the buffer manager of `src/core/shamon.c`. The manager carries events
    from the SHM ring of a stream to an arbiter buffer. When the arbiter buffer is full it starts to
    drop, counting; when there is room again it first writes a hole with the count.

        source ──push──▶ SHM ring ──▶ manager ──write──▶ arbiter buffer ──▶ arbiter
          └─ destroyed                   │
                           dropped_num, hole_event, totals

    The waiting loops (`get_event`, the end of the stream) are the manager's locations: each turn of
    a loop is one call. `drop_space_threshold` is set before the threads start. -/

namespace Vamos
open Schemes

/-- The fields of `vms_arbiter_buffer` that only the manager writes, and `stream->last_event_id` of
    the debug build. -/
structure Dropping where
  dropSpaceThreshold : ℕ
  droppedNum : ℕ
  totalDroppedTimes : ℕ
  totalDroppedNum : ℕ
  dropBeginId : ℕ
  holeEvent : Event
  lastEventId : ℕ
  deriving DecidableEq, Repr

/-- A stream's SHM buffer and the arbiter buffer that the stream feeds. -/
structure StreamMem where
  /-- the ring and the slots of the SHM buffer -/
  shm : Queue Event
  destroyed : Bool
  info : ShmInfo
  /-- `buffer->buffer` -/
  arb : Queue Event
  drop : Dropping

/-- The accesses. `atEnd` is the load of `dropped_num` at the head of the loop of
    `handle_stream_end`. -/
inductive StreamAcc where
  | shm (l : Acc QueueLoc)
  | arb (l : Acc QueueLoc)
  | destroyed | setDestroyed | notify | lastEventId
  | threshold | droppedNum | atEnd | setDroppedNum | totals | dropBeginId | holeEvent
  | lastProcessedId | setLastProcessedId
  deriving DecidableEq, Repr

abbrev StreamProg (α : Type) : Type := Prog StreamMem StreamAcc α

/-! ### Search

How many of the events in the queue are not younger than `id`? The events lie in one run or in two,
and `drop_older_than` searches the run that the last event of the first one points to. -/

namespace Queue

/-- The event at `events + i * elem_size`. -/
def eventAt (events elemSize i : ℕ) : QueueProg Event Event := do
  let d ← Prog.ofChk (Chk.mul i elemSize)
  let p ← Prog.ofChk (Chk.add events d)
  readSlot p

/-- The body of the binary search: `bot` and `top` after a look at the event at `pivot`. -/
def narrow (id evId bot top pivot : ℕ) : Chk (ℕ × ℕ) :=
  if id < evId then
    if pivot = 0 then do
      Chk.require (bot = 0)
      Chk.require (top = 1)
      pure (bot, 0)
    else do
      let top ← Chk.sub pivot 1
      pure (bot, top)
  else
    if bot = pivot then do
      Chk.require (top = bot + 1)
      pure (if evId = id then (bot, bot) else (top, top))
    else pure (pivot, top)

/-- The binary search: the number of events to drop, `skip` of which lie before `events`. The first
    argument is what `assert(steps++ < n)` leaves. -/
def searchOlder (id events elemSize skip : ℕ) : ℕ → ℕ → ℕ → QueueProg Event ℕ
  | 0, _, _ => .fault (pure skip)
  | steps + 1, bot, top => do
    Prog.ofChk (Chk.require (bot ≤ top))
    let sum ← Prog.ofChk (Chk.add bot top)
    let ev ← eventAt events elemSize (sum / 2)
    let (bot, top) ← Prog.ofChk (narrow id ev.id bot top (sum / 2))
    Prog.ofChk (Chk.require (bot ≤ top))
    if top = bot then do
      let ev ← eventAt events elemSize top
      if id < ev.id then pure (skip + top) else pure (skip + (top + 1))
    else searchOlder id events elemSize skip steps bot top

/-- One turn of the search: the number of events to drop, or the new `bot` and `top`. -/
def searchTurn (id events elemSize skip bot top : ℕ) : QueueProg Event (ℕ ⊕ ℕ × ℕ) := do
  Prog.ofChk (Chk.require (bot ≤ top))
  let sum ← Prog.ofChk (Chk.add bot top)
  let ev ← eventAt events elemSize (sum / 2)
  let (bot, top) ← Prog.ofChk (narrow id ev.id bot top (sum / 2))
  Prog.ofChk (Chk.require (bot ≤ top))
  if top = bot then do
    let ev ← eventAt events elemSize top
    if id < ev.id then pure (.inl (skip + top)) else pure (.inl (skip + (top + 1)))
  else pure (.inr (bot, top))

/-- The search of a build without assertions, in which nothing counts the steps: what the first
    `fuel` turns come to, `none` if the search is still going on. -/
def searchLoop (id events elemSize skip : ℕ) : ℕ → ℕ → ℕ → QueueProg Event (Option ℕ)
  | 0, _, _ => pure none
  | fuel + 1, bot, top => do
    match ← searchTurn id events elemSize skip bot top with
    | .inl k => pure (some k)
    | .inr (bot, top) => searchLoop id events elemSize skip fuel bot top

/-- `k` of `vms_arbiter_buffer_drop_older_than` for a `search` over the run at `events`, of `n` events
    in all, from `top` on; `found` says what the search returns when it finds a number. -/
def olderNumBy {β : Type} (search : (events elemSize skip n top : ℕ) → QueueProg Event β)
    (found : ℕ → β) (id : ℕ) : QueueProg Event β := do
  let (n, r) ← peek 0
  match r with
  | none => pure (found 0)
  | some (ptr1, len1, len2) => do
    let elemSize ← Prog.load .elemSize (·.elemSize)
    Prog.ofChk (Chk.require (0 < len1))
    let top ← Prog.ofChk (Chk.sub len1 1)
    let ev ← eventAt ptr1 elemSize top
    -- `events == ptr1` tells the two runs apart afterwards
    let skip := fun events => if events = ptr1 then 0 else len1
    if id ≤ ev.id then search ptr1 elemSize (skip ptr1) n top
    else if 0 < len2 then do
      let top ← Prog.ofChk (Chk.sub len2 1)
      search 0 elemSize (skip 0) n top
    else pure (found len1)

/-- `k` of `vms_arbiter_buffer_drop_older_than`. -/
def olderNum (id : ℕ) : QueueProg Event ℕ :=
  olderNumBy (fun events elemSize skip n top => do
    let k ← searchOlder id events elemSize skip n 0 top
    Prog.ofChk (Chk.require (k ≤ n))
    pure k) (fun k => k) id

/-- `k` of a build without assertions, if the search ends within `fuel` turns. -/
def olderNumLoop (fuel id : ℕ) : QueueProg Event (Option ℕ) :=
  olderNumBy (fun events elemSize skip _ top => searchLoop id events elemSize skip fuel 0 top)
    some id

end Queue

namespace StreamMem

def shmLens : Lens StreamMem (Queue Event) where
  get m := m.shm
  set q m := { m with shm := q }
  get_set _ _ := rfl
  set_get _ := rfl

def arbLens : Lens StreamMem (Queue Event) where
  get m := m.arb
  set q m := { m with arb := q }
  get_set _ _ := rfl
  set_get _ := rfl

/-- A call on the SHM buffer's ring and slots. -/
def onShm {α : Type} (p : QueueProg Event α) : StreamProg α := p.zoom shmLens .shm

/-- A call on the arbiter buffer's queue. -/
def onArb {α : Type} (p : QueueProg Event α) : StreamProg α := p.zoom arbLens .arb

/-- A load of a field. -/
def get {α : Type} (l : StreamAcc) (f : StreamMem → α) : StreamProg α :=
  Prog.access l f fun m => m

/-- A store to one of the manager's fields. -/
def set (l : StreamAcc) (f : Dropping → Dropping) : StreamProg Unit :=
  Prog.access l (fun _ => ()) fun m => { m with drop := f m.drop }

/-- `assert(p)`. -/
def check (p : Prop) [Decidable p] : StreamProg Unit := Prog.ofChk (Chk.require p)

/-! ### Source -/

/-- `assert(!destroyed && "Writing to a destroyed buffer")`. -/
def checkAlive : StreamProg Unit := do
  let destroyed ← get .destroyed (·.destroyed)
  check (destroyed = false)

/-- `vms_shm_buffer_start_push`. -/
def shmStartPush : StreamProg (Option ℕ) := do
  checkAlive
  onShm Queue.writePtr

/-- `vms_shm_buffer_finish_push`. -/
def shmFinishPush : StreamProg Unit := do
  checkAlive
  onShm Queue.writeFinish

/-- `vms_shm_buffer_push`. -/
def shmPush (e : Event) : StreamProg Bool := do
  checkAlive
  let elemSize ← onShm (Prog.load .elemSize (·.elemSize))
  check (Slot.size e ≤ elemSize)
  match ← shmStartPush with
  | some p => do
    onShm (Queue.fill p e)
    shmFinishPush
    pure true
  | none => pure false

/-- `vms_shm_buffer_destroy`, as far as the other side sees it. -/
def shmDestroy : StreamProg Unit :=
  Prog.access .setDestroyed (fun _ => ()) fun m => { m with destroyed := true }

/-! ### Stream -/

/-- `generic_is_ready`. The callbacks of the streams of regular expressions ask the same, of the buffer
    in their own object; a stream of calls asks `READER_IS_READY` in the place of `destroyed`. -/
def isReady : StreamProg Bool := do
  let destroyed ← get .destroyed (·.destroyed)
  if destroyed then do
    let n ← onShm Queue.size
    pure (decide (0 < n))
  else pure true

/-- `vms_stream_read_events`: the slot of the next event, or `NULL`. -/
def readEvents : StreamProg (Option ℕ) := onShm Queue.top

/-- `vms_stream_consume(stream, 1)`. -/
def consume : StreamProg Bool := do
  let k ← onShm (Queue.onRing (Ringbuf.consumeUpto 1))
  pure (k == 1)

/-- `vms_arbiter_buffer_notify_dropped`, as one step: no scan of the table comes between its stores.
    `drop_ranges_lock` is meant to see to that, and does not. -/
def notifyDropped (beginId endId : ℕ) : StreamProg Unit :=
  Prog.access .notify (fun _ => ()) fun m => { m with info := m.info.notifyDropped beginId endId }

/-- What one turn of the loop of `get_event` comes to. -/
inductive Got where
  | event (p : ℕ)
  | again (w : Spin)
  | ended

/-- One turn of the loop of `get_event`: readiness is checked only after a long wait. -/
def getEvent (w : Spin) : StreamProg Got := do
  match ← readEvents with
  | some p => pure (.event p)
  | none =>
    let w := w.tick
    if w.tired then
      if w.short sleepTimeThresNs then pure (.again w.longer)
      else do
        let ready ← isReady
        if ready then pure (.again w) else pure .ended
    else pure (.again w)

/-! ### Arbiter buffer -/

/-- `vms_arbiter_buffer_free_space`. -/
def freeSpace : StreamProg ℕ := onArb Queue.freeNum

/-- `assert(vms_arbiter_buffer_free_space(buffer) > 0)`. -/
def checkFree : StreamProg Unit := do
  let free ← freeSpace
  check (0 < free)

/-- `push_dropped_event`. What `vms_par_queue_push` returns is not looked at. -/
def pushDroppedEvent (notifyId : ℕ) : StreamProg Unit := do
  let kind ← get .holeEvent (·.drop.holeEvent.kind)
  check (0 < kind)
  set .holeEvent fun d => { d with holeEvent := { d.holeEvent with id := notifyId } }
  let hole ← get .holeEvent (·.drop.holeEvent)
  let _ ← onArb (Queue.push hole)
  set .totals fun d =>
    { d with totalDroppedNum := (d.totalDroppedNum + d.droppedNum) % 2 ^ 64,
             totalDroppedTimes := (d.totalDroppedTimes + 1) % 2 ^ 64 }
  let beginId ← get .dropBeginId (·.drop.dropBeginId)
  notifyDropped beginId notifyId
  checkFree

/-- `last_ev_id - 1`. -/
def before (evId : ℕ) : ℕ := (evId + (2 ^ 64 - 1)) % 2 ^ 64

/-- `send_dropped_event`. -/
def sendDroppedEvent (lastEvId : ℕ) : StreamProg Unit := do
  let sum ← get .droppedNum fun m => (m.drop.droppedNum + m.drop.dropBeginId) % 2 ^ 64
  check (lastEvId = sum)
  pushDroppedEvent (before lastEvId)
  set .setDroppedNum fun d => { d with droppedNum := 0 }
  checkFree

/-- `start_dropping`. -/
def startDropping (e : Event) : StreamProg Unit := do
  set .dropBeginId fun d => { d with dropBeginId := e.id }
  let dropped ← get .droppedNum (·.drop.droppedNum)
  check (dropped = 0)
  set .setDroppedNum fun d => { d with droppedNum := (d.droppedNum + 1) % 2 ^ 64 }
  set .holeEvent fun d => { d with holeEvent := d.holeEvent.holeInit }
  set .holeEvent fun d => { d with holeEvent := d.holeEvent.holeUpdate }
  let _ ← consume

/-- `continue_dropping`. -/
def continueDropping (e : Event) : StreamProg Unit := do
  set .setDroppedNum fun d => { d with droppedNum := (d.droppedNum + 1) % 2 ^ 64 }
  set .holeEvent fun d => { d with holeEvent := d.holeEvent.holeUpdate }
  let dropped ← get .droppedNum (·.drop.droppedNum)
  if dropped % 10000 = 0 then do
    let beginId ← get .dropBeginId (·.drop.dropBeginId)
    notifyDropped beginId (before e.id)
    let _ ← consume
  else do
    let _ ← consume

/-- `assert(drop_space_threshold < capacity)`, and then whether there is more free space than
    that. -/
def aboveThreshold : StreamProg Bool := do
  let (t, c) ← get .threshold fun m => (m.drop.dropSpaceThreshold, m.arb.capacity)
  check (t < c)
  let free ← freeSpace
  pure (decide (t < free))

/-- `handle_dropping_event`: is the event dropped? -/
def handleDroppingEvent (e : Event) : StreamProg Bool := do
  let dropped ← get .droppedNum (·.drop.droppedNum)
  if 0 < dropped then do
    let above ← aboveThreshold
    if above then do
      sendDroppedEvent e.id
      pure false
    else do
      continueDropping e
      pure true
  else do
    let free ← freeSpace
    if free = 0 then do
      startDropping e
      pure true
    else do
      checkFree
      let dropped ← get .droppedNum (·.drop.droppedNum)
      check (dropped = 0)
      pure false

/-! ### Manager -/

/-- Where the manager is: before a fetch, in the loop of `get_event` of a fetch, in the loop of
    `handle_stream_end`, or at its end. -/
inductive ManagerAt where
  | top
  | fetching (lastEvId : ℕ) (w : Spin)
  | streamEnd (lastEvId : ℕ) (w : Spin)
  | exited
  deriving DecidableEq, Repr

/-- The rest of the loop of `default_buffer_manager_thrd`: the event at `p` is written to the arbiter
    buffer and consumed. -/
def forward (p : ℕ) : StreamProg Unit := do
  let out ← onArb Queue.writePtr
  match out with
  | some out => do
    let e ← onShm (Queue.readSlot p)
    onArb (Queue.fill out e)
    onArb Queue.writeFinish
    let _ ← consume
  | none => check False

/-- One turn of the loop of `vms_stream_fetch_dropping_filter`; without a filter,
    `vms_stream_fetch_dropping`. -/
def fetchDropping (filter : Event → Bool) (lastEvId : ℕ) (w : Spin) : StreamProg ManagerAt := do
  match ← getEvent w with
  | .again w => pure (.fetching lastEvId w)
  | .ended => pure (.streamEnd lastEvId .start)
  | .event p => do
    let e ← onShm (Queue.readSlot p)
    check (e.isHole = false)
    set .lastEventId fun d => { d with lastEventId := (d.lastEventId + 1) % 2 ^ 64 }
    let id ← get .lastEventId (·.drop.lastEventId)
    check (e.id = id)
    if filter e then do
      let dropped ← handleDroppingEvent e
      if dropped then pure (.fetching e.id .start)
      else do
        forward p
        pure .top
    else do
      let _ ← consume
      pure (.fetching e.id .start)

/-- One turn of the loop of `handle_stream_end`. -/
def handleStreamEnd (lastEvId : ℕ) (w : Spin) : StreamProg ManagerAt := do
  let dropped ← get .atEnd (·.drop.droppedNum)
  if 0 < dropped then do
    let above ← aboveThreshold
    if above then do
      pushDroppedEvent (before lastEvId)
      checkFree
      set .setDroppedNum fun d => { d with droppedNum := 0 }
      pure (.streamEnd lastEvId w)
    else do
      let dropped ← get .droppedNum (·.drop.droppedNum)
      check (0 < dropped)
      pure (.streamEnd lastEvId (if w.short (10 * sleepTimeThresNs) then w.longer else w))
  else do
    let ready ← isReady
    check (ready = false)
    let dropped ← get .droppedNum (·.drop.droppedNum)
    check (dropped = 0)
    pure .exited

/-- `default_buffer_manager_thrd`, a turn of a loop at a time. -/
def managerBody (filter : Event → Bool) : ManagerAt → StreamProg ManagerAt
  | .top => fetchDropping filter 1 .start
  | .fetching lastEvId w => fetchDropping filter lastEvId w
  | .streamEnd lastEvId w => handleStreamEnd lastEvId w
  | .exited => pure .exited

/-! ### Arbiter -/

/-- `vms_shm_buffer_set_last_processed_id`. -/
def setLastProcessedId (id : ℕ) : StreamProg Unit := do
  let last ← get .lastProcessedId (·.info.lastProcessedId)
  check (last ≤ id)
  Prog.access .setLastProcessedId (fun _ => ()) fun m =>
    { m with info := { m.info with lastProcessedId := id } }

/-- `vms_arbiter_buffer_drop`. -/
def bufferDrop (k : ℕ) : StreamProg ℕ := do
  match ← onArb (Queue.peekAtmostAt ((k + (2 ^ 64 - 1)) % 2 ^ 64)) with
  | (i, some p) => do
    let ev ← onArb (Queue.readSlot p)
    let k := (i + 1) % 2 ^ 64
    onArb (Queue.drop k)
    setLastProcessedId ev.id
    pure k
  | (_, none) => pure 0

/-- `vms_arbiter_buffer_drop_older_than`: it is `id` that is reported, whatever was dropped. -/
def dropOlderThan (id : ℕ) : StreamProg ℕ := do
  let k ← onArb (Queue.olderNum id)
  if 0 < k then do
    onArb (Queue.drop k)
    setLastProcessedId id
    pure k
  else pure k

/-- The same in a build without assertions, if the search ends within `fuel` turns. -/
def dropOlderThanLoop (fuel id : ℕ) : StreamProg (Option ℕ) := do
  match ← onArb (Queue.olderNumLoop fuel id) with
  | none => pure none
  | some k =>
    if 0 < k then do
      onArb (Queue.drop k)
      setLastProcessedId id
      pure (some k)
    else pure (some k)

/-- `buffer->dropped_num == 0 && vms_par_queue_size(&buffer->buffer) == 0`. -/
def isDrained : StreamProg Bool := do
  let dropped ← get .droppedNum (·.drop.droppedNum)
  if dropped = 0 then do
    let n ← onArb Queue.size
    pure (n == 0)
  else pure false

/-- `vms_arbiter_buffer_is_done`. -/
def isDone : StreamProg Bool := do
  let drained ← isDrained
  if drained then do
    let ready ← isReady
    if ready then pure false else isDrained
  else pure false

end StreamMem

end Vamos
