import Mathlib.Tactic
import VamosBuffers.Core.ArbiterManager
import VamosBuffers.Core.ArbiterSides

/-! A stream from its source to its arbiter, in any sequentially consistent interleaving of the three
    threads' loads and stores. Whatever the free space was at any moment, the items in the arbiter
    buffer tell of every event consumed from the SHM ring; `is_done` says yes only when the arbiter
    has removed all of them; and the items are in the order of their ids, but for the hole that the
    end of the stream may leave. -/

namespace Vamos
open Schemes

namespace StreamMem

/-! ### Threads -/

inductive Thread where
  | source | manager | arbiter
  deriving DecidableEq, Repr

/-- The source between two calls: it has pushed `n` events, or it has destroyed the buffer. -/
inductive SourceAt where
  | active (n : ℕ)
  | closed
  deriving DecidableEq, Repr

inductive SourceCall where
  | push (e : Event)
  | destroy
  deriving DecidableEq, Repr

/-- The arbiter between two calls, and what `is_done` said if that was the last one. -/
inductive ArbiterAt where
  | idle
  | done (r : Bool)
  deriving DecidableEq, Repr

inductive ArbiterCall where
  | drop (k : ℕ)
  | dropOlderThan (id : ℕ)
  | isDone
  deriving DecidableEq, Repr

/-- The source numbers its events from 1, pushes an event again that found no room, and pushes
    nothing after the end. -/
def sourceClient : Client StreamMem StreamAcc SourceAt SourceCall where
  enabled i x _ := match i, x with
    | .active n, .push e => e.id = n + 1 ∧ e.isHole = false ∧ e.id < 2 ^ 64
    | .active _, .destroy => True
    | .closed, _ => False
  body i x := match i, x with
    | .active n, .push e => do
      let ok ← shmPush e
      pure (.active (if ok then n + 1 else n))
    | .active _, .destroy => do
      shmDestroy
      pure .closed
    | .closed, _ => pure .closed

/-- The manager, in the runs that `allowed` admits. -/
def managerClient (f : Event → Bool) (allowed : StreamAcc → StreamMem → Prop) :
    Client StreamMem StreamAcc ManagerAt Unit where
  enabled _ _ _ := True
  body i _ := managerBody f i
  allowed := allowed

def arbiterClient : Client StreamMem StreamAcc ArbiterAt ArbiterCall where
  enabled _ x _ := match x with
    | .drop k => 0 < k ∧ k < 2 ^ 64
    | .dropOlderThan _ => True
    | .isDone => True
  body _ x := match x with
    | .drop k => do
      let _ ← bufferDrop k
      pure .idle
    | .dropOlderThan id => do
      let _ ← dropOlderThan id
      pure .idle
    | .isDone => do
      let r ← isDone
      pure (.done r)

abbrev At : Thread → Type
  | .source => SourceAt
  | .manager => ManagerAt
  | .arbiter => ArbiterAt

abbrev Call : Thread → Type
  | .source => SourceCall
  | .manager => Unit
  | .arbiter => ArbiterCall

def clients (f : Event → Bool) (allowed : StreamAcc → StreamMem → Prop) :
    (t : Thread) → Client StreamMem StreamAcc (At t) (Call t)
  | .source => sourceClient
  | .manager => managerClient f allowed
  | .arbiter => arbiterClient

abbrev StreamCfg : Type := Cfg StreamMem StreamAcc At

/-- How a stream and its arbiter buffer are set up. -/
structure Setup where
  shmCapacity : ℕ
  shmElemSize : ℕ
  shmData : ℕ → Event
  shmOk : (Queue.init shmCapacity shmElemSize shmData).ok = true
  shmFits : 24 ≤ shmElemSize
  capacity : ℕ
  elemSize : ℕ
  data : ℕ → Event
  ok : (Queue.init capacity elemSize data).ok = true
  fits : 24 ≤ elemSize
  /-- `assert(capacity >= 3)` of `vms_arbiter_buffer_init` -/
  large : 3 ≤ capacity
  dropSpaceThreshold : ℕ
  /-- the assertions of `vms_arbiter_buffer_set_drop_space_threshold` -/
  threshold : 1 ≤ dropSpaceThreshold ∧ dropSpaceThreshold < capacity
  /-- what `malloc` left in `drop_begin_id` and in the hole -/
  dropBeginId : ℕ
  holeEvent : Event

namespace Setup

/-- A new SHM buffer, and the arbiter buffer as `vms_arbiter_buffer_init` leaves it. -/
def mem (s : Setup) : StreamMem where
  shm := (Queue.init s.shmCapacity s.shmElemSize s.shmData).val
  destroyed := false
  info := .fresh
  arb := (Queue.init s.capacity s.elemSize s.data).val
  drop := ⟨s.dropSpaceThreshold, 0, 0, 0, s.dropBeginId, s.holeEvent, 0⟩

def prog : (t : Thread) → StreamProg (At t)
  | .source => .ret (.active 0)
  | .manager => .ret .top
  | .arbiter => .ret .idle

def start (s : Setup) : StreamCfg := ⟨s.mem, prog⟩

end Setup

/-! ### Runs -/

def role (f : Event → Bool) (strict : Prop) : Thread → Role StreamMem StreamAcc
  | .source => sourceRole
  | .manager => managerRole f strict
  | .arbiter => arbiterRole

/-- What each thread knows between two calls. -/
def Known (f : Event → Bool) (strict : Prop) : (t : Thread) → At t → StreamMem → Prop
  | .source, .active n, m => Active n m
  | .source, .closed, _ => True
  | .manager, i, m => ManagerKnows f strict i m
  | .arbiter, .done r, m => r = true → Done m
  | .arbiter, .idle, _ => True

section Runs

variable {f : Event → Bool} {strict : Prop} {allowed : StreamAcc → StreamMem → Prop}

/-- Each thread's steps are steps that the other two rely on. -/
theorem role_compat {t u : Thread} (htu : t ≠ u) {l : StreamAcc} {m m' : StreamMem}
    (hg : (role f strict t).guar l m m') : (role f strict u).rely m m' := by
  cases t with
  | source =>
    have hs : SourceStep m m' := hg
    have hd : m.destroyed ≠ true := by rw [hs.alive]; decide
    cases u with
    | source => exact absurd rfl htu
    | manager => exact ⟨hs.shm, fun h => absurd h hd, by rw [hs.arb]; exact .refl _, hs.drop⟩
    | arbiter =>
      exact ⟨by rw [hs.arb]; exact .refl _, fun h => absurd h hd, fun h => absurd h.1 hd⟩
  | manager =>
    have hs : ManagerStep m m' := hg
    cases u with
    | source => exact ⟨hs.shm, hs.destroyed⟩
    | manager => exact absurd rfl htu
    | arbiter => exact ⟨hs.arb, fun h => ⟨hs.destroyed.trans h, hs.shm⟩, hs.settled⟩
  | arbiter =>
    have hs : ArbiterStep m m' := hg
    cases u with
    | source => exact ⟨by rw [hs.shm]; exact .refl _, hs.destroyed⟩
    | manager =>
      exact ⟨by rw [hs.shm]; exact .refl _, fun h => ⟨hs.destroyed.trans h, hs.shm⟩, hs.arb, hs.drop⟩
    | arbiter => exact absurd rfl htu

theorem sourceClient_safe {i : SourceAt} {x : SourceCall} {m : StreamMem}
    (hm : StreamInv f strict m) (hk : Known f strict .source i m)
    (he : sourceClient.enabled i x m) :
    Safe (StreamInv f strict) sourceRole (Known f strict .source) (sourceClient.body i x) m := by
  cases i with
  | closed => exact he.elim
  | active n =>
    cases x with
    | push e =>
      obtain ⟨hid, hhole, hlt⟩ := he
      refine Safe.bind hm ((shmPush_safe hk hid hhole hlt).mono fun ok m1 _ ha => ?_)
      exact fun m2 h2 _ => ha.stable h2
    | destroy =>
      exact Safe.bind hm ((shmDestroy_safe hk).mono fun _ m1 _ _ => fun _ _ _ => trivial)

theorem arbiterClient_safe {i : ArbiterAt} {x : ArbiterCall} {m : StreamMem}
    (hm : StreamInv f strict m) (he : arbiterClient.enabled i x m) :
    Safe (StreamInv f strict) arbiterRole (Known f strict .arbiter) (arbiterClient.body i x) m := by
  cases x with
  | drop k =>
    refine Safe.bind hm ((bufferDrop_safe arbiter_removes hm fun e _ _ _ =>
      setLastProcessedId_safe e.id).mono fun _ m1 _ _ => fun _ _ _ => trivial)
  | dropOlderThan id =>
    refine Safe.bind hm ((dropOlderThan_safe arbiter_removes hm fun _ _ _ _ =>
      setLastProcessedId_safe id).mono fun _ m1 _ _ => fun _ _ _ => trivial)
  | isDone =>
    refine Safe.bind hm ((isDone_safe hm).mono fun r m1 _ hd => ?_)
    exact fun m2 h2 _ hr => (hd hr).stable h2

theorem clients_safe (f : Event → Bool) (strict : Prop) (allowed : StreamAcc → StreamMem → Prop)
    (hpre : ∀ l m, allowed l m → strict → EndsInOrder f l m) :
    (∀ t l m, (clients f allowed t).allowed l m → (role f strict t).pre l m) ∧
    ∀ t i x m, StreamInv f strict m → Known f strict t i m → (clients f allowed t).enabled i x m →
      Safe (StreamInv f strict) (role f strict t) (Known f strict t) ((clients f allowed t).body i x)
        m := by
  refine ⟨fun t l m ha => ?_, fun t i x m hm hk he => ?_⟩
  · cases t with
    | source => trivial
    | manager => exact hpre l m ha
    | arbiter => trivial
  · cases t with
    | source => exact sourceClient_safe hm hk he
    | manager => exact managerBody_safe hm hk
    | arbiter => exact arbiterClient_safe hm he

/-- A new stream: nothing pushed, nothing written. -/
theorem Setup.inv (s : Setup) : StreamInv f strict s.mem := by
  obtain ⟨hshm, -, hse⟩ := Queue.init_inv s.shmOk
  obtain ⟨harb, hac, hae⟩ := Queue.init_inv s.ok
  have hp : s.mem.shm.pushed = [] := rfl
  have ha : s.mem.arb.pushed = [] := rfl
  refine ⟨hshm, harb, hse.symm ▸ s.shmFits, hae.symm ▸ s.fits, ?_, (by decide : 0 < 2 ^ 64),
    ⟨s.threshold.1, s.threshold.2.trans_eq hac.symm⟩, ⟨[], List.nil_prefix, ?_⟩, fun _ => ?_,
    fun _ => ?_⟩
  · intro k e he
    rw [hp] at he
    cases he
  · rw [ha]; exact .nil
  · rw [ha]; exact .nil
  · rw [ha]; exact .nil

theorem Setup.known (s : Setup) (t : Thread) :
    Safe (StreamInv f strict) (role f strict t) (Known f strict t) (s.start.prog t) s.mem := by
  cases t with
  | source =>
    have h : Active 0 s.mem := ⟨rfl, rfl⟩
    exact fun m hr _ => h.stable hr
  | manager =>
    have ha : s.mem.arb.pushed = [] := rfl
    have h : ManagerKnows f strict .top s.mem := by
      refine ⟨⟨⟨[], rfl, by rw [ha]; exact .nil⟩, rfl, rfl, rfl, fun h => absurd rfl h, nofun, ?_⟩,
        by rw [ha]; exact .nil, rfl⟩
      rw [ha]
      exact fun _ a h => absurd h List.not_mem_nil
    exact ret_safe s.inv h
  | arbiter => exact fun _ _ _ => trivial

/-- Every configuration that a run reaches. -/
theorem reach_inv (s : Setup) (hpre : ∀ l m, allowed l m → strict → EndsInOrder f l m)
    {c : StreamCfg} (h : Reach (clients f allowed) s.start c) : StreamInv f strict c.mem ∧
      ∀ t, Safe (StreamInv f strict) (role f strict t) (Known f strict t) (c.prog t) c.mem := by
  obtain ⟨hp, hb⟩ := clients_safe f strict allowed hpre
  exact reach_safe (ρ := role f strict) (Q := Known f strict) hp
    (fun _ _ htu _ _ _ _ _ hg => role_compat htu hg) hb s.inv s.known h

/-! ### A short run

The arbiter buffer of `small` holds three items. Four events are pushed: three are forwarded and the
fourth is dropped. -/

def small : Setup where
  shmCapacity := 4
  shmElemSize := 24
  shmData _ := ⟨0, 0, 0⟩
  shmOk := by decide
  shmFits := by decide
  capacity := 3
  elemSize := 24
  data _ := ⟨0, 0, 0⟩
  ok := by decide
  fits := by decide
  large := by decide
  dropSpaceThreshold := 1
  threshold := by decide
  dropBeginId := 0
  holeEvent := ⟨0, 0, 0⟩

/-- The source pushes the event after the first `n`. -/
def pushes (n : ℕ) (c : StreamCfg) : StreamCfg :=
  (c.begin .source (sourceClient.body (.active n) (.push ⟨9, n + 1, 0⟩))).finish .source

/-- The manager makes a turn from location `i`. -/
def turns (i : ManagerAt) (c : StreamCfg) : StreamCfg :=
  (c.begin .manager (managerBody (fun _ => true) i)).finish .manager

theorem reach_pushes {c₀ c : StreamCfg} {n : ℕ} (h : Reach (clients (fun _ => true) allowed) c₀ c)
    (hp : c.prog .source = .ret (.active n)) (hn : n + 1 < 2 ^ 64) :
    Reach (clients (fun _ => true) allowed) c₀ (pushes n c) :=
  h.call .source (i := .active n) (.push ⟨9, n + 1, 0⟩) hp ⟨rfl, rfl, hn⟩ fun _ _ => trivial

/-- A turn before the end of the stream. -/
theorem reach_turns (ha : ∀ l m, l ≠ .atEnd → allowed l m) {c₀ c : StreamCfg} {i : ManagerAt}
    (h : Reach (clients (fun _ => true) allowed) c₀ c) (hp : c.prog .manager = .ret i)
    (hw : (managerBody (fun _ => true) i).within (fun l _ => l ≠ .atEnd) c.mem) :
    Reach (clients (fun _ => true) allowed) c₀ (turns i c) :=
  h.callIn .manager (i := i) () hp trivial (Prog.within_mono ha _ _ hw)

/-- The arbiter has removed two of the three items; the fourth event is counted in `dropped_num`. -/
def dropping : StreamCfg :=
  let c := pushes 3 (pushes 2 (pushes 1 (pushes 0 small.start)))
  let c := turns .top (turns .top (turns .top (turns .top c)))
  (c.begin .arbiter (arbiterClient.body .idle (.drop 2))).finish .arbiter

theorem reach_dropping (ha : ∀ l m, l ≠ .atEnd → allowed l m) :
    Reach (clients (fun _ => true) allowed) small.start dropping := by
  have h0 : Reach (clients (fun _ => true) allowed) small.start small.start := .start
  have h1 := reach_pushes (n := 0) h0 rfl (by decide)
  have h2 := reach_pushes (n := 1) h1 rfl (by decide)
  have h3 := reach_pushes (n := 2) h2 rfl (by decide)
  have h4 := reach_pushes (n := 3) h3 rfl (by decide)
  have h5 := reach_turns ha (i := .top) h4 rfl (by decide +kernel)
  have h6 := reach_turns ha (i := .top) h5 rfl (by decide +kernel)
  have h7 := reach_turns ha (i := .top) h6 rfl (by decide +kernel)
  have h8 := reach_turns ha (i := .top) h7 rfl (by decide +kernel)
  exact h8.call .arbiter (i := .idle) (.drop 2) rfl (by decide : 0 < 2 ∧ 2 < 2 ^ 64)
    fun _ _ => trivial

/-- A fifth event is pushed; the hole for the fourth one and the fifth event are written. -/
theorem reach_hole (ha : ∀ l m, l ≠ .atEnd → allowed l m) :
    Reach (clients (fun _ => true) allowed) small.start
      (turns (.fetching 4 .start) (pushes 4 dropping)) := by
  have h1 := reach_pushes (n := 4) (reach_dropping ha) rfl (by decide)
  exact reach_turns ha (i := .fetching 4 .start) h1 rfl (by decide +kernel)

/-! ### No event is lost -/

/-- No filter, and no restriction on the runs. -/
abbrev plain : (t : Thread) → Client StreamMem StreamAcc (At t) (Call t) :=
  clients (fun _ => true) fun _ _ => True

theorem accepted_all (m : StreamMem) :
    accepted (fun _ => true) m = m.shm.pushed.take m.shm.ring.consumed :=
  List.filter_eq_self.mpr fun _ _ => rfl

theorem reach_plain (s : Setup) {c : StreamCfg} (h : Reach plain s.start c) :
    StreamInv (fun _ => true) False c.mem ∧ ∀ t, Safe (StreamInv (fun _ => true) False)
      (role (fun _ => true) False t) (Known (fun _ => true) False t) (c.prog t) c.mem :=
  reach_inv s (fun _ _ _ hf => hf.elim) h

/-- Between two fetches, the items written to the arbiter buffer, with each hole replaced by the run
    of events it counts, are the events consumed from the SHM ring; and the totals say so. -/
theorem no_event_lost (s : Setup) {c : StreamCfg} (h : Reach plain s.start c)
    (hp : c.prog .manager = .ret .top ∨ c.prog .manager = .ret .exited) :
    Tells Event.isHole (fun hole ds => hole.n = ds.length) c.mem.arb.pushed
      (c.mem.shm.pushed.take c.mem.shm.ring.consumed) ∧
    c.mem.drop.totalDroppedNum = ((c.mem.arb.pushed.filter Event.isHole).map Event.n).sum ∧
    c.mem.drop.totalDroppedTimes = (c.mem.arb.pushed.filter Event.isHole).length := by
  obtain ⟨hm, hs⟩ := reach_plain s h
  have hl : Ledger (fun _ => true) False [] c.mem := by
    rcases hp with hp | hp
    · exact ((hs .manager).at_ret hm hp).1
    · exact ((hs .manager).at_ret hm hp).1
  refine ⟨?_, hl.num, hl.times⟩
  have ht := hl.tells
  rw [accepted_all] at ht
  exact ht.imp fun _ _ hst => hst.1

/-- Three events, a hole that stands for one, and another event. -/
theorem no_event_lost_five : ∃ c : StreamCfg, Reach plain small.start c ∧
    c.prog .manager = .ret .top ∧ c.mem.arb.pushed.map Event.isHole = [false, false, false, true, false] ∧
    Tells Event.isHole (fun hole ds => hole.n = ds.length) c.mem.arb.pushed
      (c.mem.shm.pushed.take c.mem.shm.ring.consumed) := by
  have h : Reach plain small.start _ := reach_hole fun _ _ _ => trivial
  exact ⟨_, h, rfl, rfl, (no_event_lost small h (.inl rfl)).1⟩

/-! ### Done is done -/

/-- Once everything is settled, nothing is pushed and nothing is written. -/
def Rests (m m' : StreamMem) : Prop :=
  Settled m → Settled m' ∧ m'.arb.pushed = m.arb.pushed ∧ m'.shm.pushed = m.shm.pushed

theorem Rests.trans {m m' m'' : StreamMem} (h : Rests m m') (h' : Rests m' m'') : Rests m m'' := by
  intro hs
  obtain ⟨hs1, ha1, hp1⟩ := h hs
  obtain ⟨hs2, ha2, hp2⟩ := h' hs1
  exact ⟨hs2, ha2.trans ha1, hp2.trans hp1⟩

theorem rests_of_guar (t : Thread) {l : StreamAcc} {m m' : StreamMem}
    (hg : (role f strict t).guar l m m') : Rests m m' := by
  intro hs
  cases t with
  | source =>
    have hst : SourceStep m m' := hg
    exact absurd (hst.alive.symm.trans hs.1) (by decide)
  | manager =>
    have hst : ManagerStep m m' := hg
    obtain ⟨hs', hw⟩ := hst.settled hs
    exact ⟨hs', hst.arb.pushed_eq hw, hst.shm.pushed⟩
  | arbiter =>
    have hst : ArbiterStep m m' := hg
    refine ⟨⟨hst.destroyed.trans hs.1, ?_, by rw [hst.drop]; exact hs.2.2⟩, hst.arb.pushed,
      by rw [hst.shm]⟩
    rw [hst.shm]; exact hs.2.1

/-- When `is_done` has returned true, the items that the arbiter has removed tell of everything the
    source has pushed or will push, and nothing more is written to the arbiter buffer. -/
theorem done_is_final (s : Setup) {c c' : StreamCfg} (h : Reach plain s.start c)
    (hd : c.prog .arbiter = .ret (.done true)) (h' : Reach plain c c') :
    Tells Event.isHole (fun hole ds => hole.n = ds.length)
      (c.mem.arb.pushed.take c.mem.arb.ring.consumed) c'.mem.shm.pushed ∧
    c'.mem.arb.pushed = c.mem.arb.pushed := by
  obtain ⟨hm, hs⟩ := reach_plain s h
  obtain ⟨hset, hempty⟩ : Done c.mem := (hs .arbiter).at_ret hm hd rfl
  obtain ⟨hp, hb⟩ := clients_safe (fun _ => true) False (fun _ _ => True) fun _ _ _ hf => hf.elim
  have hr : Rests c.mem c'.mem := reach_related (R := Rests) (ρ := role (fun _ => true) False)
    (Q := Known (fun _ => true) False) hp (fun _ _ htu _ _ _ _ _ hg => role_compat htu hg) hb
    (fun _ hs => ⟨hs, rfl, rfl⟩) Rests.trans (fun t _ _ _ hg => rests_of_guar t hg) hm hs h'
  obtain ⟨-, ha, hshm⟩ := hr hset
  refine ⟨?_, ha⟩
  have hall : c.mem.arb.pushed.take c.mem.arb.ring.consumed = c.mem.arb.pushed := by
    rw [hempty, ← hm.arb.pushed_length, List.take_length]
  have hall' : c.mem.shm.pushed.take c.mem.shm.ring.consumed = c.mem.shm.pushed := by
    rw [hset.2.1, ← hm.shm.pushed_length, List.take_length]
  have ht := hm.quiet hset.2
  rw [accepted_all, hall'] at ht
  rw [hall, hshm]
  exact ht.imp fun _ _ hst => hst.1

/-- One event is pushed, forwarded and removed, and the buffer is destroyed. -/
theorem done_is_final_one : ∃ c : StreamCfg, Reach plain small.start c ∧
    c.prog .arbiter = .ret (.done true) ∧ c.mem.shm.ring.written = 1 ∧
    Tells Event.isHole (fun hole ds => hole.n = ds.length)
      (c.mem.arb.pushed.take c.mem.arb.ring.consumed) c.mem.shm.pushed := by
  have h0 : Reach plain small.start _ := .start
  have h1 := h0.call .source (i := .active 0) (.push ⟨9, 1, 0⟩) rfl ⟨rfl, rfl, by decide⟩
    fun _ _ => trivial
  have h2 := h1.call .manager (i := .top) () rfl trivial fun _ _ => trivial
  have h3 := h2.call .source (i := .active 1) .destroy rfl trivial fun _ _ => trivial
  have h4 := h3.call .arbiter (i := .idle) (.drop 1) rfl (by decide : 0 < 1 ∧ 1 < 2 ^ 64)
    fun _ _ => trivial
  have h5 := h4.call .arbiter (i := .idle) .isDone rfl trivial fun _ _ => trivial
  exact ⟨_, h5, rfl, rfl, (done_is_final small h5 rfl .start).1⟩

/-! ### Ids -/

/-- In the runs in which the stream ends in order, whatever the filter and the free space: the ids of
    the items written to the arbiter buffer increase, and no event is younger than the hole that
    stands for it. -/
theorem ids_increase (s : Setup) (f : Event → Bool) {c : StreamCfg}
    (h : Reach (clients f (EndsInOrder f)) s.start c) :
    c.mem.arb.pushed.Pairwise (fun a b => a.id < b.id) ∧
    ∃ events, events <+: c.mem.shm.pushed.filter f ∧
      Tells Event.isHole (fun hole ds => hole.n = ds.length ∧ ∀ d ∈ ds, d.id ≤ hole.id)
        c.mem.arb.pushed events := by
  have hpre : ∀ l m, EndsInOrder f l m → True → EndsInOrder f l m := fun _ _ ha _ => ha
  obtain ⟨hm, -⟩ := reach_inv s hpre h
  obtain ⟨E, hE, ht⟩ := hm.items
  exact ⟨hm.ids trivial, E, hE, ht.imp fun _ _ hst => ⟨hst.1, hst.2 trivial⟩⟩

/-- A hole and the events around it. -/
theorem ids_increase_five : ∃ c : StreamCfg,
    Reach (clients (fun _ => true) (EndsInOrder fun _ => true)) small.start c ∧
    c.mem.arb.pushed.map Event.id = [1, 2, 3, 4, 5] ∧
    c.mem.arb.pushed.Pairwise (fun a b => a.id < b.id) := by
  have h : Reach (clients (fun _ => true) (EndsInOrder fun _ => true)) small.start _ :=
    reach_hole fun _ _ hl h => absurd h hl
  exact ⟨_, h, rfl, (ids_increase small _ h).1⟩

/-- `get_event` after `n` more turns on an empty ring, if none of them asks `is_ready`. -/
def waited : ℕ → Spin → Option Spin
  | 0, w => some w
  | n + 1, w =>
    if w.tick.tired then
      if w.tick.short sleepTimeThresNs then waited n w.tick.longer else none
    else waited n w.tick

/-- A turn that finds the ring empty and does not ask only counts. -/
theorem fetchDropping_idle (f : Event → Bool) (last : ℕ) {n : ℕ} {w w' : Spin} {m : StreamMem}
    (h : readEvents.run m = (none, m)) (hw : waited (n + 1) w = some w') :
    ∃ v, (fetchDropping f last w).run m = (.fetching last v, m) ∧ waited n v = some w' := by
  have hrun : ∀ v, (getEvent w).run m = (.again v, m) →
      (fetchDropping f last w).run m = (.fetching last v, m) := by
    intro v hv
    unfold fetchDropping
    rw [Prog.run_bind, hv]
    rfl
  have hget : (getEvent w).run m = (if w.tick.tired then
      if w.tick.short sleepTimeThresNs then pure (.again w.tick.longer)
      else do
        let ready ← isReady
        if ready then pure (.again w.tick) else pure .ended
      else pure (.again w.tick) : StreamProg Got).run m := by
    unfold getEvent
    rw [Prog.run_bind, h]
  unfold waited at hw
  split at hw
  case isTrue ht =>
    split at hw
    case isTrue hs =>
      refine ⟨w.tick.longer, hrun _ ?_, hw⟩
      rw [hget, if_pos ht, if_pos hs]
      rfl
    case isFalse => cases hw
  case isFalse ht =>
    refine ⟨w.tick, hrun _ ?_, hw⟩
    rw [hget, if_neg ht]
    rfl

/-- As long as the ring stays empty, the manager waits. -/
theorem reach_idle {c₀ c : StreamCfg} {last : ℕ} {w w' : Spin} (n : ℕ)
    (hw : waited n w = some w') (h : Reach plain c₀ c)
    (hp : c.prog .manager = .ret (.fetching last w)) (hr : readEvents.run c.mem = (none, c.mem)) :
    Reach plain c₀ ⟨c.mem, Function.update c.prog .manager (.ret (.fetching last w'))⟩ := by
  induction n generalizing w c with
  | zero =>
    obtain rfl : w = w' := Option.some.inj hw
    rw [← hp, Function.update_eq_self]
    exact h
  | succ n ih =>
    obtain ⟨v, hb, hv⟩ := fetchDropping_idle (fun _ => true) last hr hw
    have hc := h.call .manager (i := .fetching last w) () hp trivial fun _ _ => trivial
    have hb : ((plain .manager).body (.fetching last w) ()).run c.mem =
        (.fetching last v, c.mem) := hb
    simp only [Cfg.begin, Cfg.finish, Function.update_self, Function.update_idem, hb] at hc
    have hd := ih hv hc (by dsimp only; rw [Function.update_self]) hr
    simpa only [Function.update_idem] using hd

/-- The stream ends while the fourth event is dropped: the hole for it has the id 3. -/
theorem ids_repeat : ¬ ∀ c : StreamCfg, Reach plain small.start c →
    c.mem.arb.pushed.Pairwise fun a b => a.id < b.id := by
  intro hall
  have h0 : Reach plain small.start dropping := reach_dropping fun _ _ _ => trivial
  have h1 := h0.call .source (i := .active 4) .destroy rfl trivial fun _ _ => trivial
  have h2 := h1.call .manager (i := .fetching 4 .start) () rfl trivial fun _ _ => trivial
  have hw : waited 1011 ⟨1, 10⟩ = some ⟨1012, 40960⟩ := by decide +kernel
  have h3 := reach_idle 1011 hw h2 rfl rfl
  have h4 := h3.call .manager (i := .fetching 4 ⟨1012, 40960⟩) () rfl trivial fun _ _ => trivial
  have h5 := h4.call .manager (i := .streamEnd 4 .start) () rfl trivial fun _ _ => trivial
  exact absurd (hall _ h5) (by decide)

end Runs

end StreamMem

end Vamos
