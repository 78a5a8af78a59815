import Mathlib.Tactic
import VamosBuffers.Core.ArbiterRuns

/-! What the arbiter reports back to the source. `drop` and `drop_older_than` both end with a store to
    `last_processed_id`, and the source reuses the memory of every event up to it.

        drop(k)                  reports the id of the item removed last
        drop_older_than(id)      reports `id`

    The second is right exactly when `id` is the id of an item in the buffer, or is older than
    everything that is there or may come. -/

namespace Vamos
open Schemes

namespace StreamMem

/-! ### The invariant -/

/-- The reported id is not above the ids of the items removed. -/
def Covered (m : StreamMem) : Prop :=
  m.info.lastProcessedId = 0 ∨
    ∃ e ∈ m.arb.pushed.take m.arb.ring.consumed, m.info.lastProcessedId ≤ e.id

structure DropInv (m : StreamMem) : Prop where
  arb : Queue.QueueInv m.arb
  size : 24 ≤ m.arb.elemSize
  ids : m.arb.pushed.Pairwise fun a b => a.id < b.id
  covered : Covered m

/-- What the pushing thread may change. -/
structure PusherStep (m m' : StreamMem) : Prop where
  arb : Queue.ProducerStep m.arb m'.arb
  info : m'.info = m.info

/-- What the arbiter may change: the reported id only grows. -/
structure RemoverStep (m m' : StreamMem) : Prop where
  arb : Queue.ConsumerMoves m.arb m'.arb
  reported : m.info.lastProcessedId ≤ m'.info.lastProcessedId

theorem PusherStep.refl (m : StreamMem) : PusherStep m m := ⟨.refl _, rfl⟩

theorem RemoverStep.refl (m : StreamMem) : RemoverStep m m := ⟨.refl _, le_rfl⟩

theorem PusherStep.trans {m m' m'' : StreamMem} (h : PusherStep m m') (h' : PusherStep m' m'') :
    PusherStep m m'' := ⟨h.arb.trans h'.arb, h'.info.trans h.info⟩

theorem RemoverStep.trans {m m' m'' : StreamMem} (h : RemoverStep m m') (h' : RemoverStep m' m'') :
    RemoverStep m m'' := ⟨h.arb.trans h'.arb, h.reported.trans h'.reported⟩

def pusherRole : Role StreamMem StreamAcc where
  rely := RemoverStep
  guar _ := PusherStep
  refl := RemoverStep.refl
  trans := RemoverStep.trans

/-- The arbiter, past the failed assertions of the binary search. -/
def removerRole : Role StreamMem StreamAcc where
  rely := PusherStep
  guar _ := RemoverStep
  refl := PusherStep.refl
  trans := PusherStep.trans
  lenient := True

/-! ### Pushing -/

theorem DropInv.producerStep {m : StreamMem} {q : Queue Event} (h : DropInv m)
    (hq : Queue.QueueInv q) (hs : Queue.ProducerStep m.arb q)
    (hids : q.pushed.Pairwise fun a b => a.id < b.id) : DropInv { m with arb := q } := by
  refine ⟨hq, hs.elemSize ▸ h.size, hids, ?_⟩
  rcases h.covered with h0 | ⟨e, he, hle⟩
  · exact .inl h0
  · refine .inr ⟨e, ?_, hle⟩
    show e ∈ q.pushed.take q.ring.consumed
    have hlen : m.arb.ring.consumed ≤ m.arb.pushed.length := by
      rw [h.arb.pushed_length]; exact h.arb.ring.consumed_le
    obtain ⟨t, ht⟩ := hs.pushed_grows
    rw [hs.ring.consumed, ← ht, List.take_append_of_le_length hlen]
    exact he

/-- A call of the pusher that publishes nothing. -/
theorem pusher_asks {α : Type} {p : QueueProg Event α} {Q : α → Queue Event → Prop}
    {pushed : List Event} {m : StreamMem} (hp : m.arb.pushed = pushed)
    (hs : Safe Queue.QueueInv (Queue.producerRole 0) Q p m.arb) :
    Safe DropInv pusherRole (fun a m' => Q a m'.arb ∧ m'.arb.pushed = pushed) (onArb p) m := by
  refine Safe.zoom (I := DropInv) (ρ := pusherRole) (L := arbLens) (φ := StreamAcc.arb) (p := p)
    (s := m) (fun m' => m'.arb.pushed = pushed) (fun m' i => i.arb)
    (fun m' m'' _ hr _ => hr.arb) (fun _ _ _ => trivial)
    (fun m' m'' hp' hr _ => hr.arb.pushed.trans hp') ?_ False.elim hp hs
  rintro l m' q - hp' hi hq ⟨hst, hlim, -⟩
  have hw := hst.written_eq hlim (Nat.zero_le _)
  have hpu : q.pushed = m'.arb.pushed := hst.pushed_eq hw
  exact ⟨⟨hst, rfl⟩, hi.producerStep hq hst (hpu ▸ hi.ids), hpu.trans hp'⟩

/-- `vms_par_queue_push` of an item younger than all before it. -/
theorem push_younger_safe {x : Event} {m : StreamMem}
    (hx : ∀ a ∈ m.arb.pushed, a.id < x.id) :
    Safe DropInv pusherRole (fun _ _ => True) (onArb (Queue.push x)) m := by
  unfold onArb Queue.push
  rw [Prog.zoom_bind]
  refine Safe.access_bind fun m1 h1 i1 => ⟨.refl m1, i1, ?_⟩
  have hp1 : m1.arb.pushed = m.arb.pushed := h1.arb.pushed
  have hsize : Slot.size x ≤ m1.arb.elemSize := i1.size
  show Safe _ _ _ ((Prog.ofChk (Chk.require (Slot.size x ≤ m1.arb.elemSize)) >>= _).zoom _ _) m1
  rw [Chk.require_eq hsize, Prog.ofChk_pure, Prog.ret_bind, Prog.zoom_bind]
  refine Safe.bind i1 ((pusher_asks hp1 (Queue.writePtr_safe i1.arb)).mono fun r m2 i2 hq => ?_)
  obtain ⟨⟨-, -, hsome, -⟩, hp2⟩ := hq
  cases r with
  | none => exact fun _ _ _ => trivial
  | some p =>
    show Safe _ _ _ ((Queue.fill p x >>= _).zoom _ _) m2
    rw [Prog.zoom_bind]
    refine Safe.bind i2 ((pusher_asks hp2 (Queue.fill_safe (hsome p rfl))).mono
      fun _ m3 i3 hq => ?_)
    obtain ⟨⟨hw3, hx3, -⟩, hp3⟩ := hq
    rw [Prog.zoom_bind]
    refine Safe.bind i3 ((Queue.publish_safe (I := DropInv) (ρ := pusherRole) (L := arbLens)
      (φ := StreamAcc.arb) (fun _ => True) (fun m' i => i.arb) (fun m' m'' hr => hr.arb)
      (fun _ _ _ _ _ => trivial) ?_ i3 hw3 hx3 trivial).mono fun _ m4 _ _ => fun _ _ _ => trivial)
    intro l m' q _ hi hq hst hpub
    refine ⟨⟨hst, rfl⟩, hi.producerStep hq hst ?_, trivial⟩
    rcases hpub with ⟨-, hpu⟩ | ⟨-, hpu⟩
    · rw [hpu]; exact hi.ids
    · rw [hpu, List.pairwise_append]
      refine ⟨i3.ids, List.pairwise_singleton _ _, fun a ha b hb => ?_⟩
      rw [List.mem_singleton.mp hb]
      have ha : a ∈ m3.arb.pushed := ha
      rw [hp3] at ha
      exact hx a ha

/-! ### Removing -/

theorem remover_removes : Removes DropInv removerRole where
  queue _ h := ⟨h.arb, h.size⟩
  rely _ _ h := h.arb
  guar l m q h hq hs := by
    refine ⟨⟨hs, le_rfl⟩, hq, hs.elemSize ▸ h.size, ?_, ?_⟩
    · show q.pushed.Pairwise _
      rw [hs.pushed]; exact h.ids
    · rcases h.covered with h0 | ⟨e, he, hle⟩
      · exact .inl h0
      · refine .inr ⟨e, ?_, hle⟩
        show e ∈ q.pushed.take q.ring.consumed
        rw [hs.pushed]
        exact (List.take_prefix_take_left (hs.ring.consumed)).subset he
  lenient := trivial

theorem LastRemoved.stable {e : Event} {m m' : StreamMem} (h : LastRemoved e m)
    (hr : PusherStep m m') : LastRemoved e m' := by
  obtain ⟨h0, he⟩ := h
  obtain ⟨hlt, -⟩ := List.getElem?_eq_some_iff.mp he
  obtain ⟨t, ht⟩ := hr.arb.pushed_grows
  refine ⟨by rw [hr.arb.ring.consumed]; exact h0, ?_⟩
  rw [hr.arb.ring.consumed, ← ht, List.getElem?_append_left hlt]
  exact he

/-- Of the removed items the last one has the largest id. -/
theorem LastRemoved.id_le {e a : Event} {m : StreamMem} (h : LastRemoved e m) (hm : DropInv m)
    (ha : a ∈ m.arb.pushed.take m.arb.ring.consumed) : a.id ≤ e.id := by
  obtain ⟨h0, he⟩ := h
  obtain ⟨i, hi⟩ := List.mem_iff_getElem?.mp ha
  obtain ⟨hlt, -⟩ := List.getElem?_eq_some_iff.mp hi
  rw [List.length_take] at hlt
  rw [List.getElem?_take_of_lt (by omega)] at hi
  obtain ⟨h1, rfl⟩ := List.getElem?_eq_some_iff.mp hi
  obtain ⟨h2, rfl⟩ := List.getElem?_eq_some_iff.mp he
  rcases Nat.lt_or_ge i (m.arb.ring.consumed - 1) with hlt' | hge
  · exact (List.pairwise_iff_getElem.mp hm.ids _ _ h1 h2 hlt').le
  · obtain rfl : i = m.arb.ring.consumed - 1 := by omega
    exact le_rfl

/-- The id of the item removed last may be reported. -/
theorem report_safe {e : Event} {m : StreamMem} (hl : LastRemoved e m) :
    Safe DropInv removerRole (fun _ _ => True) (setLastProcessedId e.id) m := by
  refine Safe.access_bind fun m1 h1 i1 => ⟨.refl m1, i1, ?_⟩
  refine Safe.ofChk_bind trivial ?_
  refine Safe.access fun m2 h2 i2 => ?_
  have hl2 := (hl.stable h1).stable h2
  refine ⟨⟨.refl _, ?_⟩, ⟨i2.arb, i2.size, i2.ids, .inr ⟨e, ?_, le_rfl⟩⟩, fun _ _ _ => trivial⟩
  · show m2.info.lastProcessedId ≤ e.id
    rcases i2.covered with h0 | ⟨a, ha, hle⟩
    · omega
    · exact hle.trans (hl2.id_le i2 ha)
  · show e ∈ m2.arb.pushed.take m2.arb.ring.consumed
    refine List.mem_iff_getElem?.mpr ⟨m2.arb.ring.consumed - 1, ?_⟩
    have h0 := hl2.1
    rw [List.getElem?_take_of_lt (by omega)]
    exact hl2.2

/-- `drop_older_than(id)` reports an id that it has removed, or removes nothing: `id` is the id of an
    item in the buffer, or it is below everything in the buffer and not above everything pushed. -/
def Reportable (id : ℕ) (m : StreamMem) : Prop :=
  (∃ e ∈ m.arb.pushed.drop m.arb.ring.consumed, e.id = id) ∨
    (∃ e ∈ m.arb.pushed, id ≤ e.id) ∧ ∀ e ∈ m.arb.pushed.drop m.arb.ring.consumed, id < e.id

/-- Then the item removed last has that id. -/
theorem RemovedUpto.last {id : ℕ} {m m' : StreamMem} (h : RemovedUpto id m m')
    (hp : m.arb.pushed <+: m'.arb.pushed) (hm : DropInv m) (hm' : DropInv m')
    (hid : Reportable id m) : ∃ e, LastRemoved e m' ∧ e.id = id := by
  obtain ⟨n, k, ids, h0, ho, hall, hc, hev⟩ := h
  have hkn := ho.le
  have hlen := hm.arb.pushed_length
  have hinc := Queue.increase_of_sorted hm'.ids hev
  rcases hid with ⟨e, he, rfl⟩ | ⟨⟨a, ha, hle⟩, hall'⟩
  · -- the item with that id is among those that were searched
    obtain ⟨j, hj⟩ := List.mem_iff_getElem?.mp he
    rw [List.getElem?_drop] at hj
    obtain ⟨hjl, hje⟩ := List.getElem?_eq_some_iff.mp hj
    obtain ⟨b, hb, hbj⟩ := hev j (by omega)
    have hbe : b = e := by
      obtain ⟨t, ht⟩ := hp
      rw [← ht, List.getElem?_append_left hjl, hj] at hb
      exact (Option.some.inj hb).symm
    subst hbe
    have hjk : j < k := by
      by_contra hge
      have := ho.above hinc j (by omega) (by omega)
      omega
    obtain ⟨x, hx, hxk⟩ := hev (k - 1) (by omega)
    refine ⟨x, ⟨by omega, ?_⟩, ?_⟩
    · rw [hc, show m.arb.ring.consumed + k - 1 = m.arb.ring.consumed + (k - 1) by omega]
      exact hx
    · have h1 := ho.below hinc (k - 1) (by omega)
      have h2 := hinc.le (show j ≤ k - 1 by omega) (by omega)
      omega
  · -- nothing there is old enough
    obtain ⟨x, hx, hx0⟩ := hev 0 (by omega)
    have hxid := ho.below hinc 0 h0
    obtain ⟨t, ht⟩ := hp
    rcases Nat.lt_or_ge m.arb.ring.consumed m.arb.pushed.length with hlt | hge
    · rw [Nat.add_zero, ← ht, List.getElem?_append_left hlt] at hx
      have hmem : x ∈ m.arb.pushed.drop m.arb.ring.consumed :=
        List.mem_iff_getElem?.mpr ⟨0, by rw [List.getElem?_drop, Nat.add_zero]; exact hx⟩
      have := hall' x hmem
      omega
    · rw [Nat.add_zero, ← ht, List.getElem?_append_right hge] at hx
      have hxt : x ∈ t := List.mem_of_getElem? hx
      have hids := hm'.ids
      rw [← ht, List.pairwise_append] at hids
      have := hids.2.2 a ha x hxt
      omega

/-! ### Runs -/

inductive DropThread where
  | pusher | arbiter
  deriving DecidableEq, Repr

inductive DropCall where
  | drop (k : ℕ)
  | dropOlderThan (id : ℕ)
  deriving DecidableEq, Repr

/-- Items are pushed in the order of their ids. -/
def pusherClient : Client StreamMem StreamAcc Unit Event where
  enabled _ x m := ∀ a ∈ m.arb.pushed, a.id < x.id
  body _ x := do
    let _ ← onArb (Queue.push x)
    pure ()

/-- The arbiter, calling `drop_older_than(id)` only where `permits` says so. -/
def removerClient (permits : ℕ → StreamMem → Prop) : Client StreamMem StreamAcc Unit DropCall where
  enabled _ x m := match x with
    | .drop k => 0 < k ∧ k < 2 ^ 64
    | .dropOlderThan id => permits id m
  body _ x := match x with
    | .drop k => do
      let _ ← bufferDrop k
      pure ()
    | .dropOlderThan id => do
      let _ ← dropOlderThan id
      pure ()

abbrev DropArg : DropThread → Type
  | .pusher => Event
  | .arbiter => DropCall

def dropClients (permits : ℕ → StreamMem → Prop) :
    (t : DropThread) → Client StreamMem StreamAcc Unit (DropArg t)
  | .pusher => pusherClient
  | .arbiter => removerClient permits

abbrev DropCfg : Type := Cfg StreamMem StreamAcc (fun _ : DropThread => Unit)

def Setup.dropStart (s : Setup) : DropCfg := ⟨s.mem, fun _ => .ret ()⟩

def dropRole : DropThread → Role StreamMem StreamAcc
  | .pusher => pusherRole
  | .arbiter => removerRole

theorem dropClients_safe {t : DropThread} {x : DropArg t} {m : StreamMem} (hm : DropInv m)
    (he : (dropClients Reportable t).enabled () x m) :
    Safe DropInv (dropRole t) (fun _ _ => True) ((dropClients Reportable t).body () x) m := by
  cases t with
  | pusher =>
    exact Safe.bind hm ((push_younger_safe he).mono fun _ _ _ _ => fun _ _ _ => trivial)
  | arbiter =>
    cases x with
    | drop k =>
      exact Safe.bind hm ((bufferDrop_safe remover_removes hm fun e m' _ hl =>
        report_safe hl).mono fun _ _ _ _ => fun _ _ _ => trivial)
    | dropOlderThan id =>
      refine Safe.bind hm ((dropOlderThan_safe remover_removes hm fun m' hm' hp hr => ?_).mono
        fun _ _ _ _ => fun _ _ _ => trivial)
      obtain ⟨e, hl, rfl⟩ := hr.last hp hm hm' he
      exact report_safe hl

theorem Setup.dropInv (s : Setup) : DropInv s.mem := by
  obtain ⟨harb, -, hae⟩ := Queue.init_inv s.ok
  have ha : s.mem.arb.pushed = [] := rfl
  refine ⟨harb, hae.symm ▸ s.fits, ?_, .inl rfl⟩
  rw [ha]; exact .nil

/-- In the runs in which `drop_older_than` is called with reportable ids, the id reported to the
    source never decreases and never exceeds the ids of the items removed. -/
theorem reported_id_sound (s : Setup) {c c' : DropCfg}
    (h : Reach (dropClients Reportable) s.dropStart c) (h' : Reach (dropClients Reportable) c c') :
    c.mem.info.lastProcessedId ≤ c'.mem.info.lastProcessedId ∧
    (c.mem.info.lastProcessedId = 0 ∨ ∃ e ∈ c.mem.arb.pushed.take c.mem.arb.ring.consumed,
      c.mem.info.lastProcessedId ≤ e.id) := by
  have hpre : ∀ t l m, (dropClients Reportable t).allowed l m → (dropRole t).pre l m := by
    intro t l m _
    cases t <;> trivial
  have hcompat : ∀ t u, t ≠ u → ∀ l m m', DropInv m → DropInv m' → (dropRole t).guar l m m' →
      (dropRole u).rely m m' := by
    intro t u htu l m m' _ _ hg
    cases t <;> cases u <;> first | exact absurd rfl htu | exact hg
  have hbody : ∀ (t : DropThread) (i : Unit) x m, DropInv m → True →
      (dropClients Reportable t).enabled i x m →
      Safe DropInv (dropRole t) (fun _ _ => True) ((dropClients Reportable t).body i x) m :=
    fun t i x m hm _ he => dropClients_safe hm he
  have h₀ : ∀ t, Safe DropInv (dropRole t) (fun _ _ => True) (s.dropStart.prog t) s.mem :=
    fun _ _ _ _ => trivial
  obtain ⟨hi, hs⟩ := reach_safe (ρ := dropRole) (Q := fun _ _ _ => True) hpre hcompat hbody
    s.dropInv h₀ h
  refine ⟨?_, hi.covered⟩
  refine reach_related (R := fun m m' => m.info.lastProcessedId ≤ m'.info.lastProcessedId)
    (ρ := dropRole) (Q := fun _ _ _ => True) hpre hcompat hbody (fun _ => le_rfl)
    (fun h1 h2 => h1.trans h2) ?_ hi hs h'
  intro t l m m' hg
  cases t with
  | pusher =>
    have hst : PusherStep m m' := hg
    rw [hst.info]
  | arbiter =>
    have hst : RemoverStep m m' := hg
    exact hst.reported

/-- One item with the id 1 is pushed and removed by `drop_older_than(1)`. -/
theorem reported_id_sound_one : ∃ c : DropCfg, Reach (dropClients Reportable) small.dropStart c ∧
    c.mem.info.lastProcessedId = 1 ∧
    ∃ e ∈ c.mem.arb.pushed.take c.mem.arb.ring.consumed, c.mem.info.lastProcessedId ≤ e.id := by
  have h0 : Reach (dropClients Reportable) small.dropStart _ := .start
  have h1 := h0.call .pusher (i := ()) ⟨9, 1, 0⟩ rfl nofun fun _ _ => trivial
  have h2 := h1.call .arbiter (i := ()) (.dropOlderThan 1) rfl
    (.inl ⟨⟨9, 1, 0⟩, List.mem_singleton.mpr rfl, rfl⟩) fun _ _ => trivial
  exact ⟨_, h2, rfl, (reported_id_sound small h2 .start).2.resolve_left (by decide)⟩

/-- One item with the id 1 is pushed and removed by `drop_older_than(5)`: 5 is reported. -/
theorem reported_id_too_large : ¬ ∀ c : DropCfg,
    Reach (dropClients fun _ _ => True) small.dropStart c → Covered c.mem := by
  intro hall
  have h0 : Reach (dropClients fun _ _ => True) small.dropStart _ := .start
  have h1 := h0.call .pusher (i := ()) ⟨9, 1, 0⟩ rfl nofun fun _ _ => trivial
  have h2 := h1.call .arbiter (i := ()) (.dropOlderThan 5) rfl trivial fun _ _ => trivial
  rcases hall _ h2 with h | ⟨e, he, hle⟩
  · exact absurd h (by decide)
  · obtain rfl : e = ⟨9, 1, 0⟩ := List.mem_singleton.mp he
    exact absurd hle (by decide)

end StreamMem

end Vamos
