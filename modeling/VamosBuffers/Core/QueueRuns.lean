import Mathlib.Tactic
import VamosBuffers.Core.QueueRoles

/-! One producer pushing and one consumer popping, in any sequentially consistent interleaving of
    their loads and stores. Between two calls each thread stands at what it has seen so far: the
    elements whose `push` returned true, the elements its `pop`s copied out, and what its last call
    returned. -/

namespace Vamos
open Schemes

namespace Queue

/-- The two threads. -/
inductive Thread where
  | producer | consumer
  deriving DecidableEq, Repr

/-- A thread between two calls: the elements that went through, and what the last call returned. -/
structure Seen where
  elems : List Bytes
  last : Option Bool
  deriving DecidableEq, Repr

/-- The producer pushes elements that fit a slot; the consumer's only call is `pop`. -/
abbrev Call : Thread → Type
  | .producer => Bytes
  | .consumer => Unit

/-- The producer notes the elements whose `push` returned true. -/
def producerClient : Client (Queue Bytes) (Acc QueueLoc) Seen Bytes where
  enabled _ x q := x.length ≤ q.elemSize
  body seen x := do
    let ok ← push x
    pure ⟨if ok then seen.elems ++ [x] else seen.elems, some ok⟩

/-- The consumer notes what its `pop`s copied out. -/
def consumerClient : Client (Queue Bytes) (Acc QueueLoc) Seen Unit where
  enabled _ _ _ := True
  body seen _ := do
    let r ← pop
    pure ⟨seen.elems ++ r.toList, some r.isSome⟩

def clients : (t : Thread) → Client (Queue Bytes) (Acc QueueLoc) Seen (Call t)
  | .producer => producerClient
  | .consumer => consumerClient

abbrev QueueCfg : Type := Cfg (Queue Bytes) (Acc QueueLoc) (fun _ : Thread => Seen)

/-- A fresh queue; nothing has been called. -/
def start (capacity elemSize : ℕ) (data : ℕ → Bytes) : QueueCfg :=
  ⟨(init capacity elemSize data).val, fun _ => .ret ⟨[], none⟩⟩

/-! ### Each thread keeps to its role -/

/-- What each thread knows between two calls. -/
def Known : Thread → Seen → Queue Bytes → Prop
  | .producer, seen, q => q.pushed = seen.elems ∧
      (seen.last = some false → q.ring.atTail = some q.capacity)
  | .consumer, seen, q => q.popped = seen.elems ∧ q.popped.length = q.ring.consumed ∧
      (seen.last = some false → q.ring.atHead = some 0)

/-- The roles of the two threads, with no limit on how far they move. -/
def role : Thread → Role (Queue Bytes) (Acc QueueLoc)
  | .producer =>
    { rely := ConsumerMoves
      guar := fun l q q' => ProducerStep q q' ∧
        ∀ p, l = .store (.data p) → p = q.slotOf q.ring.written
      refl := ConsumerMoves.refl
      trans := ConsumerMoves.trans }
  | .consumer =>
    { rely := ProducerStep
      guar := fun l q q' => ConsumerStep q q' ∧
        ∀ p, l = .load (.data p) → ∃ k, q.ring.consumed ≤ k ∧ k < q.ring.written ∧ p = q.slotOf k
      refl := ProducerStep.refl
      trans := ProducerStep.trans }

/-- Every element popped is the one pushed in its place. -/
def Popped (q : Queue Bytes) : Prop :=
  q.popped.length ≤ q.ring.written ∧
    ∀ (k : ℕ) x y, q.filled[k]? = some x → q.popped[k]? = some y → x <+: y

theorem Popped.producerStep {q q' : Queue Bytes} (h : Popped q) (hs : ProducerStep q q') :
    Popped q' := by
  refine ⟨by rw [hs.popped]; exact h.1.trans hs.ring.written, fun k x y hx hy => ?_⟩
  rw [hs.popped] at hy
  have hk : k < q.popped.length := (List.getElem?_eq_some_iff.mp hy).1
  rw [hs.filled k (hk.trans_le h.1)] at hx
  exact h.2 k x y hx hy

theorem Popped.consumerStep {q q' : Queue Bytes} (hq : QueueInv q) (h : Popped q)
    (hs : ConsumerStep q q') : Popped q' := by
  rcases hs.popped with hp | ⟨hlen, hlt, hp⟩
  · refine ⟨by rw [hp, hs.ring.written]; exact h.1, fun k x y hx hy => ?_⟩
    rw [hs.filled] at hx
    rw [hp] at hy
    exact h.2 k x y hx hy
  · refine ⟨?_, fun k x y hx hy => ?_⟩
    · rw [hp, hs.ring.written, List.length_append, hlen]
      exact hlt
    · rw [hs.filled] at hx
      rw [hp] at hy
      rcases Nat.lt_or_ge k q.popped.length with hk | hk
      · rw [List.getElem?_append_left hk] at hy
        exact h.2 k x y hx hy
      · -- the element just copied out: it lies in the slot of `tail`
        obtain rfl : k = q.popped.length := by
          have := (List.getElem?_eq_some_iff.mp hy).1
          simp only [List.length_append, List.length_singleton] at this
          omega
        rw [List.getElem?_append_right le_rfl, Nat.sub_self] at hy
        obtain rfl : q.data (q.slotOf q.ring.consumed) = y := Option.some.inj hy
        rw [hlen] at hx
        exact hq.data _ x le_rfl hlt hx

/-- Element by element, what was popped begins with the bytes pushed. -/
theorem Popped.forall₂ {q : Queue Bytes} (hq : QueueInv q) (h : Popped q) :
    List.Forall₂ (· <+: ·) (q.pushed.take q.popped.length) q.popped := by
  have hlen := hq.filled
  have hle := h.1
  have hl : (q.pushed.take q.popped.length).length = q.popped.length := by
    rw [pushed, List.length_take, List.length_take]; omega
  refine List.forall₂_iff_get.mpr ⟨hl, fun k h1 h2 => ?_⟩
  refine h.2 k _ _ ?_ (List.getElem?_eq_getElem h2)
  rw [List.getElem?_eq_getElem (by omega : k < q.filled.length)]
  simp [pushed]

/-- What holds of the queue in every configuration besides its invariant. -/
structure Held (capacity elemSize : ℕ) (q : Queue Bytes) : Prop where
  popped : Popped q
  capacity : q.capacity = capacity
  elemSize : q.elemSize = elemSize

theorem Held.role_guar {capacity elemSize : ℕ} (t : Thread) {l : Acc QueueLoc} {q q' : Queue Bytes}
    (hq : QueueInv q) (h : Held capacity elemSize q) (hg : (role t).guar l q q') :
    Held capacity elemSize q' := by
  cases t with
  | producer =>
    have hs : ProducerStep q q' := hg.1
    exact ⟨h.popped.producerStep hs, hs.capacity.trans h.capacity, hs.elemSize.trans h.elemSize⟩
  | consumer =>
    have hs : ConsumerStep q q' := hg.1
    exact ⟨h.popped.consumerStep hq hs, hs.capacity.trans h.capacity, hs.elemSize.trans h.elemSize⟩

theorem producerClient_safe {seen : Seen} {x : Bytes} {q : Queue Bytes} (hq : QueueInv q)
    (hk : Known .producer seen q) (he : producerClient.enabled seen x q) :
    Safe QueueInv (role .producer) (Known .producer) (producerClient.body seen x) q := by
  have hp := (push_safe (N := q.ring.written + 1) he le_rfl).weaken (π := role .producer)
    (fun _ _ hr => hr) (fun _ _ _ hg => ⟨hg.1, hg.2.2⟩) (fun _ _ _ => trivial) id
  refine Safe.bind hq (hp.mono fun ok q1 _ hr => fun q2 h2 _ => ?_)
  have h2 : ConsumerMoves q1 q2 := h2
  obtain ⟨htrue, hfalse⟩ := hr
  cases ok with
  | true => exact ⟨by rw [h2.pushed, htrue rfl, hk.1]; rfl, fun h => by cases h⟩
  | false =>
    obtain ⟨hpu, hat⟩ := hfalse rfl
    exact ⟨by rw [h2.pushed, hpu, hk.1]; rfl, fun _ => by rw [h2.ring.atTail, h2.capacity, hat]⟩

theorem consumerClient_safe {seen : Seen} {q : Queue Bytes} (hq : QueueInv q)
    (hk : Known .consumer seen q) :
    Safe QueueInv (role .consumer) (Known .consumer) (consumerClient.body seen ()) q := by
  have hp := (pop_safe (N := q.ring.consumed + 1) hq hk.2.1 le_rfl).weaken (π := role .consumer)
    (fun _ _ hr => hr) (fun _ _ _ hg => ⟨hg.1, hg.2.2.2⟩) (fun _ _ _ => trivial) id
  refine Safe.bind hq (hp.mono fun r q1 _ hr => fun q2 h2 _ => ?_)
  have h2 : ProducerStep q1 q2 := h2
  obtain ⟨hlen, hsome, hnone⟩ := hr
  have hlen2 : q2.popped.length = q2.ring.consumed := by rw [h2.popped, hlen, h2.ring.consumed]
  cases r with
  | some x => exact ⟨by rw [h2.popped, hsome x rfl, hk.1]; rfl, hlen2, fun h => by cases h⟩
  | none =>
    obtain ⟨hpo, hat⟩ := hnone rfl
    exact ⟨by rw [h2.popped, hpo, hk.1]; simp, hlen2, fun _ => by rw [h2.ring.atHead, hat]⟩

/-! ### Runs -/

/-- Every configuration of every run: the queue invariant and each thread's safety. -/
theorem reach_inv {capacity elemSize : ℕ} {data : ℕ → Bytes}
    (hi : (init capacity elemSize data).ok = true) {cfg : QueueCfg}
    (h : Reach clients (start capacity elemSize data) cfg) :
    (QueueInv cfg.mem ∧ Held capacity elemSize cfg.mem) ∧
      ∀ t, Safe (fun q => QueueInv q ∧ Held capacity elemSize q) (role t) (Known t) (cfg.prog t)
        cfg.mem := by
  obtain ⟨hq, hc, he⟩ := init_inv hi
  have hh : Held capacity elemSize (start capacity elemSize data).mem :=
    ⟨⟨Nat.zero_le _, fun k x y _ hy => by cases hy⟩, hc, he⟩
  refine reach_safe (I := fun q => QueueInv q ∧ Held capacity elemSize q) (ρ := role) (Q := Known)
    ?_ ?_ ?_ ⟨hq, hh⟩ ?_ h
  · intro t _ _ _
    cases t <;> trivial
  · intro t u htu l q q' _ _ hg
    cases t with
    | producer => cases u with
      | producer => exact absurd rfl htu
      | consumer => exact hg.1
    | consumer => cases u with
      | producer => exact hg.1.toConsumerMoves
      | consumer => exact absurd rfl htu
  · intro t seen x q hI hk hen
    cases t with
    | producer =>
      exact (producerClient_safe hI.1 hk hen).with_inv fun l q q' => Held.role_guar .producer
    | consumer =>
      exact (consumerClient_safe hI.1 hk).with_inv fun l q q' => Held.role_guar .consumer
  · -- nothing was pushed and nothing popped
    intro t q' hr hI
    cases t with
    | producer =>
      have hm : ConsumerMoves (start capacity elemSize data).mem q' := hr
      exact ⟨by rw [hm.pushed]; rfl, nofun⟩
    | consumer =>
      have hm : ProducerStep (start capacity elemSize data).mem q' := hr
      exact ⟨hm.popped, by rw [hm.popped, hm.ring.consumed]; rfl, nofun⟩

/-- One producer, one consumer, every interleaving: first in, first out with the bytes unchanged,
    never more than `capacity` elements, no slot written that is still to be read, and a call is
    refused only by a queue that was full, or empty, at the load that decided it. -/
theorem queue_fifo {capacity elemSize : ℕ} {data : ℕ → Bytes}
    (hi : (init capacity elemSize data).ok = true) {cfg : QueueCfg}
    (h : Reach clients (start capacity elemSize data) cfg) :
    (∃ l, l <+: cfg.mem.pushed ∧ List.Forall₂ (· <+: ·) l cfg.mem.popped) ∧
    (∀ seen, cfg.prog .producer = .ret seen → cfg.mem.pushed = seen.elems) ∧
    (∀ seen, cfg.prog .consumer = .ret seen → cfg.mem.popped = seen.elems ∧
      seen.elems.length = cfg.mem.ring.consumed) ∧
    cfg.mem.ring.written - cfg.mem.ring.consumed ≤ capacity ∧
    (∀ p, (cfg.prog .producer).next = some (.store (.data p)) →
      ∀ k, cfg.mem.ring.consumed ≤ k → k < cfg.mem.ring.written →
        p + elemSize ≤ cfg.mem.slotOf k ∨ cfg.mem.slotOf k + elemSize ≤ p) ∧
    (∀ p, (cfg.prog .consumer).next = some (.load (.data p)) →
      ∃ k, cfg.mem.ring.consumed ≤ k ∧ k < cfg.mem.ring.written ∧ p = cfg.mem.slotOf k) ∧
    (∀ seen, cfg.prog .producer = .ret seen → seen.last = some false →
      cfg.mem.ring.atTail = some capacity) ∧
    (∀ seen, cfg.prog .consumer = .ret seen → seen.last = some false →
      cfg.mem.ring.atHead = some 0) ∧
    ∀ t, (cfg.prog t).faulty = false := by
  obtain ⟨⟨hq, hh⟩, hs⟩ := reach_inv hi h
  have producer : ∀ seen, cfg.prog .producer = .ret seen → Known .producer seen cfg.mem :=
    fun seen hp => (hs .producer).at_ret ⟨hq, hh⟩ hp
  have consumer : ∀ seen, cfg.prog .consumer = .ret seen → Known .consumer seen cfg.mem :=
    fun seen hp => (hs .consumer).at_ret ⟨hq, hh⟩ hp
  refine ⟨⟨_, List.take_prefix _ _, hh.popped.forall₂ hq⟩, fun seen hp => (producer seen hp).1,
    fun seen hp => ?_, hh.capacity ▸ hq.items_le, fun p hp k hc hk => ?_, fun p hp => ?_,
    fun seen hp hl => ?_, fun seen hp hl => (consumer seen hp).2.2 hl,
    fun t => (hs t).not_faulty (by cases t <;> exact id)⟩
  · obtain ⟨hpo, hlen, -⟩ := consumer seen hp
    exact ⟨hpo, hpo ▸ hlen⟩
  · obtain ⟨q', -, hw⟩ := (hs .producer).at_act ⟨hq, hh⟩ hp trivial
    rw [hw p rfl, ← hh.elemSize]
    exact hq.slot_disjoint hc hk
  · obtain ⟨q', -, hr⟩ := (hs .consumer).at_act ⟨hq, hh⟩ hp trivial
    exact hr p rfl
  · rw [← hh.capacity]
    exact (producer seen hp).2 hl

/-- A queue of one element: the second `push` is refused, the first element comes out whole. -/
theorem queue_fifo_one : ∃ cfg : QueueCfg, Reach clients (start 1 2 fun _ => [0, 0]) cfg ∧
    cfg.mem.pushed = [[7]] ∧ cfg.mem.popped = [[7, 0]] ∧
    (∃ l, l <+: cfg.mem.pushed ∧ List.Forall₂ (· <+: ·) l cfg.mem.popped) := by
  have h0 : Reach clients (start 1 2 fun _ => [0, 0]) (start 1 2 fun _ => [0, 0]) := .start
  have h1 := h0.call .producer (i := ⟨[], none⟩) [7] rfl (show 1 ≤ 2 by decide)
    fun _ _ => trivial
  have h2 := h1.call .producer (i := ⟨[[7]], some true⟩) [8, 9] rfl (show 2 ≤ 2 by decide)
    fun _ _ => trivial
  have h3 := h2.call .consumer (i := ⟨[], none⟩) () rfl trivial fun _ _ => trivial
  exact ⟨_, h3, rfl, rfl, (queue_fifo (by decide) h3).1⟩

end Queue

end Vamos
