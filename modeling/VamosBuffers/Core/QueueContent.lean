import Mathlib.Tactic
import VamosBuffers.Core.QueuePeek
import VamosBuffers.Core.QueueRuns
import VamosBuffers.Core.RingbufAnswers

/-! The queue as a list. Its content is what was pushed and not yet removed:

        pushed    x₀ x₁ … x_{r-1} │ x_r … x_{w-1}          r removed, w written
                                  └── content ──┘
        x_{r+i} lies in the slot of r + i

    A consumer that peeks is shown this list and leaves it alone: `peek` shows a beginning of it in
    one or two runs of slots, `peek_at` and `peek_atmost_at` one element of it. `read_pointer` of the
    SHM buffer shows a pointer and a number, and the caller takes the elements to lie one after the
    other from there on. -/

namespace Vamos
open Schemes

namespace Queue

variable {ε : Type}

/-- The elements in the queue, oldest first. -/
def content (q : Queue ε) : List ε := q.pushed.drop q.ring.consumed

/-- The consumer's calls that only look leave the content, the slots and both indices alone. -/
structure Untouched (q q' : Queue ε) : Prop where
  content : q'.content = q.content
  data : q'.data = q.data
  head : q'.ring.head = q.ring.head
  tail : q'.ring.tail = q.ring.tail

variable [Slot ε]

/-- `p` is the slot of the `i`-th element of the content: an allocated slot that holds the element. -/
structure SlotAt (q : Queue ε) (i p : ℕ) : Prop where
  ptr : p = q.slotOf (q.ring.consumed + i)
  inside : p + q.elemSize ≤ (q.capacity + 1) * q.elemSize
  holds : ∃ x, q.content[i]? = some x ∧ Slot.Holds x (q.data p)

/-- What `peek(n)` is to answer. -/
def Peeked (q : Queue ε) (n : ℕ) : ℕ × Option (ℕ × ℕ × ℕ) → Prop
  | (num, none) => num = 0 ∧ q.content = []
  | (num, some (p, len1, len2)) => 0 < num ∧ q.content ≠ [] ∧
      len1 + len2 = (if n = 0 then q.content.length else min n q.content.length) ∧
      (∀ i < len1, q.SlotAt i (p + i * q.elemSize)) ∧
      ∀ i < len2, q.SlotAt (len1 + i) (i * q.elemSize)

/-- What `peek_at(k)` is to answer. -/
def PeekedAt (q : Queue ε) (k : ℕ) : Option ℕ → Prop
  | none => q.content.length ≤ k
  | some p => q.SlotAt k p

/-- What `peek_atmost_at(&k)` is to answer. -/
def PeekedAtmost (q : Queue ε) (k : ℕ) : ℕ × Option ℕ → Prop
  | (i, none) => i = 0 ∧ q.content = []
  | (i, some p) => i = min k (q.content.length - 1) ∧ q.SlotAt i p

/-! ### Content -/

namespace QueueInv

variable {q : Queue ε} (h : QueueInv q)
include h

theorem content_length : q.content.length = q.ring.written - q.ring.consumed := by
  rw [content, List.length_drop, h.pushed_length]

theorem content_nil : q.content = [] ↔ q.ring.written ≤ q.ring.consumed := by
  rw [← List.length_eq_zero_iff, h.content_length]
  omega

theorem slotAt {i : ℕ} (hi : i < q.ring.written - q.ring.consumed) :
    q.SlotAt i (q.slotOf (q.ring.consumed + i)) := by
  have hlen := h.filled
  have hmod := Nat.mod_lt (q.ring.consumed + i) (Nat.succ_pos q.capacity)
  refine ⟨rfl, ?_, q.filled[q.ring.consumed + i], ?_, ?_⟩
  · rw [slotOf, ← Nat.succ_mul]
    exact Nat.mul_le_mul_right _ hmod
  · rw [content, List.getElem?_drop, pushed, List.getElem?_take_of_lt (by omega)]
    exact List.getElem?_eq_getElem (by omega)
  · exact h.data _ _ (Nat.le_add_right _ i) (by omega) (List.getElem?_eq_getElem (by omega))

end QueueInv

/-- The elements that lie in the runs are the first ones of the content, in order. -/
theorem Lies.slots {p len1 len2 k : ℕ} {q : Queue ε} (hl : Lies p len1 len2 k q) (hq : QueueInv q)
    (hk : k ≤ q.ring.written - q.ring.consumed) :
    (∀ i < len1, q.SlotAt i (p + i * q.elemSize)) ∧
      ∀ i < len2, q.SlotAt (len1 + i) (i * q.elemSize) := by
  have hsum := hl.runs.sum
  refine ⟨fun i hi => ?_, fun i hi => ?_⟩
  · rw [hl.first hi]
    exact hq.slotAt (by omega)
  · rw [hl.second (hk.trans hq.items_le) hi]
    exact hq.slotAt (by omega)

omit [Slot ε] in
/-- What a consumer leaves of the content, if it consumed `n` elements. -/
theorem ConsumerMoves.content {q q' : Queue ε} {n : ℕ} (h : ConsumerMoves q q')
    (hn : q'.ring.consumed = q.ring.consumed + n) : q'.content = q.content.drop n := by
  rw [Queue.content, Queue.content, h.pushed, hn, List.drop_drop]

/-! ### Calls run alone -/

section Run

variable {α : Type} {p : QueueProg ε α} {Q : α → Queue ε → Prop} {q : Queue ε}

/-- A consumer's call that consumes nothing, run alone. -/
theorem asks_run {ρ : Role (Queue ε) (Acc QueueLoc)} (hq : QueueInv q) (hpre : ∀ l q, ρ.pre l q)
    (hguar : ∀ l q q', ρ.guar l q q' → (consumerRole 0).guar l q q') (h : Safe QueueInv ρ Q p q) :
    QueueInv (p.run q).2 ∧ Q (p.run q).1 (p.run q).2 ∧ ConsumerMoves q (p.run q).2 ∧
      (p.run q).2.ring.consumed = q.ring.consumed := by
  refine Safe.run (R := fun q q' => ConsumerMoves q q' ∧ q'.ring.consumed = q.ring.consumed)
    hpre (fun q => ⟨.refl q, rfl⟩) (fun h h' => ⟨h.1.trans h'.1, h'.2.trans h.2⟩) ?_ hq h
  intro l q q' hg
  obtain ⟨hs, hlim, -⟩ := hguar l q q' hg
  exact ⟨hs.toConsumerMoves, hs.toConsumerMoves.consumed_eq hlim (Nat.zero_le _)⟩

/-- `drop`, run alone. -/
theorem drop_run {m n : ℕ} (hq : QueueInv q) (hm : q.ring.Avail m) (h0 : 0 < n) (hn : n ≤ m)
    (hc : q.ring.capacity + n < 2 ^ 64 - 1) :
    QueueInv ((drop n).run q).2 ∧ ConsumerMoves q ((drop n).run q).2 ∧
      ((drop n).run q).2.content = q.content.drop n := by
  have hs := drop_safe (N := q.ring.consumed + n) hm h0 hn hc le_rfl
  obtain ⟨hi, ⟨hcons, -⟩, hmv⟩ := Safe.run (ρ := consumerRole (q.ring.consumed + n))
    (R := ConsumerMoves) (fun _ _ => trivial) ConsumerMoves.refl ConsumerMoves.trans
    (fun _ _ _ hg => hg.1.toConsumerMoves) hq hs
  exact ⟨hi, hmv, hmv.content hcons⟩

omit [Slot ε] in
theorem ConsumerMoves.untouched {q' : Queue ε} (h : ConsumerMoves q q')
    (hc : q'.ring.consumed = q.ring.consumed) (ht : q'.ring.tail = q.ring.tail) :
    Untouched q q' := by
  refine ⟨?_, h.data, h.ring.head, ht⟩
  rw [h.content (n := 0) (by omega), List.drop_zero]

theorem asks_untouched (hq : QueueInv q) (h : Safe QueueInv (consumerRole 0) Q p q) :
    Untouched q (p.run q).2 := by
  obtain ⟨hi, -, hm, hc⟩ := asks_run hq (fun _ _ => trivial) (fun _ _ _ hg => hg) h
  refine hm.untouched hc ?_
  rw [hi.ring.base.tail, hq.ring.base.tail, hc, hm.ring.capacity]

/-- `push`, run alone. -/
theorem push_run {x : ε} (hq : QueueInv q) (hx : Slot.size x ≤ q.elemSize) :
    QueueInv ((push x).run q).2 ∧ ProducerStep q ((push x).run q).2 := by
  have hs := push_safe (N := q.ring.written + 1) hx le_rfl
  obtain ⟨hi, -, hp⟩ := Safe.run (ρ := producerRole (q.ring.written + 1)) (R := ProducerStep)
    (fun _ _ => trivial) ProducerStep.refl ProducerStep.trans (fun _ _ _ hg => hg.1) hq hs
  exact ⟨hi, hp⟩

/-- `peek1`, run alone. -/
theorem peek1_run (hq : QueueInv q) :
    QueueInv (peek1.run q).2 ∧ ConsumerMoves q (peek1.run q).2 ∧ Untouched q (peek1.run q).2 ∧
      ((peek1.run q).1.2 = none ↔ q.content = []) ∧
      ∀ p, (peek1.run q).1.2 = some p → q.SlotAt 0 p := by
  have hs := peek1_safe (N := 0) hq hq.ring.avail_zero
  obtain ⟨hi, ⟨hrs, -, hsome, hnone, -⟩, hm, hc⟩ := asks_run hq (fun _ _ => trivial)
    (fun _ _ _ hg => hg) hs
  have hle := hrs.avail.le_items
  have hw : (peek1.run q).2.ring.written = q.ring.written := hm.ring.written
  refine ⟨hi, hm, asks_untouched hq hs, ?_, fun p hp => ?_⟩
  · rw [hq.content_nil]
    constructor
    · intro h0
      exact (hnone h0).2.2
    · intro h0
      cases hp : (peek1.run q).1.2 with
      | none => rfl
      | some p =>
        have := (hsome p hp).1
        omega
  · obtain ⟨h0, rfl⟩ := hsome p hp
    have hlt : 0 < q.ring.written - q.ring.consumed := by omega
    rw [slotOf_congr hm.capacity hm.elemSize, hc]
    exact hq.slotAt hlt

/-- `peek`, run alone. -/
theorem peek_run (hq : QueueInv q) (n : ℕ) :
    Peeked q n ((peek n).run q).1 ∧ Untouched q ((peek n).run q).2 := by
  have hs := peek_safe (N := 0) n hq hq.ring.avail_zero
  refine ⟨?_, asks_untouched hq hs⟩
  obtain ⟨hi, hr, hm, hc⟩ :=
    asks_run hq (fun _ _ => trivial) (fun _ _ _ hg => hg) hs
  generalize (peek n).run q = r at hi hr hm hc ⊢
  obtain ⟨⟨num, r⟩, q'⟩ := r
  obtain ⟨hrs, -, hall, hnone, hsome⟩ := hr
  dsimp only at hi hrs hall hnone hsome hm hc ⊢
  have hle := hrs.avail.le_items
  have hw : q'.ring.written = q.ring.written := hm.ring.written
  cases r with
  | none =>
    have h0 := hnone rfl
    exact ⟨h0, hq.content_nil.mpr (by omega)⟩
  | some r =>
    obtain ⟨p, len1, len2⟩ := r
    have hl := (hsome p len1 len2 rfl).congr hm.capacity.symm hm.elemSize.symm hc.symm
    have hpos := hl.runs.pos
    have hsum := hl.runs.sum
    have hmax := hi.lt_all hrs.avail
    refine ⟨by omega, fun h0 => ?_, ?_, hl.slots hq (by omega)⟩
    · have := hq.content_nil.mp h0
      omega
    · rw [hq.content_length]
      split at hsum <;> split <;> omega

/-- `peek_at`, run alone. -/
theorem peekAt_run (hq : QueueInv q) (k : ℕ) :
    PeekedAt q k ((peekAt k).run q).1 ∧ Untouched q ((peekAt k).run q).2 := by
  have hs := peekAt_safe (N := 0) (k := k) hq hq.ring.avail_zero
  refine ⟨?_, asks_untouched hq hs⟩
  obtain ⟨hi, ⟨-, hsome, hnone⟩, hm, hc⟩ :=
    asks_run hq (fun _ _ => trivial) (fun _ _ _ hg => hg) hs
  generalize (peekAt k).run q = r at hi hsome hnone hm hc ⊢
  obtain ⟨r, q'⟩ := r
  dsimp only at hsome hnone hm hc ⊢
  cases r with
  | none =>
    have := hnone rfl
    show q.content.length ≤ k
    rw [hq.content_length]
    omega
  | some p =>
    obtain ⟨ha, rfl⟩ := hsome p rfl
    have hle := ha.le_items
    have hw : q'.ring.written = q.ring.written := hm.ring.written
    show q.SlotAt k _
    rw [slotOf_congr hm.capacity hm.elemSize, hc]
    exact hq.slotAt (by omega)

/-- `peek_atmost_at`, run alone. -/
theorem peekAtmostAt_run (hq : QueueInv q) (k : ℕ) :
    PeekedAtmost q k ((peekAtmostAt k).run q).1 ∧ Untouched q ((peekAtmostAt k).run q).2 := by
  have hs := peekAtmostAt_safe (N := 0) (k := k) hq hq.ring.avail_zero
  refine ⟨?_, asks_untouched hq hs⟩
  obtain ⟨hi, ⟨-, hsome, hnone⟩, hm, hc⟩ :=
    asks_run hq (fun _ _ => trivial) (fun _ _ _ hg => hg) hs
  generalize (peekAtmostAt k).run q = r at hi hsome hnone hm hc ⊢
  obtain ⟨⟨i, r⟩, q'⟩ := r
  dsimp only at hsome hnone hm hc ⊢
  cases r with
  | none =>
    obtain ⟨h0, hle⟩ := hnone rfl
    exact ⟨h0, hq.content_nil.mpr hle⟩
  | some p =>
    obtain ⟨ha, rfl, hik, hlast⟩ := hsome p rfl
    have hle := ha.le_items
    have hw : q'.ring.written = q.ring.written := hm.ring.written
    refine ⟨?_, ?_⟩
    · rw [hq.content_length]
      omega
    · rw [slotOf_congr hm.capacity hm.elemSize, hc]
      exact hq.slotAt (by omega)

end Run

/-! ### A consumer that peeks -/

omit [Slot ε] in
/-- `vms_shm_buffer_read_pointer`, and so `vms_stream_read_events`: `*size` and the pointer. -/
def readPointer : QueueProg ε (ℕ × Option ℕ) := do
  let (tail, size) ← onRing Ringbuf.readOffNowrap
  if size = 0 then pure (size, none)
  else do
    let p ← slotPtr tail
    pure (size, some p)

/-- The consumer between two calls: how many elements it was told of and has not removed since, how
    many it has removed, and what `read_pointer` showed it if that was its last call. -/
structure ConsumerAt where
  told : ℕ
  removed : ℕ
  shown : Option (ℕ × ℕ)
  deriving DecidableEq, Repr

inductive ConsumerCall where
  | pop
  | drop (m : ℕ)
  | consumeUpto (m : ℕ)
  | readPointer
  | peek (n : ℕ)
  | peekAt (k : ℕ)
  | peekAtmostAt (k : ℕ)
  deriving DecidableEq, Repr

/-- The producer notes the elements whose `push` returned true. -/
def pushClient : Client (Queue ε) (Acc QueueLoc) (List ε) ε where
  enabled _ x q := Slot.size x ≤ q.elemSize
  body elems x := do
    let ok ← push x
    pure (if ok then elems ++ [x] else elems)

omit [Slot ε] in
/-- The consumer drops at most what it was told of. -/
def peekClient : Client (Queue ε) (Acc QueueLoc) ConsumerAt ConsumerCall where
  enabled i x q := match x with
    | .drop m => 1 ≤ m ∧ m ≤ i.told ∧ q.ring.capacity + m < 2 ^ 64 - 1
    | .consumeUpto m => m ≤ q.ring.capacity ∧ q.ring.capacity + m < 2 ^ 64 - 1
    | _ => True
  body i x := match x with
    | .pop => do
      let r ← pop
      let k := if r.isSome then 1 else 0
      pure ⟨i.told - k, i.removed + k, none⟩
    | .drop m => do
      drop m
      pure ⟨i.told - m, i.removed + m, none⟩
    | .consumeUpto m => do
      let k ← onRing (Ringbuf.consumeUpto m)
      pure ⟨i.told - k, i.removed + k, none⟩
    | .readPointer => do
      let r ← readPointer
      pure ⟨r.1, i.removed, r.2.map fun p => (r.1, p)⟩
    | .peek n => do
      let r ← peek n
      pure ⟨r.1, i.removed, none⟩
    | .peekAt k => do
      let r ← peekAt k
      pure ⟨if r.isSome then max i.told (k + 1) else i.told, i.removed, none⟩
    | .peekAtmostAt k => do
      let r ← peekAtmostAt k
      pure ⟨if r.2.isSome then max i.told (r.1 + 1) else i.told, i.removed, none⟩

abbrev PeekAt (ε : Type) : Thread → Type
  | .producer => List ε
  | .consumer => ConsumerAt

abbrev PeekCall (ε : Type) : Thread → Type
  | .producer => ε
  | .consumer => ConsumerCall

def peekClients : (t : Thread) → Client (Queue ε) (Acc QueueLoc) (PeekAt ε t) (PeekCall ε t)
  | .producer => pushClient
  | .consumer => peekClient

abbrev PeekCfg (ε : Type) : Type := Cfg (Queue ε) (Acc QueueLoc) (PeekAt ε)

omit [Slot ε] in
/-- A fresh queue. -/
def fresh (capacity elemSize : ℕ) (data : ℕ → ε) : PeekCfg ε :=
  ⟨(init capacity elemSize data).val, fun t => match t with
    | .producer => .ret ([] : List ε)
    | .consumer => .ret (⟨0, 0, none⟩ : ConsumerAt)⟩

/-! ### Each thread keeps to its role -/

omit [Slot ε] in
def pushRole : Role (Queue ε) (Acc QueueLoc) where
  rely := ConsumerMoves
  guar _ := ProducerStep
  refl := ConsumerMoves.refl
  trans := ConsumerMoves.trans

omit [Slot ε] in
def peekRole : Role (Queue ε) (Acc QueueLoc) where
  rely := ProducerStep
  guar _ := ConsumerMoves
  refl := ProducerStep.refl
  trans := ProducerStep.trans

def peekRoles : Thread → Role (Queue ε) (Acc QueueLoc)
  | .producer => pushRole
  | .consumer => peekRole

/-- `read_pointer` showed `n` elements, the first of them in the slot at `p`. -/
structure Shown (n p : ℕ) (q : Queue ε) : Prop where
  pos : 0 < n
  ptr : p = q.slotOf q.ring.consumed
  avail : q.ring.Avail n
  counted : Ringbuf.Counted n q.ring

/-- What the consumer knows between two calls. -/
structure ConsumerKnows (i : ConsumerAt) (q : Queue ε) : Prop where
  avail : q.ring.Avail i.told
  removed : q.ring.consumed = i.removed
  shown : ∀ n p, i.shown = some (n, p) → Shown n p q

omit [Slot ε] in
theorem ConsumerKnows.stable {i : ConsumerAt} {q q' : Queue ε} (h : ConsumerKnows i q)
    (hr : ProducerStep q q') : ConsumerKnows i q' := by
  refine ⟨h.avail.stable hr.ring, hr.ring.consumed.trans h.removed, fun n p hs => ?_⟩
  obtain ⟨h0, hp, ha, hc⟩ := h.shown n p hs
  refine ⟨h0, ?_, ha.stable hr.ring, hc.stable hr.ring⟩
  rw [slotOf_congr hr.capacity hr.elemSize, hr.ring.consumed]
  exact hp

/-- What each thread knows between two calls. -/
def PeekKnown : (t : Thread) → PeekAt ε t → Queue ε → Prop
  | .producer, elems, q => q.pushed = elems
  | .consumer, i, q => ConsumerKnows i q

/-- A consumer's call, and what the consumer notes of its answer. -/
theorem peek_return {α : Type} {p : QueueProg ε α} {Q : α → Queue ε → Prop} {q : Queue ε}
    {g : α → ConsumerAt} (N : ℕ) (hq : QueueInv q) (h : Safe QueueInv (consumerRole N) Q p q)
    (hQ : ∀ a q', QueueInv q' → Q a q' → ConsumerKnows (g a) q') :
    Safe QueueInv peekRole ConsumerKnows (p >>= fun a => pure (g a)) q := by
  have hw := h.weaken (π := peekRole) (fun _ _ hr => hr) (fun _ _ _ hg => hg.1.toConsumerMoves)
    (fun _ _ _ => trivial) id
  exact Safe.bind hq (hw.mono fun a q1 i1 h1 => fun q2 h2 _ => (hQ a q1 i1 h1).stable h2)

omit [Slot ε] in
theorem readPointer_eq : (readPointer : QueueProg ε (ℕ × Option ℕ)) = peek1 := by
  unfold readPointer peek1
  congr 1
  funext r
  obtain ⟨off, n⟩ := r
  rcases Nat.eq_zero_or_pos n with rfl | hn
  · rfl
  · simp only [if_neg hn.ne', if_pos hn]

/-- `pop` of a consumer that may also have dropped. -/
theorem pop_moves_safe {m : ℕ} {q : Queue ε} (hq : QueueInv q) (hm : q.ring.Avail m) :
    Safe QueueInv peekRole
      (fun r q' => q'.ring.Avail (m - if r.isSome then 1 else 0) ∧
        q'.ring.consumed = q.ring.consumed + if r.isSome then 1 else 0)
      pop q := by
  have onPeek : ∀ {N : ℕ} {α : Type} {p : QueueProg ε α} {Q : α → Queue ε → Prop} {q : Queue ε},
      Safe QueueInv (consumerRole N) Q p q → Safe QueueInv peekRole Q p q := fun h =>
    h.weaken (fun _ _ hr => hr) (fun _ _ _ hg => hg.1.toConsumerMoves) (fun _ _ _ => trivial) id
  refine Safe.bind hq ((onPeek (readOff_safe (N := 0) hq hm)).mono fun r q1 i1 hr => ?_)
  obtain ⟨off, n⟩ := r
  obtain ⟨hr, hmn, rfl, -⟩ := hr
  dsimp only at hr hmn ⊢
  split
  · rename_i hn
    refine Safe.bind i1 ((onPeek (slotPtr_tail (N := 0) i1 hr)).mono fun p q2 i2 ⟨_, hr2, _⟩ => ?_)
    refine Safe.access_bind fun q3 h3 i3 => ?_
    have hr3 := hr2.stable h3
    have i4 : QueueInv { q3 with popped := q3.popped ++ [q3.data p] } :=
      ⟨i3.ring, i3.slots, i3.pos, i3.fits, i3.filled, i3.data⟩
    refine ⟨⟨.refl _, rfl, rfl, rfl, rfl⟩, i4, ?_⟩
    have hmax : q3.ring.capacity + 1 < 2 ^ 64 - 1 := by have := i3.ring.base.max; omega
    refine Safe.bind i4 ((onPeek (drop_safe (q := { q3 with popped := q3.popped ++ [q3.data p] })
      hr3.avail Nat.one_pos hn hmax le_rfl)).mono fun _ q5 i5 ⟨hc5, ha5, _⟩ => fun q6 h6 _ => ?_)
    refine ⟨(ha5.stable h6.ring).mono (by simp; omega), ?_⟩
    rw [h6.ring.consumed, hc5]
    exact congrArg (· + 1) hr3.consumed
  · refine fun q2 h2 _ => ⟨(hr.avail.stable h2.ring).mono (by simp; omega), ?_⟩
    rw [h2.ring.consumed, hr.consumed]
    rfl

theorem pushClient_safe {elems : List ε} {x : ε} {q : Queue ε} (hq : QueueInv q)
    (hk : q.pushed = elems) (he : Slot.size x ≤ q.elemSize) :
    Safe QueueInv pushRole (PeekKnown .producer) (pushClient.body elems x) q := by
  have hp := (push_safe (N := q.ring.written + 1) he le_rfl).weaken (π := pushRole)
    (fun _ _ hr => hr) (fun _ _ _ hg => hg.1) (fun _ _ _ => trivial) id
  refine Safe.bind hq (hp.mono fun ok q1 _ hr => fun q2 h2 _ => ?_)
  have h2 : ConsumerMoves q1 q2 := h2
  show q2.pushed = _
  rw [h2.pushed, ← hk]
  cases ok with
  | true => exact hr.1 rfl
  | false => exact (hr.2 rfl).1

theorem peekClient_safe {i : ConsumerAt} {x : ConsumerCall} {q : Queue ε} (hq : QueueInv q)
    (hk : ConsumerKnows i q) (he : peekClient.enabled i x q) :
    Safe QueueInv peekRole ConsumerKnows (peekClient.body i x) q := by
  have ha := hk.avail
  have hc := hk.removed
  cases x with
  | pop =>
    refine Safe.bind hq ((pop_moves_safe hq ha).mono fun r q1 _ ⟨ha1, hc1⟩ => fun q2 h2 _ => ?_)
    exact ConsumerKnows.stable ⟨ha1, by rw [hc1, hc], nofun⟩ h2
  | drop m =>
    obtain ⟨h0, hm, hcap⟩ := he
    exact peek_return _ hq (drop_safe ha h0 hm hcap le_rfl) fun _ q' _ ⟨hc', ha', _⟩ =>
      ⟨ha', by rw [hc', hc], nofun⟩
  | consumeUpto m =>
    obtain ⟨hm, hcap⟩ := he
    refine peek_return _ hq (onRing_consumer (Ringbuf.consumeUpto_safe hq.ring ha hm hcap le_rfl))
      fun k q' _ ⟨⟨_, _, hc', ha', _⟩, _⟩ => ⟨ha', by rw [hc', hc], nofun⟩
  | readPointer =>
    show Safe _ _ _ (readPointer >>= _) q
    rw [readPointer_eq]
    refine peek_return 0 hq (peek1_safe hq ha) fun r q' _ ⟨hr, _, hsome, _, hcount⟩ => ?_
    refine ⟨hr.avail, by rw [hr.consumed, hc], fun n p hs => ?_⟩
    obtain ⟨p', hp', he'⟩ := Option.map_eq_some_iff.mp hs
    cases he'
    obtain ⟨h0, hp⟩ := hsome p hp'
    exact ⟨h0, hp, hr.avail, hcount⟩
  | peek n =>
    exact peek_return 0 hq (peek_safe n hq ha) fun r q' _ ⟨hr, _⟩ =>
      ⟨hr.avail, by rw [hr.consumed, hc], nofun⟩
  | peekAt k =>
    refine peek_return 0 hq (peekAt_safe hq ha) fun r q' _ ⟨hr, hsome, _⟩ =>
      ⟨?_, by rw [hr.consumed, hc], nofun⟩
    cases r with
    | none => exact hr.avail
    | some p => exact hr.avail.max (hsome p rfl).1
  | peekAtmostAt k =>
    refine peek_return 0 hq (peekAtmostAt_safe hq ha) fun r q' _ ⟨hr, hsome, _⟩ =>
      ⟨?_, by rw [hr.consumed, hc], nofun⟩
    obtain ⟨j, r⟩ := r
    cases r with
    | none => exact hr.avail
    | some p => exact hr.avail.max (hsome p rfl).1

/-! ### Runs -/

omit [Slot ε] in
theorem peekRoles_compat {t u : Thread} (htu : t ≠ u) {l : Acc QueueLoc} {q q' : Queue ε}
    (hg : (peekRoles t).guar l q q') : (peekRoles u).rely q q' := by
  cases t <;> cases u <;> first | exact absurd rfl htu | exact hg

/-- Both threads keep to their roles. -/
def PeekSafe (c : PeekCfg ε) : Prop :=
  QueueInv c.mem ∧ ∀ t, Safe QueueInv (peekRoles t) (PeekKnown t) (c.prog t) c.mem

theorem PeekSafe.fresh {capacity elemSize : ℕ} {data : ℕ → ε}
    (hi : (init capacity elemSize data).ok = true) :
    PeekSafe (fresh capacity elemSize data) := by
  obtain ⟨hq, -, -⟩ := init_inv hi
  refine ⟨hq, fun t => ?_⟩
  cases t with
  | producer =>
    intro q' hr _
    have hm : ConsumerMoves (Queue.fresh capacity elemSize data).mem q' := hr
    exact hm.pushed
  | consumer =>
    intro q' hr hI
    have hm : ProducerStep (Queue.fresh capacity elemSize data).mem q' := hr
    exact ⟨hI.ring.avail_zero, hm.ring.consumed, nofun⟩

theorem PeekSafe.step {t : Thread} {c c' : PeekCfg ε} (h : PeekSafe c)
    (hs : Step peekClients t c c') : PeekSafe c' := by
  refine step_safe ?_ (fun t u htu l q q' _ _ hg => peekRoles_compat htu hg) ?_ h.1 h.2 hs
  · intro t _ _ _
    cases t <;> trivial
  · intro t i x q hq hk he
    cases t with
    | producer => exact pushClient_safe hq hk he
    | consumer => exact peekClient_safe hq hk he

/-- Every configuration of every run: the queue invariant, and what each thread knows. -/
theorem peekers_know {capacity elemSize : ℕ} {data : ℕ → ε}
    (hi : (init capacity elemSize data).ok = true) {cfg : PeekCfg ε}
    (h : Reach peekClients (fresh capacity elemSize data) cfg) :
    QueueInv cfg.mem ∧ ∀ t i, cfg.prog t = .ret i → PeekKnown t i cfg.mem := by
  have hr : PeekSafe cfg := by
    induction h with
    | start => exact .fresh hi
    | step t _ hs ih => exact ih.step hs
  exact ⟨hr.1, fun t i hp => (hr.2 t).at_ret hr.1 hp⟩

/-- Whatever was pushed, popped and dropped, in every interleaving: the peeking calls show the content
    of the queue, which is what was pushed without what was removed, and they leave it alone. -/
theorem peek_content {capacity elemSize : ℕ} {data : ℕ → ε}
    (hi : (init capacity elemSize data).ok = true) {cfg : PeekCfg ε}
    (h : Reach peekClients (fresh capacity elemSize data) cfg) (n k : ℕ) :
    (∀ elems i, cfg.prog .producer = .ret elems → cfg.prog .consumer = .ret i →
      cfg.mem.content = elems.drop i.removed) ∧
    (Peeked cfg.mem n ((peek n).run cfg.mem).1 ∧ Untouched cfg.mem ((peek n).run cfg.mem).2) ∧
    (PeekedAt cfg.mem k ((peekAt k).run cfg.mem).1 ∧
      Untouched cfg.mem ((peekAt k).run cfg.mem).2) ∧
    PeekedAtmost cfg.mem k ((peekAtmostAt k).run cfg.mem).1 ∧
      Untouched cfg.mem ((peekAtmostAt k).run cfg.mem).2 := by
  obtain ⟨hq, hk⟩ := peekers_know hi h
  refine ⟨fun elems i hp hc => ?_, peek_run hq n, peekAt_run hq k, peekAtmostAt_run hq k⟩
  have hpushed : cfg.mem.pushed = elems := hk .producer elems hp
  have hknows : ConsumerKnows i cfg.mem := hk .consumer i hc
  rw [content, hpushed, hknows.removed]

/-- Two of four elements are left, and `peek` shows them in two runs. -/
theorem peek_content_wrapped : ∃ cfg : PeekCfg Bytes,
    Reach peekClients (fresh 2 1 fun _ => [0]) cfg ∧ cfg.mem.content = [[9], [10]] ∧
    ((peek 0).run cfg.mem).1 = (2, some (2, 1, 1)) ∧
    Peeked cfg.mem 0 ((peek 0).run cfg.mem).1 := by
  have h0 : Reach (peekClients (ε := Bytes)) (fresh 2 1 fun _ => [0]) (fresh 2 1 fun _ => [0]) :=
    .start
  have h1 := h0.call .producer (i := []) [7] rfl (show 1 ≤ 1 by decide) fun _ _ => trivial
  have h2 := h1.call .producer (i := [[7]]) [8] rfl (show 1 ≤ 1 by decide) fun _ _ => trivial
  have h3 := h2.call .consumer (i := ⟨0, 0, none⟩) .pop rfl trivial fun _ _ => trivial
  have h4 := h3.call .producer (i := [[7], [8]]) [9] rfl (show 1 ≤ 1 by decide) fun _ _ => trivial
  have h5 := h4.call .consumer (i := ⟨0, 1, none⟩) .pop rfl trivial fun _ _ => trivial
  have h6 := h5.call .producer (i := [[7], [8], [9]]) [10] rfl (show 1 ≤ 1 by decide)
    fun _ _ => trivial
  exact ⟨_, h6, rfl, rfl, (peek_content (by decide) h6 0 0).2.1.1⟩

/-! ### Elements one after the other -/

/-- The `n` oldest elements lie one after the other from `p` on, inside the allocated slots. -/
structure OldestAt (q : Queue ε) (n p : ℕ) : Prop where
  inside : p + n * q.elemSize ≤ (q.capacity + 1) * q.elemSize
  elem : ∀ i < n, q.SlotAt i (p + i * q.elemSize)

/-- What `read_pointer` shows is right exactly when it does not turn. -/
theorem Shown.oldest_iff {n p : ℕ} {q : Queue ε} (h : Shown n p q) (hq : QueueInv q) :
    OldestAt q n p ↔
      ¬ (0 < Ringbuf.headSeen q.ring ∧ Ringbuf.headSeen q.ring < q.ring.tail) := by
  rw [← h.counted.contiguous_iff hq.ring h.avail]
  have hp : p = q.ring.tail * q.elemSize := by
    rw [h.ptr, slotOf, hq.ring.base.tail, hq.slots]
  have hle := h.avail.le_items
  constructor
  · rintro ⟨hin, -⟩
    rw [hp, ← Nat.add_mul] at hin
    refine h.avail.contiguous hq.ring ?_
    rw [hq.slots]
    exact Nat.le_of_mul_le_mul_right hin hq.pos
  · rintro ⟨hfits, hitem⟩
    rw [hq.slots] at hfits
    refine ⟨?_, fun i hi => ?_⟩
    · rw [hp, ← Nat.add_mul]
      exact Nat.mul_le_mul_right _ hfits
    · have hmod := (hitem i hi).2
      rw [hq.slots] at hmod
      have hslot : p + i * q.elemSize = q.slotOf (q.ring.consumed + i) := by
        rw [hp, ← Nat.add_mul, ← hmod, slotOf]
      rw [hslot]
      exact hq.slotAt (by omega)

/-- `read_off_nowrap` in every interleaving, on a bare ring and under `read_pointer`: the items it
    reports lie one after the other, inside the ring, unless the head that it goes by has turned and
    left slot 0 while `tail` has not turned. Then the number counts the items across the turn. -/
theorem nowrap_reads :
    (∀ {c : ℕ}, (Ringbuf.init c).ok = true → ∀ {cfg : Ringbuf.AnswerCfg},
      Reach (Ringbuf.askers Ringbuf.asTold) (Ringbuf.unasked c) cfg → ∀ off n,
      cfg.prog .reader = .ret (.told .readOffNowrap off n) → 0 < n →
      (Ringbuf.Contiguous off n cfg.mem ↔
        ¬ (0 < Ringbuf.headSeen cfg.mem ∧ Ringbuf.headSeen cfg.mem < cfg.mem.tail))) ∧
    ∀ {capacity elemSize : ℕ} {data : ℕ → ε}, (init capacity elemSize data).ok = true →
      ∀ {cfg : PeekCfg ε}, Reach peekClients (fresh capacity elemSize data) cfg →
      ∀ i n p, cfg.prog .consumer = .ret i → i.shown = some (n, p) →
      (OldestAt cfg.mem n p ↔
        ¬ (0 < Ringbuf.headSeen cfg.mem.ring ∧ Ringbuf.headSeen cfg.mem.ring < cfg.mem.ring.tail)) := by
  constructor
  · intro c hc cfg h off n hp _
    obtain ⟨hI, -, -, hr⟩ := Ringbuf.reach_knows Ringbuf.asTold_avail hc h
    obtain ⟨hoff, ha, hcount, -⟩ := hr _ hp
    rw [hoff rfl]
    exact hcount.contiguous_iff hI ha
  · intro capacity elemSize data hi cfg h i n p hp hs
    obtain ⟨hq, hk⟩ := peekers_know hi h
    have hknows : ConsumerKnows i cfg.mem := hk .consumer i hp
    exact (hknows.shown n p hs).oldest_iff hq

/-- Two items in slots 0 and 1 of a ring, and one element in slot 0 of a queue. -/
theorem nowrap_reads_fresh :
    (∃ cfg : Ringbuf.AnswerCfg,
      Reach (Ringbuf.askers Ringbuf.asTold) (Ringbuf.unasked 3) cfg ∧
      cfg.prog .reader = .ret (.told .readOffNowrap 0 2) ∧ Ringbuf.Contiguous 0 2 cfg.mem) ∧
    ∃ cfg : PeekCfg Bytes, Reach peekClients (fresh 2 1 fun _ => [0]) cfg ∧
      cfg.prog .consumer = .ret ⟨1, 0, some (1, 0)⟩ ∧ OldestAt cfg.mem 1 0 := by
  constructor
  · have h0 : Reach (Ringbuf.askers Ringbuf.asTold) (Ringbuf.unasked 3) (Ringbuf.unasked 3) := .start
    have h1 := h0.call .writer (i := .idle) .writeOff rfl trivial fun _ _ => trivial
    have h2 := h1.call .writer (i := .offered .writeOff 0 2 0) (.writeFinish 2) rfl
      ⟨by decide, by decide, by decide⟩ fun _ _ => trivial
    have h3 := h2.call .reader (i := .idle) .readOffNowrap rfl trivial fun _ _ => trivial
    exact ⟨_, h3, rfl,
      ((nowrap_reads (ε := Bytes)).1 (by decide) h3 0 2 rfl (by decide)).mpr (by decide)⟩
  · have h0 : Reach (peekClients (ε := Bytes)) (fresh 2 1 fun _ => [0]) (fresh 2 1 fun _ => [0]) :=
      .start
    have h1 := h0.call .producer (i := []) [7] rfl (show 1 ≤ 1 by decide) fun _ _ => trivial
    have h2 := h1.call .consumer (i := ⟨0, 0, none⟩) .readPointer rfl trivial fun _ _ => trivial
    exact ⟨_, h2, rfl, (nowrap_reads.2 (by decide) h2 ⟨1, 0, some (1, 0)⟩ 1 0 rfl rfl).mpr
      (by decide)⟩

/-- Two items in slots 3 and 0 of a ring of four: `read_off_nowrap` reports both, from slot 3 on, and
    so does `read_pointer`. -/
theorem nowrap_read_turns :
    (∃ cfg : Ringbuf.AnswerCfg,
      Reach (Ringbuf.askers Ringbuf.asTold) (Ringbuf.unasked 4) cfg ∧
      cfg.prog .reader = .ret (.told .readOffNowrap 3 2) ∧ ¬ 3 + 2 ≤ cfg.mem.capacity) ∧
    ∃ cfg : PeekCfg Bytes, Reach peekClients (fresh 3 1 fun _ => [0]) cfg ∧
      cfg.prog .consumer = .ret ⟨2, 3, some (2, 3)⟩ ∧
      ¬ 3 + 2 * cfg.mem.elemSize ≤ (cfg.mem.capacity + 1) * cfg.mem.elemSize := by
  constructor
  · have h0 : Reach (Ringbuf.askers Ringbuf.asTold) (Ringbuf.unasked 4) (Ringbuf.unasked 4) := .start
    have h1 := h0.call .writer (i := .idle) .writeOff rfl trivial fun _ _ => trivial
    have h2 := h1.call .writer (i := .offered .writeOff 0 3 0) (.writeFinish 3) rfl
      ⟨by decide, by decide, by decide⟩ fun _ _ => trivial
    have h3 := h2.call .reader (i := .idle) .readOffNowrap rfl trivial fun _ _ => trivial
    have h4 := h3.call .reader (i := .told .readOffNowrap 0 3) (.consume 3) rfl
      ⟨by decide, le_refl 3, by decide⟩ fun _ _ => trivial
    have h5 := h4.call .writer (i := .idle) (.acquire 1) rfl trivial fun _ _ => trivial
    have h6 := h5.call .writer (i := .offered (.acquire 1) 3 3 0) (.writeFinish 1) rfl
      ⟨by decide, by decide, by decide⟩ fun _ _ => trivial
    have h7 := h6.call .writer (i := .idle) (.acquire 1) rfl trivial fun _ _ => trivial
    have h8 := h7.call .writer (i := .offered (.acquire 1) 0 2 0) (.writeFinish 1) rfl
      ⟨by decide, by decide, by decide⟩ fun _ _ => trivial
    have h9 := h8.call .reader (i := .idle) .readOffNowrap rfl trivial fun _ _ => trivial
    exact ⟨_, h9, rfl, by decide⟩
  · have h0 : Reach (peekClients (ε := Bytes)) (fresh 3 1 fun _ => [0]) (fresh 3 1 fun _ => [0]) :=
      .start
    have h1 := h0.call .producer (i := []) [1] rfl (show 1 ≤ 1 by decide) fun _ _ => trivial
    have h2 := h1.call .producer (i := [[1]]) [2] rfl (show 1 ≤ 1 by decide) fun _ _ => trivial
    have h3 := h2.call .producer (i := [[1], [2]]) [3] rfl (show 1 ≤ 1 by decide) fun _ _ => trivial
    have h4 := h3.call .consumer (i := ⟨0, 0, none⟩) .readPointer rfl trivial fun _ _ => trivial
    have h5 := h4.call .consumer (i := ⟨3, 0, some (3, 0)⟩) (.drop 3) rfl
      ⟨by decide, le_refl 3, by decide⟩ fun _ _ => trivial
    have h6 := h5.call .producer (i := [[1], [2], [3]]) [4] rfl (show 1 ≤ 1 by decide)
      fun _ _ => trivial
    have h7 := h6.call .producer (i := [[1], [2], [3], [4]]) [5] rfl (show 1 ≤ 1 by decide)
      fun _ _ => trivial
    have h8 := h7.call .consumer (i := ⟨0, 3, none⟩) .readPointer rfl trivial fun _ _ => trivial
    exact ⟨_, h8, rfl, by decide⟩

end Queue

end Vamos
