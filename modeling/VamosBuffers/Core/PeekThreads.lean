import Mathlib.Tactic
import VamosBuffers.Core.QueueContent

/-! Several threads may look into one buffer, as `arbiter.h` allows, while nobody drops or pops. They
    share `seen_head`: each of them reads it, and each may overwrite it with a head that it loaded a
    while ago, so it can go back as well as forward.

        tail ≤ seen_head, and every head in a thread's hands ≤ head        (in ring order)
                 ↕ goes both ways                              → only forward

    Tail stands still and `head` only moves on. So whatever head a thread goes by, and whenever it
    reads `seen_head` again, that head was the real one once, with the tail that is still there. -/

namespace Vamos
open Schemes

namespace Ringbuf

/-! ### The ring -/

/-- What one looking thread expects of the writer and of the other looking threads: only `head` moves
    on, and `seen_head` goes anywhere. -/
structure SharedStep (b b' : Ringbuf) : Prop where
  capacity : b'.capacity = b.capacity
  tail : b'.tail = b.tail
  consumed : b'.consumed = b.consumed
  written : b.written ≤ b'.written

/-- What a looking thread may change: `seen_head`, and the record of what it found there. -/
structure LookStep (b b' : Ringbuf) : Prop where
  capacity : b'.capacity = b.capacity
  head : b'.head = b.head
  tail : b'.tail = b.tail
  seenTail : b'.seenTail = b.seenTail
  wipHead : b'.wipHead = b.wipHead
  wipN : b'.wipN = b.wipN
  written : b'.written = b.written
  consumed : b'.consumed = b.consumed
  atTail : b'.atTail = b.atTail

theorem SharedStep.refl (b : Ringbuf) : SharedStep b b := ⟨rfl, rfl, rfl, le_rfl⟩

theorem SharedStep.trans {b b' b'' : Ringbuf} (h : SharedStep b b') (h' : SharedStep b' b'') :
    SharedStep b b'' :=
  ⟨h'.1.trans h.1, h'.2.trans h.2, h'.3.trans h.3, h.4.trans h'.4⟩

theorem LookStep.refl (b : Ringbuf) : LookStep b b := ⟨rfl, rfl, rfl, rfl, rfl, rfl, rfl, rfl, rfl⟩

theorem WriterStep.shared {b b' : Ringbuf} (h : WriterStep b b') : SharedStep b b' :=
  ⟨h.capacity, h.tail, h.consumed, h.written⟩

theorem LookStep.shared {b b' : Ringbuf} (h : LookStep b b') : SharedStep b b' :=
  ⟨h.capacity, h.tail, h.consumed, h.written.ge⟩

theorem LookStep.reader {b b' : Ringbuf} (h : LookStep b b') : ReaderStep b b' :=
  ⟨h.capacity, h.head, h.seenTail, h.wipHead, h.wipN, h.written, h.atTail, h.consumed.ge⟩

/-- A looking thread. -/
def lookRole : Role Ringbuf (Acc RingLoc) where
  rely := SharedStep
  guar _ := LookStep
  refl := SharedStep.refl
  trans := SharedStep.trans

/-- There are `n` items. -/
def Holds (n : ℕ) (b : Ringbuf) : Prop := b.consumed + n ≤ b.written

theorem Holds.stable {n : ℕ} {b b' : Ringbuf} (h : Holds n b) (hs : SharedStep b b') :
    Holds n b' := by
  unfold Holds at *
  rw [hs.consumed]
  exact h.trans hs.written

theorem Holds.mono {m n : ℕ} {b : Ringbuf} (h : Holds n b) (hm : m ≤ n) : Holds m b := by
  unfold Holds at *
  omega

/-- `h` was the head after `sh` items, and the tail has not moved since. -/
structure HeadAt (h sh : ℕ) (b : Ringbuf) : Prop where
  head : h = sh % b.capacity
  ge : b.consumed ≤ sh
  le : sh ≤ b.written

theorem HeadAt.stable {h sh : ℕ} {b b' : Ringbuf} (hh : HeadAt h sh b) (hs : SharedStep b b') :
    HeadAt h sh b' := by
  refine ⟨?_, ?_, hh.le.trans hs.written⟩
  · rw [hs.capacity]; exact hh.head
  · rw [hs.consumed]; exact hh.ge

namespace HeadAt

variable {h sh : ℕ} {b : Ringbuf} (hh : HeadAt h sh b) (hb : RingInv b)
include hh hb

theorem lt : h < b.capacity := by rw [hh.head]; exact Nat.mod_lt _ hb.base.pos

theorem dist : ringDist h b.tail b.capacity = sh - b.consumed := by
  rw [hh.head, hb.base.tail]
  refine ringDist_mod hh.ge ?_
  have := hh.le
  have := hb.written_lt
  omega

theorem num : getWrittenNum h b.tail b.capacity = pure (sh - b.consumed) := by
  rw [getWrittenNum_eq (hh.lt hb) hb.tail_lt hb.lt_word, hh.dist hb]

omit hb in
theorem holds : Holds (sh - b.consumed) b := by
  have := hh.le
  have := hh.ge
  unfold Holds
  omega

end HeadAt

theorem RingInv.seenHead_at {b : Ringbuf} (h : RingInv b) : ∃ sh, HeadAt b.seenHead sh b := by
  obtain ⟨sh, v⟩ := h.reader
  exact ⟨sh, v.seen, v.ge, v.le⟩

theorem RingInv.head_at {b : Ringbuf} (h : RingInv b) : HeadAt b.head b.written b :=
  ⟨h.base.head, h.consumed_le, le_rfl⟩

/-- `seen_head` lies between `tail` and `head` in ring order. -/
theorem RingInv.seenHead_between {b : Ringbuf} (h : RingInv b) : b.seenHead < b.capacity ∧
    ringDist b.seenHead b.tail b.capacity ≤ ringDist b.head b.tail b.capacity := by
  obtain ⟨sh, hsh⟩ := h.seenHead_at
  refine ⟨hsh.lt h, ?_⟩
  rw [hsh.dist h, h.ringDist_items]
  exact Nat.sub_le_sub_right hsh.le _

/-- `seen_head` set to a head that was the real one once. -/
theorem HeadAt.store {h sh : ℕ} {b : Ringbuf} (hh : HeadAt h sh b) (hb : RingInv b) :
    LookStep b { b with seenHead := h } ∧ RingInv { b with seenHead := h } := by
  have hs := storeSeenHead_inv sh hb hh.ge hh.le
  rw [← hh.head] at hs
  exact ⟨⟨rfl, rfl, rfl, rfl, rfl, rfl, rfl, rfl, rfl⟩, hs.2.1⟩

theorem recordHead_look {b : Ringbuf} (h : RingInv b) (x : Option ℕ) :
    LookStep b { b with atHead := x } ∧ RingInv { b with atHead := x } :=
  ⟨⟨rfl, rfl, rfl, rfl, rfl, rfl, rfl, rfl, rfl⟩, (recordHead_inv h x).2⟩

/-- A call begins with the tail and with some head. -/
theorem beginRead_look (b : Ringbuf) :
    Safe RingInv lookRole (fun r b' => r.1 = b'.tail ∧ r.2.1 = b'.capacity ∧
      ∃ sh, HeadAt r.2.2 sh b') beginRead b := by
  refine Safe.access_bind fun b1 h1 i1 => ⟨(recordHead_look i1 _).1, (recordHead_look i1 _).2, ?_⟩
  refine Safe.load_bind LookStep.refl fun b2 h2 i2 => fun b3 h3 i3 => ?_
  obtain ⟨sh, hsh⟩ := i2.seenHead_at
  have h23 := SharedStep.trans h2 h3
  exact ⟨h23.tail.symm, h23.capacity.symm, sh, hsh.stable h3⟩

/-- The load of `head` and the store to `seen_head`. What another thread stores there later does not
    matter to the head in this thread's hands. -/
theorem reloadHead_look {α : Type} {b : Ringbuf} {Q : α → Ringbuf → Prop} {g : ℕ → RingProg α}
    (h : ∀ head sh b', SharedStep b b' → RingInv b' → HeadAt head sh b' →
      Safe RingInv lookRole Q (g head) b') :
    Safe RingInv lookRole Q
      (do
        let head ← loadHeadR
        Prog.store .seenHead fun b => { b with seenHead := head }
        g head) b := by
  refine Safe.access_bind fun b1 h1 i1 => ⟨(recordHead_look i1 _).1, (recordHead_look i1 _).2, ?_⟩
  refine Safe.access_bind fun b2 h2 i2 => ?_
  have h12 : SharedStep b1 b2 := ⟨h2.capacity, h2.tail, h2.consumed, h2.written⟩
  have hh := i1.head_at.stable h12
  obtain ⟨hs, i3⟩ := hh.store i2
  have h3 := (SharedStep.trans h1 h12).trans hs.shared
  exact ⟨hs, i3, h _ _ _ h3 i3 (hh.stable hs.shared)⟩

/-- A reload of `head`, which goes by `seen_head` as it is by then. -/
theorem refreshHead_look (b : Ringbuf) :
    Safe RingInv lookRole (fun n b' => SharedStep b b' ∧ Holds n b')
      (refreshHead b.tail b.capacity) b := by
  refine reloadHead_look fun _ _ b1 h1 i1 _ => ?_
  refine Safe.load_bind LookStep.refl fun b2 h2 i2 => ?_
  obtain ⟨sh, hsh⟩ := i2.seenHead_at
  have h12 := SharedStep.trans h1 h2
  rw [← h12.tail, ← h12.capacity, hsh.num i2, Prog.ofChk_pure]
  exact fun b3 h3 i3 => ⟨h12.trans h3, hsh.holds.stable h3⟩

/-- Whatever the other threads do to `seen_head`, the number is at most that of the items. -/
theorem readNum_look {b : Ringbuf} (hb : RingInv b) (stale : ℕ → Bool) :
    Safe RingInv lookRole (fun r b' => r.1 = b'.tail ∧ Holds r.2 b') (readNum stale) b := by
  refine Safe.bind hb ((beginRead_look b).mono fun r b1 i1 hr => ?_)
  obtain ⟨tail, c, seenHead⟩ := r
  obtain ⟨rfl, rfl, sh, hsh⟩ := hr
  dsimp only at hsh ⊢
  rw [hsh.num i1, Prog.ofChk_pure, Prog.ret_bind]
  unfold refreshHeadIf
  cases stale (sh - b1.consumed) with
  | true =>
    refine Safe.bind i1 ((refreshHead_look b1).mono fun n b2 _ ⟨h2, hn⟩ => fun b3 h3 _ => ?_)
    exact ⟨((SharedStep.trans h2 h3).tail).symm, hn.stable h3⟩
  | false =>
    exact fun b2 h2 _ => ⟨h2.tail.symm, hsh.holds.stable h2⟩

/-- The head that `peek` goes by, and the number of items up to it. -/
theorem peekNum_look {b : Ringbuf} {head sh : ℕ} (n : ℕ) (hh : HeadAt head sh b) :
    Safe RingInv lookRole
      (fun r b' => SharedStep b b' ∧ ∃ sh, HeadAt r.1 sh b' ∧ r.2 = sh - b'.consumed)
      (peekNum n b.tail b.capacity head (sh - b.consumed)) b := by
  unfold peekNum
  split
  · refine reloadHead_look fun head' sh' b1 h1 i1 hh1 => ?_
    rw [← h1.tail, ← h1.capacity, hh1.num i1, Prog.ofChk_pure, Prog.ret_bind]
    exact fun b2 h2 _ => ⟨h1.trans h2, sh', hh1.stable h2, by rw [h2.consumed]⟩
  · exact fun b1 h1 _ => ⟨h1, sh, hh.stable h1, by rw [h1.consumed]⟩

/-- `peek` tells of items that are there and in which runs the first of them lie. -/
theorem peek_look {b : Ringbuf} {n : ℕ} (hb : RingInv b) (h0 : n ≠ 0) :
    Safe RingInv lookRole
      (fun r b' => Holds r.1 b' ∧ (r.2 = none → r.1 = 0) ∧ ∀ off len1 len2,
        r.2 = some (off, len1, len2) → off = b'.tail ∧ Runs b'.tail b'.capacity (min n r.1) len1 len2)
      (peek n) b := by
  refine Safe.bind hb ((beginRead_look b).mono fun r b1 i1 hr => ?_)
  obtain ⟨tail, c, seenHead⟩ := r
  obtain ⟨rfl, rfl, sh, hsh⟩ := hr
  dsimp only at hsh ⊢
  rw [hsh.num i1, Prog.ofChk_pure, Prog.ret_bind]
  refine Safe.bind i1 ((peekNum_look n hsh).mono fun r b2 i2 hr => ?_)
  obtain ⟨head, cur⟩ := r
  obtain ⟨h2, sh', hh, rfl⟩ := hr
  dsimp only at hh ⊢
  rw [if_neg h0]
  have hmin : (if sh' - b2.consumed < n then sh' - b2.consumed else n) =
      min n (sh' - b2.consumed) := by split <;> omega
  split
  · refine fun b3 h3 _ => ⟨(hh.stable h3).ge.trans (hh.stable h3).le, fun _ => rfl, ?_⟩
    rintro off l1 l2 ⟨⟩
  · rename_i hne
    have hd := hh.dist i2
    obtain ⟨len1, len2, hs, hr⟩ := peekSplit_eq (hh.lt i2) i2.tail_lt i2.lt_word
      (show 0 < min n (sh' - b2.consumed) by omega) (by rw [hd]; omega)
    rw [hmin, Chk.require_eq (by omega), Prog.ofChk_pure, Prog.ret_bind, ← h2.tail, ← h2.capacity,
      hs, Prog.ofChk_pure, Prog.ret_bind]
    dsimp only
    rw [Chk.require_eq hr.sum, Prog.ofChk_pure, Prog.ret_bind]
    refine fun b3 h3 _ => ⟨hh.holds.stable h3, ?_, fun off l1 l2 he => ?_⟩
    · intro hnone
      cases hnone
    cases he
    rw [h3.tail, h3.capacity]
    exact ⟨rfl, hr⟩

end Ringbuf

namespace Queue

variable {ε : Type}

/-! ### The queue -/

/-- What one looking thread expects of the writer and of the others. -/
structure SharedMoves (q q' : Queue ε) : Prop where
  ring : Ringbuf.SharedStep q.ring q'.ring
  capacity : q'.capacity = q.capacity
  elemSize : q'.elemSize = q.elemSize

/-- What a looking thread may change. -/
structure LookMoves (q q' : Queue ε) : Prop where
  ring : Ringbuf.LookStep q.ring q'.ring
  capacity : q'.capacity = q.capacity
  elemSize : q'.elemSize = q.elemSize
  data : q'.data = q.data
  filled : q'.filled = q.filled

theorem SharedMoves.refl (q : Queue ε) : SharedMoves q q := ⟨.refl _, rfl, rfl⟩

theorem SharedMoves.trans {q q' q'' : Queue ε} (h : SharedMoves q q') (h' : SharedMoves q' q'') :
    SharedMoves q q'' := ⟨h.1.trans h'.1, h'.2.trans h.2, h'.3.trans h.3⟩

theorem LookMoves.refl (q : Queue ε) : LookMoves q q := ⟨.refl _, rfl, rfl, rfl, rfl⟩

theorem LookMoves.shared {q q' : Queue ε} (h : LookMoves q q') : SharedMoves q q' :=
  ⟨h.ring.shared, h.capacity, h.elemSize⟩

theorem LookMoves.consumer {q q' : Queue ε} (h : LookMoves q q') : ConsumerMoves q q' :=
  ⟨h.ring.reader, h.capacity, h.elemSize, h.data, h.filled⟩

theorem ProducerStep.shared {q q' : Queue ε} (h : ProducerStep q q') : SharedMoves q q' :=
  ⟨h.ring.shared, h.capacity, h.elemSize⟩

/-- A looking thread. -/
def lookRole : Role (Queue ε) (Acc QueueLoc) where
  rely := SharedMoves
  guar _ := LookMoves
  refl := SharedMoves.refl
  trans := SharedMoves.trans

theorem Lies.shared {p len1 len2 k : ℕ} {q q' : Queue ε} (h : Lies p len1 len2 k q)
    (hr : SharedMoves q q') : Lies p len1 len2 k q' :=
  h.congr hr.capacity hr.elemSize hr.ring.consumed

variable [Slot ε]

/-- A looking thread's call on the ring is one on the queue. -/
theorem onRing_look {α : Type} {p : RingProg α} {Q : α → Ringbuf → Prop} {q : Queue ε}
    (h : Safe Ringbuf.RingInv Ringbuf.lookRole Q p q.ring) :
    Safe QueueInv lookRole (fun a q' => Q a q'.ring) (onRing p) q := by
  refine (Safe.zoom (I := QueueInv) (ρ := lookRole) (L := ringLens) (φ := Acc.map QueueLoc.ring)
    (fun _ => True) (fun _ i => i.ring) (fun _ _ _ hr _ => hr.ring) (fun _ _ _ => trivial)
    (fun _ _ _ _ _ => trivial) ?_ id trivial h).mono fun _ _ _ hq => hq.1
  rintro l q' b - - hi hb hst
  have hst : Ringbuf.LookStep q'.ring b := hst
  refine ⟨⟨hst, rfl, rfl, rfl, rfl⟩, ?_, trivial⟩
  refine ⟨hb, hst.capacity.trans hi.slots, hi.pos, hi.fits, hst.written.trans_le hi.filled, ?_⟩
  intro k x hc hk hx
  exact hi.data k x (hst.consumed.ge.trans hc) (hst.written ▸ hk) hx

/-- The slot at `tail`. -/
theorem slotPtr_look {q : Queue ε} (hq : QueueInv q) :
    Safe QueueInv lookRole (fun p q' => p = q'.slotOf q'.ring.consumed ∧ SharedMoves q q')
      (slotPtr q.ring.tail) q := by
  refine Safe.load_bind LookMoves.refl fun q1 h1 i1 => ?_
  have ht : q.ring.tail < q1.ring.capacity := by rw [h1.ring.capacity]; exact hq.ring.tail_lt
  rw [i1.mul_eq ht, Prog.ofChk_pure]
  intro q2 h2 i2
  have h12 := SharedMoves.trans h1 h2
  refine ⟨?_, h12⟩
  rw [slotOf, ← i2.slots, ← i2.ring.base.tail, h12.ring.tail, h2.elemSize]

/-- `peek1` tells of elements that are there and points to the first. -/
theorem peek1_look {q : Queue ε} (hq : QueueInv q) :
    Safe QueueInv lookRole
      (fun r q' => Ringbuf.Holds r.1 q'.ring ∧ (r.2 = none → r.1 = 0) ∧
        ∀ p, r.2 = some p → 0 < r.1 ∧ p = q'.slotOf q'.ring.consumed)
      peek1 q := by
  refine Safe.bind hq ((onRing_look (Ringbuf.readNum_look hq.ring _)).mono fun r q1 i1 hr => ?_)
  obtain ⟨off, n⟩ := r
  obtain ⟨rfl, hn⟩ := hr
  dsimp only at hn ⊢
  split
  · rename_i h0
    refine Safe.bind i1 ((slotPtr_look i1).mono fun p q2 _ ⟨hp, h2⟩ => fun q3 h3 _ => ?_)
    refine ⟨(hn.stable h2.ring).stable h3.ring, nofun, fun p' he => ⟨h0, ?_⟩⟩
    cases he
    rw [hp, slotOf_congr h3.capacity h3.elemSize, h3.ring.consumed]
  · exact fun q2 h2 _ => ⟨hn.stable h2.ring, fun _ => by omega, nofun⟩

/-- `peek` tells of elements that are there and where the first of them lie. -/
theorem peek_look {q : Queue ε} (n : ℕ) (hq : QueueInv q) :
    Safe QueueInv lookRole
      (fun r q' => Ringbuf.Holds r.1 q'.ring ∧ (r.2 = none → r.1 = 0) ∧
        ∀ p len1 len2, r.2 = some (p, len1, len2) →
          Lies p len1 len2 (if n = 0 then r.1 else min n r.1) q')
      (peek n) q := by
  have hn0 : (if n = 0 then 2 ^ 64 - 1 else n) ≠ 0 := by split <;> omega
  refine Safe.bind hq ((onRing_look (Ringbuf.peek_look hq.ring hn0)).mono fun r q1 i1 hr => ?_)
  obtain ⟨cur, r⟩ := r
  obtain ⟨hn, hnone, hsome⟩ := hr
  dsimp only at hn hnone hsome ⊢
  cases r with
  | none => exact fun q2 h2 _ => ⟨hn.stable h2.ring, fun _ => hnone rfl, nofun⟩
  | some r =>
    obtain ⟨off, len1, len2⟩ := r
    obtain ⟨rfl, hruns⟩ := hsome off len1 len2 rfl
    -- no queue holds the number that stands for all
    have hmin : min (if n = 0 then 2 ^ 64 - 1 else n) cur = if n = 0 then cur else min n cur := by
      have h1 := i1.ring.written_lt
      have h2 := i1.ring.base.max
      unfold Ringbuf.Holds at hn
      split <;> omega
    rw [hmin, i1.slots, i1.ring.base.tail, i1.slots] at hruns
    refine Safe.bind i1 ((slotPtr_look i1).mono fun p q2 _ ⟨hp, h2⟩ => fun q3 h3 _ => ?_)
    refine ⟨(hn.stable h2.ring).stable h3.ring, nofun, fun p' l1 l2 he => ?_⟩
    cases he
    have hl : Lies (q1.slotOf q1.ring.consumed) len1 len2 (if n = 0 then cur else min n cur) q1 :=
      ⟨rfl, hruns⟩
    have hp' : p = q1.slotOf q1.ring.consumed := by
      rw [hp, slotOf_congr h2.capacity h2.elemSize, h2.ring.consumed]
    rw [hp']
    exact (hl.shared h2).shared h3

/-! ### Threads that look -/

/-- The calls that `arbiter.h` allows to several threads at a time. -/
inductive Look where
  | top
  | peek (n : ℕ)
  | peek1
  deriving DecidableEq, Repr

/-- A number of elements, and the runs of slots that the call describes: the first slot's pointer and
    the lengths of the two runs. -/
abbrev Answer : Type := ℕ × Option (ℕ × ℕ × ℕ)

omit [Slot ε] in
/-- `vms_arbiter_buffer_top`, `vms_arbiter_buffer_peek` and `vms_arbiter_buffer_peek1`. A pointer to
    one element is a run of one slot. -/
def look : Look → QueueProg ε Answer
  | .top => do
    let p ← top
    pure (if p.isSome then 1 else 0, p.map fun p => (p, 1, 0))
  | .peek n => peek n
  | .peek1 => do
    let (num, p) ← peek1
    pure (num, p.map fun p => (p, 1, 0))

/-- How many of `num` elements the call describes. -/
def Look.described : Look → ℕ → ℕ
  | .peek n, num => if n = 0 then num else min n num
  | _, num => min 1 num

/-- The answer tells of elements that are in the queue: it counts no more than there are, and
    describes the first ones of the content, in order. -/
def Describes (q : Queue ε) (x : Look) : Answer → Prop
  | (num, none) => num = 0
  | (num, some (p, len1, len2)) => 0 < num ∧ num ≤ q.content.length ∧
      len1 + len2 = x.described num ∧ (∀ i < len1, q.SlotAt i (p + i * q.elemSize)) ∧
      ∀ i < len2, q.SlotAt (len1 + i) (i * q.elemSize)

omit [Slot ε] in
/-- A looking thread between two calls: its last call and the answer. -/
def lookClient : Client (Queue ε) (Acc QueueLoc) (Option (Look × Answer)) Look where
  enabled _ _ _ := True
  body _ x := do
    let a ← look x
    pure (some (x, a))

/-- One writer, and the threads that look. -/
inductive Sharer (T : Type) where
  | writer
  | looker (t : T)
  deriving DecidableEq

abbrev ShareAt (ε T : Type) : Sharer T → Type
  | .writer => List ε
  | .looker _ => Option (Look × Answer)

abbrev ShareCall (ε T : Type) : Sharer T → Type
  | .writer => ε
  | .looker _ => Look

abbrev ShareCfg (ε T : Type) : Type := Cfg (Queue ε) (Acc QueueLoc) (ShareAt ε T)

section Share

variable {T : Type} [DecidableEq T]

omit [DecidableEq T] in
def sharers : (t : Sharer T) → Client (Queue ε) (Acc QueueLoc) (ShareAt ε T t) (ShareCall ε T t)
  | .writer => pushClient
  | .looker _ => lookClient

omit [Slot ε] [DecidableEq T] in
/-- The threads begin to look. The producer may be in the middle of a push. -/
def share (c : PeekCfg ε) : ShareCfg ε T :=
  ⟨c.mem, fun t => match t with
    | .writer => c.prog .producer
    | .looker _ => .ret none⟩

omit [Slot ε] [DecidableEq T] in
/-- The threads have looked, and one of them goes on as the consumer. -/
def unshare (i : ConsumerAt) (c : ShareCfg ε T) : PeekCfg ε :=
  ⟨c.mem, fun t => match t with
    | .producer => c.prog .writer
    | .consumer => .ret i⟩

end Share

/-- A queue in use: one consumer pops, drops and peeks, and any number of times it stops for a while
    and several threads look. After that the consumer asks again before it drops. -/
inductive Used (capacity elemSize : ℕ) (data : ℕ → ε) : PeekCfg ε → Prop
  | fresh : Used capacity elemSize data (fresh capacity elemSize data)
  | step {t : Thread} {c c' : PeekCfg ε} : Used capacity elemSize data c →
      Step peekClients t c c' → Used capacity elemSize data c'
  | shared {T : Type} [DecidableEq T] {i : ConsumerAt} {c : PeekCfg ε} {s : ShareCfg ε T} :
      Used capacity elemSize data c → c.prog .consumer = .ret i → Reach sharers (share c) s →
      (∀ t, ∃ a, s.prog (.looker t) = .ret a) →
      Used capacity elemSize data (unshare ⟨0, i.removed, none⟩ s)

/-! ### Each thread keeps to its role -/

section Share

variable {T : Type}

omit [Slot ε] in
def shareRoles : Sharer T → Role (Queue ε) (Acc QueueLoc)
  | .writer => pushRole
  | .looker _ => lookRole

omit [Slot ε] in
theorem shareRoles_compat {t u : Sharer T} (htu : t ≠ u) {l : Acc QueueLoc} {q q' : Queue ε}
    (hg : (shareRoles t).guar l q q') : (shareRoles u).rely q q' := by
  cases t with
  | writer =>
    have hg : ProducerStep q q' := hg
    cases u with
    | writer => exact absurd rfl htu
    | looker u => exact hg.shared
  | looker t =>
    have hg : LookMoves q q' := hg
    cases u with
    | writer => exact hg.consumer
    | looker u => exact hg.shared

/-- What a looking thread knows of its answer. -/
structure Noted (x : Look) (a : Answer) (q : Queue ε) : Prop where
  holds : Ringbuf.Holds a.1 q.ring
  none : a.2 = none → a.1 = 0
  some : ∀ p len1 len2, a.2 = some (p, len1, len2) → Lies p len1 len2 (x.described a.1) q

omit [Slot ε] in
theorem Noted.stable {x : Look} {a : Answer} {q q' : Queue ε} (h : Noted x a q)
    (hs : SharedMoves q q') : Noted x a q' :=
  ⟨h.holds.stable hs.ring, h.none, fun p len1 len2 ha => (h.some p len1 len2 ha).shared hs⟩

theorem Noted.describes {x : Look} {a : Answer} {q : Queue ε} (h : Noted x a q) (hq : QueueInv q) :
    Describes q x a := by
  obtain ⟨num, r⟩ := a
  have hn : q.ring.consumed + num ≤ q.ring.written := h.holds
  cases r with
  | none => exact h.none rfl
  | some r =>
    obtain ⟨p, len1, len2⟩ := r
    have hl := h.some p len1 len2 rfl
    have hle : x.described num ≤ num := by
      cases x with
      | top => exact min_le_right 1 num
      | peek n => unfold Look.described; dsimp only; split <;> omega
      | peek1 => exact min_le_right 1 num
    have hpos := hl.runs.pos
    have hsum : len1 + len2 = x.described num := hl.runs.sum
    refine ⟨by omega, ?_, hsum, hl.slots hq (hle.trans (by omega))⟩
    rw [hq.content_length]
    omega

/-- What each thread knows between two calls. -/
def ShareKnown : (t : Sharer T) → ShareAt ε T t → Queue ε → Prop
  | .writer, elems, q => q.pushed = elems
  | .looker _, a, q => ∀ x r, a = some (x, r) → Noted x r q

omit [Slot ε] in
/-- The slot of the oldest element as a run. -/
theorem Lies.one (q : Queue ε) : Lies (q.slotOf q.ring.consumed) 1 0 1 q :=
  ⟨rfl, rfl, Nat.one_pos, Nat.mod_lt _ (Nat.succ_pos _), fun h => absurd h (lt_irrefl 0)⟩

theorem look_safe (x : Look) {q : Queue ε} (hq : QueueInv q) :
    Safe QueueInv lookRole (fun a q' => Noted x a q') (look x) q := by
  cases x with
  | peek n =>
    exact (peek_look n hq).mono fun r q' _ ⟨hn, hnone, hsome⟩ => ⟨hn, hnone, hsome⟩
  | peek1 =>
    refine Safe.bind hq ((peek1_look hq).mono fun r q1 _ hr => fun q2 h2 _ => ?_)
    obtain ⟨num, p⟩ := r
    obtain ⟨hn, hnone, hsome⟩ := hr
    dsimp only at hn hnone hsome
    refine Noted.stable ⟨hn, ?_, ?_⟩ h2
    · intro h0
      exact hnone (Option.map_eq_none_iff.mp h0)
    · intro p' len1 len2 he
      obtain ⟨p, hp, he⟩ := Option.map_eq_some_iff.mp he
      obtain ⟨h0, rfl⟩ := hsome p hp
      cases he
      have h1 : Look.described .peek1 num = 1 := min_eq_left h0
      dsimp only
      rw [h1]
      exact Lies.one q1
  | top =>
    refine Safe.bind hq (Safe.bind hq ((peek1_look hq).mono fun r q1 _ hr => fun q2 h2 _ =>
      fun q3 h3 _ => ?_))
    obtain ⟨num, p⟩ := r
    obtain ⟨hn, -, hsome⟩ := hr
    dsimp only at hn hsome ⊢
    refine Noted.stable ?_ (SharedMoves.trans h2 h3)
    cases p with
    | none => exact ⟨hn.mono (Nat.zero_le _), fun _ => rfl, nofun⟩
    | some p =>
      obtain ⟨h0, rfl⟩ := hsome p rfl
      refine ⟨hn.mono h0, nofun, fun p' len1 len2 he => ?_⟩
      cases he
      exact Lies.one q1

/-- All threads keep to their roles. -/
def ShareSafe (c : ShareCfg ε T) : Prop :=
  QueueInv c.mem ∧ ∀ t, Safe QueueInv (shareRoles t) (ShareKnown t) (c.prog t) c.mem

theorem PeekSafe.share {c : PeekCfg ε} (h : PeekSafe c) :
    ShareSafe (share c : ShareCfg ε T) := by
  refine ⟨h.1, fun t => ?_⟩
  cases t with
  | writer => exact h.2 .producer
  | looker t => exact fun _ _ _ => nofun

theorem sharers_safe {t : Sharer T} {i : ShareAt ε T t} {x : ShareCall ε T t} {q : Queue ε}
    (hq : QueueInv q) (hk : ShareKnown t i q) (he : (sharers t).enabled i x q) :
    Safe QueueInv (shareRoles t) (ShareKnown t) ((sharers t).body i x) q := by
  cases t with
  | writer => exact pushClient_safe hq hk he
  | looker t =>
    refine Safe.bind hq ((look_safe x hq).mono fun a q1 _ ha => fun q2 h2 _ => ?_)
    intro x' r hr
    cases hr
    exact ha.stable h2

variable [DecidableEq T]

/-- Every interleaving of one phase. -/
theorem ShareSafe.reach {c₀ c : ShareCfg ε T} (h₀ : ShareSafe c₀) (h : Reach sharers c₀ c) :
    ShareSafe c ∧ c.mem.ring.consumed = c₀.mem.ring.consumed := by
  have hpre : ∀ (t : Sharer T) l (q : Queue ε), (sharers t).allowed l q →
      (shareRoles t).pre l q := by
    intro t l q _
    cases t <;> trivial
  have hcompat : ∀ t u : Sharer T, t ≠ u → ∀ l (q q' : Queue ε), QueueInv q → QueueInv q' →
      (shareRoles t).guar l q q' → (shareRoles u).rely q q' :=
    fun t u htu l q q' _ _ hg => shareRoles_compat htu hg
  refine ⟨reach_safe hpre hcompat (fun t i x q => sharers_safe) h₀.1 h₀.2 h, ?_⟩
  refine reach_related (R := fun q q' => q'.ring.consumed = q.ring.consumed) hpre hcompat
    (fun t i x q => sharers_safe) (fun _ => rfl) (fun h h' => h'.trans h) ?_ h₀.1 h₀.2 h
  intro t l q q' hg
  cases t with
  | writer => exact ProducerStep.ring hg |>.consumed
  | looker t => exact LookMoves.ring hg |>.consumed

omit [DecidableEq T] in
theorem ShareSafe.unshare {s : ShareCfg ε T} {k : ℕ} (h : ShareSafe s)
    (hk : s.mem.ring.consumed = k) : PeekSafe (unshare ⟨0, k, none⟩ s) := by
  refine ⟨h.1, fun t => ?_⟩
  cases t with
  | producer => exact h.2 .writer
  | consumer =>
    intro q' hr hI
    have hm : ProducerStep s.mem q' := hr
    exact ⟨hI.ring.avail_zero, hm.ring.consumed.trans hk, nofun⟩

end Share

/-! ### Runs -/

section Runs

variable {capacity elemSize : ℕ} {data : ℕ → ε}

theorem Used.safe (hi : (init capacity elemSize data).ok = true) {c : PeekCfg ε}
    (h : Used capacity elemSize data c) : PeekSafe c := by
  induction h with
  | fresh => exact .fresh hi
  | step _ hs ih => exact ih.step hs
  | shared _ hc hr _ ih =>
    obtain ⟨hs, hcons⟩ := ih.share.reach hr
    have hk : ConsumerKnows _ _ := (ih.2 .consumer).at_ret ih.1 hc
    exact hs.unshare (hcons.trans hk.removed)

/-- Any number of threads look into a queue in use while one writer pushes, in every interleaving of
    their accesses: every answer tells of elements that are in the queue, and `seen_head` stays
    between `tail` and `head`. -/
theorem share_content {T : Type} [DecidableEq T] (hi : (init capacity elemSize data).ok = true)
    {c₀ : PeekCfg ε} (h₀ : Used capacity elemSize data c₀) {c : ShareCfg ε T}
    (h : Reach sharers (share c₀) c) :
    (∀ t x a, c.prog (.looker t) = .ret (some (x, a)) → Describes c.mem x a) ∧
    c.mem.ring.seenHead < c.mem.ring.capacity ∧
    ringDist c.mem.ring.seenHead c.mem.ring.tail c.mem.ring.capacity ≤
      ringDist c.mem.ring.head c.mem.ring.tail c.mem.ring.capacity := by
  obtain ⟨⟨hq, hs⟩, -⟩ := ((h₀.safe hi).share (T := T)).reach h
  refine ⟨fun t x a ha => ?_, hq.ring.seenHead_between⟩
  have hk : ShareKnown (.looker t) (some (x, a)) c.mem := (hs (.looker t)).at_ret hq ha
  exact (hk x a rfl).describes hq

/-- One thread loads a head and waits; meanwhile another element is pushed, and another thread is
    told of both. Then the first one sets `seen_head` back. -/
theorem share_content_back : ∃ c : ShareCfg Bytes Bool,
    Reach sharers (share (fresh 2 1 fun _ => [0])) c ∧
    c.mem.ring.seenHead = 1 ∧ c.mem.ring.head = 2 ∧ c.mem.content = [[7], [8]] ∧
    c.prog (.looker true) = .ret (some (.peek 0, (2, some (0, 2, 0)))) ∧
    Describes c.mem (.peek 0) (2, some (0, 2, 0)) := by
  have h0 : Reach (sharers (ε := Bytes)) (share (fresh 2 1 fun _ => [0]))
      (share (fresh 2 1 fun _ => [0]) : ShareCfg Bytes Bool) := .start
  have h1 := h0.call .writer (i := []) [7] rfl (show 1 ≤ 1 by decide) fun _ _ => trivial
  have h2 := h1.begin (.looker false) .top rfl trivial
  -- the loads of `tail`, of `seen_head` and of `head`
  have h3 := ((h2.once (.looker false) fun _ _ => trivial).once (.looker false)
    fun _ _ => trivial).once (.looker false) fun _ _ => trivial
  have h4 := h3.call .writer (i := [[7]]) [8] rfl (show 1 ≤ 1 by decide) fun _ _ => trivial
  have h5 := h4.call (.looker true) (.peek 0) rfl trivial fun _ _ => trivial
  have h6 := h5.finish (.looker false) (Prog.within_of_forall (fun _ _ => trivial) _ _)
  exact ⟨_, h6, rfl, rfl, rfl, rfl, (share_content (by decide) .fresh h6).1 true _ _ rfl⟩

end Runs

end Queue

end Vamos
