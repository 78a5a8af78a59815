import Mathlib.Tactic
import VamosBuffers.Core.QueueSpsc
import VamosBuffers.Schemes.RelyGuarantee

/-! The count of `vms_queue_spsc`, in every interleaving of one writer and one reader. With `w` elements
    written and `r` consumed,

        elem_num = w - r ≤ capacity        always
        head = w, tail = r                 modulo capacity, between the calls of the side that owns it

    so a slot that the writer reserves is not one of the `w - r` unread ones. The reader keeps this up
    as long as the number it consumes comes through an `int` unchanged and `tail` can be moved by it
    without a wrap of the word. -/

namespace Vamos
open Schemes

namespace QueueSpsc

/-- The offsets of the unread elements, oldest first. -/
def unread (q : QueueSpsc) : List ℕ := q.offsets.drop q.consumed

/-- `consume(k)` can be counted: the number of elements comes through the `int` of `elem_num_dec`
    unchanged, and `tail` does not wrap when it is moved by it. -/
def Fits (q : QueueSpsc) (k : ℕ) : Prop :=
  (min k q.elemNum < 2 ^ 31 ∨ 2 ^ 64 - 2 ^ 31 ≤ min k q.elemNum) ∧
    q.tail + min k q.elemNum < 2 ^ 64

/-- The runs in which every `consume` can be counted when it loads `elem_num`. -/
def Counts : SpscAcc → QueueSpsc → Prop
  | .count k, q => q.Fits k
  | _, _ => True

/-- What a step of the writer may change. -/
structure WriterStep (q q' : QueueSpsc) : Prop where
  capacity : q'.capacity = q.capacity
  tail : q'.tail = q.tail
  consumed : q'.consumed = q.consumed
  counted : q'.counted = q.counted
  written : q.offsets.length ≤ q'.offsets.length

/-- What a step of the reader may change. -/
structure ReaderStep (q q' : QueueSpsc) : Prop where
  capacity : q'.capacity = q.capacity
  head : q'.head = q.head
  partialHead : q'.partialHead = q.partialHead
  writingKElems : q'.writingKElems = q.writingKElems
  offsets : q'.offsets = q.offsets
  consumed : q.consumed ≤ q'.consumed

theorem WriterStep.refl (q : QueueSpsc) : WriterStep q q := ⟨rfl, rfl, rfl, rfl, le_rfl⟩

theorem ReaderStep.refl (q : QueueSpsc) : ReaderStep q q := ⟨rfl, rfl, rfl, rfl, rfl, le_rfl⟩

theorem WriterStep.trans {q q' q'' : QueueSpsc} (h : WriterStep q q') (h' : WriterStep q' q'') :
    WriterStep q q'' :=
  ⟨h'.1.trans h.1, h'.2.trans h.2, h'.3.trans h.3, h'.4.trans h.4, h.5.trans h'.5⟩

theorem ReaderStep.trans {q q' q'' : QueueSpsc} (h : ReaderStep q q') (h' : ReaderStep q' q'') :
    ReaderStep q q'' :=
  ⟨h'.1.trans h.1, h'.2.trans h.2, h'.3.trans h.3, h'.4.trans h.4, h'.5.trans h.5, h.6.trans h'.6⟩

def writerRole : Role QueueSpsc SpscAcc where
  rely := ReaderStep
  guar _ := WriterStep
  refl := ReaderStep.refl
  trans := ReaderStep.trans

/-- The reader, in the runs in which its calls can be counted. -/
def readerRole : Role QueueSpsc SpscAcc where
  rely := WriterStep
  guar _ := ReaderStep
  refl := WriterStep.refl
  trans := WriterStep.trans
  pre := Counts

/-- The invariant. -/
structure SpscInv (q : QueueSpsc) : Prop where
  pos : 0 < q.capacity
  word : q.capacity < 2 ^ 64
  consumed : q.consumed ≤ q.offsets.length
  room : q.offsets.length ≤ q.consumed + q.capacity
  count : q.elemNum = q.offsets.length - q.consumed
  offsets : q.offsets = (List.range q.offsets.length).map (· % q.capacity)

/-- The indices, and what is private to one side, are not in the invariant. -/
theorem SpscInv.same {q q' : QueueSpsc} (h : SpscInv q) (hc : q'.capacity = q.capacity)
    (he : q'.elemNum = q.elemNum) (ho : q'.offsets = q.offsets) (hr : q'.consumed = q.consumed) :
    SpscInv q' := by
  obtain ⟨h1, h2, h3, h4, h5, h6⟩ := h
  refine ⟨?_, ?_, ?_, ?_, ?_, ?_⟩
  · rw [hc]; exact h1
  · rw [hc]; exact h2
  · rw [ho, hr]; exact h3
  · rw [ho, hr, hc]; exact h4
  · rw [he, ho, hr]; exact h5
  · rw [ho, hc]; exact h6

theorem SpscInv.elemNum_le {q : QueueSpsc} (h : SpscInv q) : q.elemNum ≤ q.capacity := by
  have := h.count
  have := h.room
  omega

/-- The offsets of the unread elements are those from `consumed` on, around the ring. -/
theorem SpscInv.unread_eq {q : QueueSpsc} (h : SpscInv q) :
    q.unread = (List.range q.elemNum).map fun i => (q.consumed + i) % q.capacity := by
  rw [unread, h.offsets, ← List.map_drop, h.count]
  refine List.ext_getElem (by simp) fun i h1 h2 => ?_
  simp

section Safe

variable {α β : Type} {ρ : Role QueueSpsc SpscAcc} {Q : β → QueueSpsc → Prop} {q : QueueSpsc}

theorem get_safe {x : SpscLoc} {f : QueueSpsc → α} {g : α → SpscProg β}
    (hg : ∀ q, ρ.guar (.load x) q q)
    (h : ∀ q', ρ.rely q q' → SpscInv q' → Safe SpscInv ρ Q (g (f q')) q') :
    Safe SpscInv ρ Q (get x f >>= g) q :=
  fun q' hr hi _ => ⟨hg q', hi, h q' hr hi⟩

theorem set_safe {x : SpscLoc} {f : QueueSpsc → QueueSpsc} {g : Unit → SpscProg β}
    (h : ∀ q', ρ.rely q q' → SpscInv q' → ρ.guar (.store x) q' (f q') ∧ SpscInv (f q') ∧
      Safe SpscInv ρ Q (g ()) (f q')) :
    Safe SpscInv ρ Q (set x f >>= g) q :=
  fun q' hr hi _ => h q' hr hi

theorem check_safe {p : Prop} [Decidable p] {g : Unit → SpscProg β} (hp : p)
    (h : Safe SpscInv ρ Q (g ()) q) : Safe SpscInv ρ Q (check p >>= g) q := by
  rw [check, Chk.require_eq hp, Prog.ofChk_pure]
  exact h

end Safe

/-! ### Writer -/

/-- `head` is the offset of the next element. -/
def AtHead (q : QueueSpsc) : Prop := q.head = q.offsets.length % q.capacity

theorem AtHead.stable {q q' : QueueSpsc} (h : AtHead q) (hs : ReaderStep q q') : AtHead q' := by
  unfold AtHead at *
  rw [hs.head, hs.offsets, hs.capacity]
  exact h

/-- The writer has reserved the offset of the next element. -/
structure Reserved (off : ℕ) (q : QueueSpsc) : Prop where
  off : off = q.head
  head : AtHead q
  partialHead : q.partialHead = q.head
  writingKElems : q.writingKElems = 1
  room : q.offsets.length < q.consumed + q.capacity

theorem Reserved.stable {off : ℕ} {q q' : QueueSpsc} (h : Reserved off q) (hs : ReaderStep q q') :
    Reserved off q' := by
  refine ⟨?_, h.head.stable hs, ?_, ?_, ?_⟩
  · rw [hs.head]; exact h.off
  · rw [hs.partialHead, hs.head]; exact h.partialHead
  · rw [hs.writingKElems]; exact h.writingKElems
  · rw [hs.offsets, hs.capacity]
    exact h.room.trans_le (Nat.add_le_add_right hs.consumed _)

/-- The reserved offset is not that of an unread element. -/
theorem Reserved.not_unread {off : ℕ} {q : QueueSpsc} (h : Reserved off q) (hq : SpscInv q) :
    off ∉ q.unread := by
  rw [hq.unread_eq, h.off, h.head]
  intro hm
  obtain ⟨i, hi, he⟩ := List.mem_map.mp hm
  have hlt := List.mem_range.mp hi
  have hc := hq.count
  have hr := h.room
  exact mod_ne_mod (show q.consumed + i < q.offsets.length by omega) (by omega) he.symm

/-- What the writer knows between two calls: whether an offset is reserved, and which. -/
def WriterKnows : Option ℕ → QueueSpsc → Prop
  | none, q => AtHead q
  | some off, q => Reserved off q

/-- `write_offset` reserves the next offset, and refuses only if the queue was full when it loaded
    `elem_num`. -/
theorem writeOffset_safe {q : QueueSpsc} (hw : AtHead q) :
    Safe SpscInv writerRole
      (fun r q' => WriterKnows r q' ∧ q'.offsets = q.offsets ∧
        (r = none → q.consumed + q.capacity ≤ q.offsets.length))
      writeOffset q := by
  refine get_safe WriterStep.refl fun q1 h1 i1 => ?_
  have hw1 := hw.stable h1
  have hc := i1.count
  have hle := i1.consumed
  have hoff : q1.offsets = q.offsets := h1.offsets
  dsimp only
  split
  · rename_i hfull
    refine fun q2 h2 _ => ⟨hw1.stable h2, h2.offsets.trans hoff, fun _ => ?_⟩
    rw [← hoff, ← h1.capacity]
    have := h1.consumed
    omega
  · rename_i hfree
    have hroom : q1.offsets.length < q1.consumed + q1.capacity := by
      have := i1.elemNum_le
      omega
    refine get_safe WriterStep.refl fun q2 h2 i2 => get_safe WriterStep.refl fun q3 h3 i3 => ?_
    refine set_safe fun q4 h4 i4 => ⟨⟨rfl, rfl, rfl, rfl, le_rfl⟩, i4.same rfl rfl rfl rfl, ?_⟩
    refine set_safe fun q5 h5 i5 => ⟨⟨rfl, rfl, rfl, rfl, le_rfl⟩, i5.same rfl rfl rfl rfl, ?_⟩
    have h14 := (ReaderStep.trans h2 h3).trans h4
    have hhead : q5.head = q1.head := h5.head.trans h14.head
    have hpartial : q5.partialHead = q1.head := h5.partialHead.trans (h3.head.trans h2.head)
    have hoff5 : q5.offsets = q1.offsets := h5.offsets.trans h14.offsets
    have hcap5 : q5.capacity = q1.capacity := h5.capacity.trans h14.capacity
    have hcons : q1.consumed ≤ q5.consumed := h14.consumed.trans h5.consumed
    have hr : Reserved q2.head { q5 with writingKElems := 1 } := by
      refine ⟨h2.head.trans hhead.symm, ?_, hpartial.trans hhead.symm, rfl, ?_⟩
      · show q5.head = q5.offsets.length % q5.capacity
        rw [hhead, hoff5, hcap5]
        exact hw1
      · show q5.offsets.length < q5.consumed + q5.capacity
        rw [hoff5, hcap5]
        omega
    exact fun q6 h6 _ => ⟨hr.stable h6, h6.offsets.trans (hoff5.trans hoff), nofun⟩

/-- `if (q->head == q->capacity) q->head = 0`: the offset of the next element but one. -/
theorem rotateHead_safe {q : QueueSpsc} {w : ℕ} {β : Type} {Q : β → QueueSpsc → Prop}
    {g : Unit → SpscProg β} (hw : q.head = w % q.capacity + 1)
    (h : ∀ q', SpscInv q' → q'.head = (w + 1) % q'.capacity → q'.capacity = q.capacity →
      q'.partialHead = q.partialHead → q'.offsets = q.offsets → q.consumed ≤ q'.consumed →
      Safe SpscInv writerRole Q (g ()) q') :
    Safe SpscInv writerRole Q (rotateHead >>= g) q := by
  rw [rotateHead, Prog.bind_assoc]
  refine get_safe WriterStep.refl fun q1 h1 i1 => ?_
  have hmod := add_mod_wrap (w := w) (n := 1) i1.pos i1.pos
  have hlt := Nat.mod_lt w i1.pos
  rw [← h1.head, ← h1.capacity] at hw
  dsimp only
  split
  · rename_i hfull
    refine set_safe fun q2 h2 i2 => ⟨⟨rfl, rfl, rfl, rfl, le_rfl⟩, i2.same rfl rfl rfl rfl, ?_⟩
    have h12 := ReaderStep.trans h1 h2
    refine h _ (i2.same rfl rfl rfl rfl) ?_ h12.capacity h12.partialHead h12.offsets h12.consumed
    show 0 = (w + 1) % q2.capacity
    rw [h2.capacity, hmod, if_pos (by omega)]
    omega
  · refine h q1 i1 ?_ h1.capacity h1.partialHead h1.offsets h1.consumed
    rw [hmod, if_neg (by omega), hw]

/-- `elem_num_inc(1)` publishes the element at the reserved offset. -/
theorem SpscInv.publish {q : QueueSpsc} (h : SpscInv q)
    (hroom : q.offsets.length < q.consumed + q.capacity)
    (hp : q.partialHead = q.offsets.length % q.capacity) :
    let q' : QueueSpsc := { q with elemNum := (q.elemNum + throughInt 1) % 2 ^ 64,
                                   offsets := q.offsets ++ List.range' q.partialHead 1 }
    SpscInv q' ∧ q'.offsets.length = q.offsets.length + 1 ∧ WriterStep q q' := by
  intro q'
  have hcount := h.count
  have hcons := h.consumed
  have hword := h.word
  have hlen : q'.offsets.length = q.offsets.length + 1 := by simp [q']
  have hone : throughInt 1 = 1 := rfl
  have hnum : q'.elemNum = q.elemNum + 1 := by
    show (q.elemNum + throughInt 1) % 2 ^ 64 = _
    rw [hone, Nat.mod_eq_of_lt (by omega)]
  refine ⟨⟨h.pos, h.word, ?_, ?_, ?_, ?_⟩, hlen, ⟨rfl, rfl, rfl, rfl, by rw [hlen]; omega⟩⟩
  · rw [hlen]; exact hcons.trans (Nat.le_succ _)
  · rw [hlen]; exact hroom
  · rw [hlen, hnum]
    show q.elemNum + 1 = q.offsets.length + 1 - q.consumed
    omega
  · rw [hlen, List.range_succ, List.map_append]
    show q.offsets ++ List.range' q.partialHead 1 =
      (List.range q.offsets.length).map (· % q.capacity) ++ [q.offsets.length % q.capacity]
    rw [← h.offsets, hp]
    rfl

/-- `write_finish` publishes the element at the reserved offset. -/
theorem writeFinish_safe {off : ℕ} {q : QueueSpsc} (hr : Reserved off q) :
    Safe SpscInv writerRole
      (fun _ q' => AtHead q' ∧ q'.offsets.length = q.offsets.length + 1) writeFinish q := by
  unfold writeFinish writesFinish
  refine get_safe WriterStep.refl fun q1 h1 i1 => get_safe WriterStep.refl fun q2 h2 i2 => ?_
  have hr2 := (hr.stable h1).stable h2
  refine check_safe (by rw [← hr2.partialHead, h2.partialHead]) ?_
  refine get_safe WriterStep.refl fun q3 h3 i3 => ?_
  have hr3 := hr2.stable h3
  refine check_safe (by rw [hr3.writingKElems]) ?_
  refine get_safe WriterStep.refl fun q4 h4 i4 => ?_
  have hr4 := hr3.stable h4
  have hlt : q4.head < q4.capacity := by rw [hr4.head]; exact Nat.mod_lt _ i4.pos
  have hword := i4.word
  dsimp only
  rw [Chk.add_eq (by omega), Prog.ofChk_pure, Prog.ret_bind]
  refine check_safe hlt (get_safe WriterStep.refl fun q5 h5 i5 => ?_)
  have hr5 := hr4.stable h5
  have hhead : q5.head = q4.head := h5.head
  rw [Chk.add_eq (by omega), Prog.ofChk_pure, Prog.ret_bind]
  refine set_safe fun q6 h6 i6 => ⟨⟨rfl, rfl, rfl, rfl, le_rfl⟩, i6.same rfl rfl rfl rfl, ?_⟩
  have hr6 := hr5.stable h6
  refine rotateHead_safe (w := q6.offsets.length) ?_ fun q7 i7 hw7 hc7 hp7 ho7 hr7 => ?_
  · show q5.head + 1 = q6.offsets.length % q6.capacity + 1
    rw [← h6.head, hr6.head]
  have hc7 : q7.capacity = q6.capacity := hc7
  have ho7 : q7.offsets = q6.offsets := ho7
  have hp7 : q7.partialHead = q6.partialHead := hp7
  have hr7 : q6.consumed ≤ q7.consumed := hr7
  refine Safe.access fun q8 h8 i8 => ?_
  have hoff8 : q8.offsets = q6.offsets := h8.offsets.trans ho7
  have hcap8 : q8.capacity = q6.capacity := h8.capacity.trans hc7
  have hcons8 : q6.consumed ≤ q8.consumed := hr7.trans h8.consumed
  have hroom := hr6.room
  obtain ⟨i9, hlen, hst⟩ := i8.publish (by rw [hoff8, hcap8]; omega) (by
    rw [h8.partialHead, hp7, hr6.partialHead, hr6.head, hoff8, hcap8])
  refine ⟨hst, i9, fun q9 h9 _ => ⟨AtHead.stable ?_ h9, ?_⟩⟩
  · show q8.head = _ % q8.capacity
    rw [hlen, h8.head, hw7, hoff8, hcap8, hc7]
  · rw [h9.offsets, hlen, hoff8, h6.offsets, h5.offsets, h4.offsets, h3.offsets, h2.offsets,
      h1.offsets]

/-! ### Reader -/

/-- `tail` is the offset of the oldest unread element. -/
def AtTail (q : QueueSpsc) : Prop := q.tail = q.consumed % q.capacity

theorem AtTail.stable {q q' : QueueSpsc} (h : AtTail q) (hs : WriterStep q q') : AtTail q' := by
  unfold AtTail at *
  rw [hs.tail, hs.consumed, hs.capacity]
  exact h

theorem SpscInv.elemNum_grows {q q' : QueueSpsc} (h : SpscInv q) (h' : SpscInv q')
    (hs : WriterStep q q') : q.elemNum ≤ q'.elemNum := by
  rw [h.count, h'.count, hs.consumed]
  exact Nat.sub_le_sub_right hs.written _

/-- `if (q->tail >= q->capacity) q->tail -= q->capacity` after `tail` was moved by `n`. -/
theorem rotateTail_safe {q : QueueSpsc} {r n : ℕ} {β : Type} {Q : β → QueueSpsc → Prop}
    {g : Unit → SpscProg β} (hn : n ≤ q.capacity) (ht : q.tail = r % q.capacity + n)
    (hlt : q.tail < 2 ^ 64)
    (h : ∀ q', SpscInv q' → q'.tail = (r + n) % q'.capacity → q'.capacity = q.capacity →
      q'.consumed = q.consumed → q'.counted = q.counted →
      q.offsets.length ≤ q'.offsets.length → Safe SpscInv readerRole Q (g ()) q') :
    Safe SpscInv readerRole Q (rotateTail >>= g) q := by
  rw [rotateTail, Prog.bind_assoc]
  refine get_safe ReaderStep.refl fun q1 h1 i1 => ?_
  have hmod := add_mod_wrap (w := r) i1.pos (n := n) (by rw [h1.capacity]; exact hn)
  rw [← h1.tail, ← h1.capacity] at ht
  rw [← h1.tail] at hlt
  dsimp only
  split
  · rename_i hfull
    rw [Chk.sub_eq hfull hlt, Prog.ofChk_pure, Prog.ret_bind]
    refine set_safe fun q2 h2 i2 => ⟨⟨rfl, rfl, rfl, rfl, rfl, le_rfl⟩, i2.same rfl rfl rfl rfl, ?_⟩
    have h12 := WriterStep.trans h1 h2
    refine h _ (i2.same rfl rfl rfl rfl) ?_ h12.capacity h12.consumed h12.counted h12.written
    show q1.tail - q1.capacity = (r + n) % q2.capacity
    rw [h2.capacity, hmod, if_pos (ht ▸ hfull), ht]
  · rename_i hfree
    refine h q1 i1 ?_ h1.capacity h1.consumed h1.counted h1.written
    rw [hmod, if_neg (ht ▸ hfree), ht]

/-- `elem_num_dec(n)` of a number that comes through the `int`. -/
theorem SpscInv.remove {q : QueueSpsc} {n : ℕ} (h : SpscInv q) (hn : n ≤ q.elemNum)
    (hi : throughInt n = n) :
    let q' : QueueSpsc := { q with elemNum := (q.elemNum + (2 ^ 64 - throughInt n)) % 2 ^ 64,
                                   consumed := q.consumed + n }
    SpscInv q' ∧ ReaderStep q q' := by
  intro q'
  have hcount := h.count
  have hcons := h.consumed
  have hroom := h.room
  have hword := h.word
  have hnum : q'.elemNum = q.elemNum - n := by
    show (q.elemNum + (2 ^ 64 - throughInt n)) % 2 ^ 64 = _
    rw [hi]
    omega
  refine ⟨⟨h.pos, h.word, ?_, ?_, ?_, h.offsets⟩, ⟨rfl, rfl, rfl, rfl, rfl, Nat.le_add_right _ n⟩⟩
  · show q.consumed + n ≤ q.offsets.length
    omega
  · show q.offsets.length ≤ q.consumed + n + q.capacity
    omega
  · rw [hnum]
    show q.elemNum - n = q.offsets.length - (q.consumed + n)
    omega

/-- The load of `elem_num` that `consume(k)` goes by. -/
theorem count_safe {k : ℕ} {q : QueueSpsc} {β : Type} {Q : β → QueueSpsc → Prop}
    {g : ℕ → SpscProg β}
    (h : ∀ q', WriterStep q q' → SpscInv q' → q'.Fits k →
      Safe SpscInv readerRole Q (g q'.elemNum) { q' with counted := q'.elemNum }) :
    Safe SpscInv readerRole Q
      (Prog.access (.count k) (·.elemNum) (fun q => { q with counted := q.elemNum }) >>= g) q :=
  fun q' hr hi hf => ⟨⟨rfl, rfl, rfl, rfl, rfl, le_rfl⟩, hi.same rfl rfl rfl rfl, h q' hr hi hf⟩

/-- `consume(k)` consumes as many elements as it was asked for, or all that it counted. -/
theorem consume_safe {k : ℕ} {q : QueueSpsc} (h0 : 0 < k) (ht : AtTail q) :
    Safe SpscInv readerRole (fun r q' => AtTail q' ∧ r = min k q'.counted) (consume k) q := by
  refine check_safe h0 (count_safe fun q1 h1 i1 ⟨hint, hword⟩ => ?_)
  have ht1 : q1.tail = q1.consumed % q1.capacity := ht.stable h1
  have hmin : (if q1.elemNum < k then q1.elemNum else k) = min k q1.elemNum := by split <;> omega
  rw [hmin]
  have hle := min_le_right k q1.elemNum
  have hcap := i1.elemNum_le
  have hcap64 := i1.word
  have hthrough := (throughInt_eq_iff (show min k q1.elemNum < 2 ^ 64 by omega)).mpr hint
  generalize hn : min k q1.elemNum = n at hword hle hthrough
  refine get_safe ReaderStep.refl fun q2 h2 i2 => ?_
  have htail2 : q2.tail = q1.tail := h2.tail
  rw [Chk.add_eq (by rw [htail2]; exact hword), Prog.ofChk_pure, Prog.ret_bind]
  refine set_safe fun q3 h3 i3 => ⟨⟨rfl, rfl, rfl, rfl, rfl, le_rfl⟩, i3.same rfl rfl rfl rfl, ?_⟩
  have hcap3 : q3.capacity = q1.capacity := h3.capacity.trans h2.capacity
  have hcons3 : q3.consumed = q1.consumed := h3.consumed.trans h2.consumed
  have hcount3 : q3.counted = q1.elemNum := h3.counted.trans h2.counted
  have hlen3 : q1.offsets.length ≤ q3.offsets.length := le_trans h2.written h3.written
  refine rotateTail_safe (r := q1.consumed) (n := n) ?_ ?_ ?_ fun q4 i4 ht4 hc4 hr4 hn4 ho4 => ?_
  · show n ≤ q3.capacity
    omega
  · show q2.tail + n = q1.consumed % q3.capacity + n
    rw [htail2, ht1, hcap3]
  · show q2.tail + n < 2 ^ 64
    rw [htail2]; exact hword
  have hc4 : q4.capacity = q3.capacity := hc4
  have hr4 : q4.consumed = q3.consumed := hr4
  have hn4 : q4.counted = q3.counted := hn4
  have ho4 : q3.offsets.length ≤ q4.offsets.length := ho4
  refine get_safe ReaderStep.refl fun q5 h5 i5 => ?_
  have hnum5 : n ≤ q5.elemNum := by
    refine hle.trans ?_
    rw [i1.count, i5.count, h5.consumed, hr4, hcons3]
    exact Nat.sub_le_sub_right ((hlen3.trans ho4).trans h5.written) _
  refine check_safe hnum5 (set_safe fun q6 h6 i6 => ?_)
  obtain ⟨i7, hst⟩ := i6.remove (hnum5.trans (i5.elemNum_grows i6 h6)) hthrough
  refine ⟨hst, i7, fun q8 h8 _ => ⟨AtTail.stable ?_ h8, ?_⟩⟩
  · show q6.tail = (q6.consumed + n) % q6.capacity
    rw [h6.tail, h5.tail, ht4, h6.consumed, h5.consumed, hr4, hcons3, h6.capacity, h5.capacity]
  · rw [h8.counted]
    show n = min k q6.counted
    rw [h6.counted, h5.counted, hn4, hcount3, hn]

/-! ### Writer and reader together -/

inductive Side where
  | writer | reader
  deriving DecidableEq, Repr

/-- The writer between two calls: the offset it has reserved. It writes the element there, and then
    finishes the write. -/
def writerClient : Client QueueSpsc SpscAcc (Option ℕ) Unit where
  enabled _ _ _ := True
  body i _ := match i with
    | none => writeOffset
    | some _ => do
      writeFinish
      pure none

/-- The reader between two calls: what its last call asked for, and what it returned. -/
def readerClient (allowed : SpscAcc → QueueSpsc → Prop) :
    Client QueueSpsc SpscAcc (Option (ℕ × ℕ)) ℕ where
  enabled _ k _ := 1 ≤ k ∧ k < 2 ^ 64
  body _ k := do
    let r ← consume k
    pure (some (k, r))
  allowed := allowed

abbrev SideAt : Side → Type
  | .writer => Option ℕ
  | .reader => Option (ℕ × ℕ)

abbrev SideCall : Side → Type
  | .writer => Unit
  | .reader => ℕ

def sides (allowed : SpscAcc → QueueSpsc → Prop) :
    (t : Side) → Client QueueSpsc SpscAcc (SideAt t) (SideCall t)
  | .writer => writerClient
  | .reader => readerClient allowed

abbrev SpscCfg : Type := Cfg QueueSpsc SpscAcc SideAt

def fresh (capacity : ℕ) : SpscCfg :=
  ⟨(init capacity).val, fun t => match t with
    | .writer => .ret (none : Option ℕ)
    | .reader => .ret (none : Option (ℕ × ℕ))⟩

def roles : Side → Role QueueSpsc SpscAcc
  | .writer => writerRole
  | .reader => readerRole

/-- What each side knows between two calls. -/
def Known : (t : Side) → SideAt t → QueueSpsc → Prop
  | .writer, i, q => WriterKnows i q
  | .reader, a, q => AtTail q ∧ ∀ k r, a = some (k, r) → r = min k q.counted

/-- The queue keeps its count: `elem_num` is the number of elements written and not consumed, and at
    most the capacity; between two calls the indices fit it; a call has returned as many elements as
    it was asked for, or all that it counted; and a reserved offset is not an unread element's. -/
structure KeepsCount (c : SpscCfg) : Prop where
  consumed : c.mem.consumed ≤ c.mem.offsets.length
  count : c.mem.elemNum = c.mem.offsets.length - c.mem.consumed
  le : c.mem.elemNum ≤ c.mem.capacity
  indices : ∀ i a, c.prog .writer = .ret i → c.prog .reader = .ret a →
    c.mem.head < c.mem.capacity ∧ c.mem.tail < c.mem.capacity ∧
      c.mem.head = (c.mem.tail + c.mem.elemNum) % c.mem.capacity
  returned : ∀ k r, c.prog .reader = .ret (some (k, r)) → r = min k c.mem.counted
  reserved : ∀ off, c.prog .writer = .ret (some off) → off ∉ c.mem.unread

theorem init_inv {capacity : ℕ} (h0 : 0 < capacity) (hc : capacity < 2 ^ 64) :
    SpscInv (init capacity).val :=
  ⟨h0, hc, le_rfl, Nat.zero_le _, rfl, rfl⟩

theorem WriterKnows.atHead {i : Option ℕ} {q : QueueSpsc} (h : WriterKnows i q) : AtHead q := by
  cases i with
  | none => exact h
  | some off => exact Reserved.head h

theorem sides_safe {t : Side} {i : SideAt t} {x : SideCall t} {q : QueueSpsc} (hq : SpscInv q)
    (hk : Known t i q) (he : (sides Counts t).enabled i x q) :
    Safe SpscInv (roles t) (Known t) ((sides Counts t).body i x) q := by
  cases t with
  | writer =>
    have hk : WriterKnows i q := hk
    cases i with
    | none => exact (writeOffset_safe hk).mono fun r q' _ h => h.1
    | some off =>
      refine Safe.bind hq ((writeFinish_safe hk).mono fun _ q' _ h => fun q'' hr _ => ?_)
      exact h.1.stable hr
  | reader =>
    obtain ⟨ht, -⟩ : AtTail q ∧ _ := hk
    refine Safe.bind hq ((consume_safe he.1 ht).mono fun r q' _ h => fun q'' hr _ => ?_)
    refine ⟨h.1.stable hr, fun k' r' hs => ?_⟩
    have hr : WriterStep q' q'' := hr
    cases hs
    rw [hr.counted]
    exact h.2

/-- Every interleaving keeps the invariant, and what each side knows. -/
theorem reach_known {capacity : ℕ} (h0 : 0 < capacity) (hc : capacity < 2 ^ 64) {c : SpscCfg}
    (h : Reach (sides Counts) (fresh capacity) c) :
    SpscInv c.mem ∧ ∀ t i, c.prog t = .ret i → Known t i c.mem := by
  have hr := reach_safe (I := SpscInv) (ρ := roles) (Q := Known) ?_ ?_
    (fun t i x q => sides_safe) (init_inv h0 hc) ?_ h
  · exact ⟨hr.1, fun t i hp => (hr.2 t).at_ret hr.1 hp⟩
  · intro t l q hl
    cases t with
    | writer => trivial
    | reader => exact hl
  · intro t u htu l q q' _ _ hg
    cases t <;> cases u <;> first | exact absurd rfl htu | exact hg
  · intro t
    cases t with
    | writer =>
      intro q' hr _
      have hs : AtHead (init capacity).val := (Nat.zero_mod capacity).symm
      exact hs.stable hr
    | reader =>
      intro q' hr _
      have hs : AtTail (init capacity).val := (Nat.zero_mod capacity).symm
      exact ⟨hs.stable hr, nofun⟩

/-- In every interleaving in which each `consume`, when it loads `elem_num`, finds a number of elements
    that comes through the `int` and by which `tail` can be moved without a wrap, the queue keeps its
    count. -/
theorem keepsCount {capacity : ℕ} (h0 : 0 < capacity) (hc : capacity < 2 ^ 64) {c : SpscCfg}
    (h : Reach (sides Counts) (fresh capacity) c) : KeepsCount c := by
  obtain ⟨hq, hk⟩ := reach_known h0 hc h
  refine ⟨hq.consumed, hq.count, hq.elemNum_le, fun i a hi ha => ?_, fun k r hp => ?_,
    fun off hp => ?_⟩
  · have hw : c.mem.head = _ := WriterKnows.atHead (hk .writer i hi)
    have hr : c.mem.tail = _ := (hk .reader a ha).1
    have hcons := hq.consumed
    rw [hw, hr, Nat.mod_add_mod, hq.count]
    exact ⟨Nat.mod_lt _ hq.pos, Nat.mod_lt _ hq.pos, by congr 1; omega⟩
  · exact (hk .reader _ hp).2 k r rfl
  · have hres : Reserved off c.mem := hk .writer _ hp
    exact hres.not_unread hq

instance : ∀ l q, Decidable (Counts l q)
  | .count k, q => inferInstanceAs (Decidable (
      (min k q.elemNum < 2 ^ 31 ∨ 2 ^ 64 - 2 ^ 31 ≤ min k q.elemNum) ∧
        q.tail + min k q.elemNum < 2 ^ 64))
  | .load _, _ => isTrue trivial
  | .store _, _ => isTrue trivial

/-- Two elements of a queue of two are consumed, and a third is written. -/
theorem keepsCount_turn : ∃ c : SpscCfg, Reach (sides Counts) (fresh 2) c ∧
    c.mem.offsets = [0, 1, 0] ∧ c.mem.consumed = 2 ∧ c.mem.elemNum = 1 ∧ KeepsCount c := by
  have h0 : Reach (sides Counts) (fresh 2) (fresh 2) := .start
  have hw : ∀ l q, (sides Counts .writer).allowed l q := fun _ _ => trivial
  have h1 := (h0.call .writer () rfl trivial hw).call .writer () rfl trivial hw
  have h2 := (h1.call .writer () rfl trivial hw).call .writer () rfl trivial hw
  have h3 := h2.callIn .reader 5 rfl ⟨by decide, by decide⟩
    (show Prog.within Counts _ _ by decide +kernel)
  have h4 := (h3.call .writer () rfl trivial hw).call .writer () rfl trivial hw
  exact ⟨_, h4, rfl, rfl, rfl, keepsCount (by decide) (by decide) h4⟩

/-! ### A count that does not come through the `int` -/

/-- A write, run alone, while the queue is not full. -/
theorem write_run {q : QueueSpsc} (hq : SpscInv q) (hw : AtHead q)
    (hroom : q.offsets.length < q.consumed + q.capacity) :
    ∃ off q₁, writeOffset.run q = (some off, q₁) ∧ SpscInv (writeFinish.run q₁).2 ∧
      AtHead (writeFinish.run q₁).2 ∧ WriterStep q (writeFinish.run q₁).2 ∧
      (writeFinish.run q₁).2.offsets.length = q.offsets.length + 1 := by
  obtain ⟨i1, ⟨hk, ho, hfull⟩, hs1⟩ := Safe.run (R := WriterStep) (fun _ _ => trivial)
    WriterStep.refl WriterStep.trans (fun _ _ _ hg => hg) hq (writeOffset_safe hw)
  generalize writeOffset.run q = r at i1 hk ho hfull hs1 ⊢
  obtain ⟨r, q₁⟩ := r
  cases r with
  | none => exact absurd (hfull rfl) (by omega)
  | some off =>
    have hk : Reserved off q₁ := hk
    obtain ⟨i2, ⟨ha, hl⟩, hs2⟩ := Safe.run (R := WriterStep) (fun _ _ => trivial)
      WriterStep.refl WriterStep.trans (fun _ _ _ hg => hg) i1 (writeFinish_safe hk)
    have ho : q₁.offsets = q.offsets := ho
    exact ⟨off, q₁, rfl, i2, ha, hs1.trans hs2, by rw [hl, ho]⟩

/-- A write while the queue is not full and the reader waits. -/
theorem reach_write {allowed : SpscAcc → QueueSpsc → Prop} {c₀ c : SpscCfg}
    (h : Reach (sides allowed) c₀ c) (hw : c.prog .writer = .ret none) (hq : SpscInv c.mem)
    (ha : AtHead c.mem) (hroom : c.mem.offsets.length < c.mem.consumed + c.mem.capacity) :
    ∃ c' : SpscCfg, Reach (sides allowed) c₀ c' ∧ c'.prog .writer = .ret none ∧
      c'.prog .reader = c.prog .reader ∧ SpscInv c'.mem ∧ AtHead c'.mem ∧
      WriterStep c.mem c'.mem ∧ c'.mem.offsets.length = c.mem.offsets.length + 1 := by
  obtain ⟨off, q, ho, hw2⟩ := write_run hq ha hroom
  have hany : ∀ l q, (sides allowed .writer).allowed l q := fun _ _ => trivial
  have h1 := h.call .writer () hw trivial hany
  have hw1 : ((c.begin .writer writeOffset).finish .writer).prog .writer = .ret (some off) := by
    rw [Cfg.call_self, ho]
  have h2 := h1.call .writer () hw1 trivial hany
  have hfinish : ∀ q, ((sides allowed .writer).body (some off) ()).run q =
      (none, (writeFinish.run q).2) := by
    intro q
    show (writeFinish >>= _).run q = _
    rw [Prog.run_bind]
    rfl
  have hm1 : ((c.begin .writer writeOffset).finish .writer).mem = q := by rw [Cfg.call_mem, ho]
  have hm2 : ((((c.begin .writer writeOffset).finish .writer).begin .writer
      ((sides allowed .writer).body (some off) ())).finish .writer).mem = (writeFinish.run q).2 := by
    rw [Cfg.call_mem, hfinish, hm1]
  refine ⟨_, h2, by rw [Cfg.call_self, hfinish], ?_, ?_⟩
  · rw [Cfg.call_other _ _ _ (by decide), Cfg.call_other _ _ _ (by decide)]
  · exact hm2 ▸ hw2

/-- A queue that holds `n` elements, the oldest of them at offset 0. -/
theorem reach_holding {allowed : SpscAcc → QueueSpsc → Prop} {capacity : ℕ} (h0 : 0 < capacity)
    (hc : capacity < 2 ^ 64) {n : ℕ} (hn : n ≤ capacity) :
    ∃ c : SpscCfg, Reach (sides allowed) (fresh capacity) c ∧ c.prog .writer = .ret none ∧
      c.prog .reader = .ret none ∧ SpscInv c.mem ∧ AtHead c.mem ∧
      WriterStep (fresh capacity).mem c.mem ∧ c.mem.offsets.length = n := by
  induction n with
  | zero =>
    exact ⟨fresh capacity, .start, rfl, rfl, init_inv h0 hc, (Nat.zero_mod capacity).symm, .refl _,
      rfl⟩
  | succ n ih =>
    obtain ⟨c, h, hw, hr, hq, ha, hs, hl⟩ := ih (Nat.le_of_succ_le hn)
    have hcons : c.mem.consumed = 0 := hs.consumed
    have hcap : c.mem.capacity = capacity := hs.capacity
    obtain ⟨c', h', hw', hr', hq', ha', hs', hl'⟩ := reach_write h hw hq ha (by omega)
    exact ⟨c', h', hw', hr'.trans hr, hq', ha', hs.trans hs', by omega⟩

theorem rotateTail_run (q : QueueSpsc) : (rotateTail.run q).2 =
    { q with tail := if q.capacity ≤ q.tail then (q.tail + (2 ^ 64 - q.capacity)) % 2 ^ 64
                     else q.tail } := by
  unfold rotateTail get set
  rw [Prog.run_bind, Prog.run_access]
  dsimp only [id]
  split
  · rw [Prog.run_bind, Prog.run_ofChk, Prog.run_access]
    rfl
  · rfl

/-- What `consume(k)` leaves, run alone. -/
theorem consume_run (k : ℕ) (q : QueueSpsc) : ((consume k).run q).2 =
    { q with elemNum := (q.elemNum + (2 ^ 64 - throughInt (min k q.elemNum))) % 2 ^ 64,
             tail := machineIndex q.tail (min k q.elemNum) q.capacity,
             consumed := q.consumed + min k q.elemNum, counted := q.elemNum } := by
  have hmin : (if q.elemNum < k then q.elemNum else k) = min k q.elemNum := by split <;> omega
  have hrun : (consume k).run q =
      (consumeNum (min k q.elemNum)).run { q with counted := q.elemNum } := by
    rw [← hmin, consume, check, Prog.run_bind, Prog.run_ofChk, Prog.run_bind, Prog.run_access]
  rw [hrun]
  generalize min k q.elemNum = n
  unfold consumeNum get set check elemNumDec
  simp only [Prog.run_bind, Prog.run_access, Prog.run_ofChk, id, rotateTail_run]
  rfl

/-- The condition is exact, call by call: run alone, `consume(k)` keeps the count and `tail` right if
    and only if it can be counted. -/
theorem consume_keeps_iff {k : ℕ} {q : QueueSpsc} (hq : SpscInv q) (ht : AtTail q) :
    (SpscInv ((consume k).run q).2 ∧ AtTail ((consume k).run q).2) ↔ q.Fits k := by
  have hle := min_le_right k q.elemNum
  have hcap := hq.elemNum_le
  have hword := hq.word
  have hcount := hq.count
  have hroom := hq.room
  have hcons := hq.consumed
  have htl : q.tail < q.capacity := by rw [ht]; exact Nat.mod_lt _ hq.pos
  have hmod := add_mod_wrap (w := q.consumed) hq.pos (hle.trans hcap)
  rw [← (show q.tail = q.consumed % q.capacity from ht)] at hmod
  have hint := throughInt_eq_iff (show min k q.elemNum < 2 ^ 64 by omega)
  have hlt := throughInt_lt (min k q.elemNum)
  rw [consume_run, Fits, ← hint]
  generalize min k q.elemNum = n at hle hmod hlt ⊢
  constructor
  · rintro ⟨h, h'⟩
    have h1 : (q.elemNum + (2 ^ 64 - throughInt n)) % 2 ^ 64 =
      q.offsets.length - (q.consumed + n) := h.count
    have h2 : machineIndex q.tail n q.capacity = (q.consumed + n) % q.capacity := h'
    refine ⟨by omega, ?_⟩
    exact (machineIndex_eq_iff htl (hle.trans hcap) hword).mp (h2.trans hmod)
  · rintro ⟨h1, h2⟩
    refine ⟨(hq.remove hle h1).1.same rfl rfl rfl rfl, ?_⟩
    show machineIndex q.tail n q.capacity = (q.consumed + n) % q.capacity
    rw [hmod]
    exact (machineIndex_eq_iff htl (hle.trans hcap) hword).mpr h2

/-- A full queue of 2^31 slots is emptied in one call: the count, which should be 0, becomes 2^32. -/
theorem not_keepsCount_half : ∃ c : SpscCfg,
    Reach (sides fun _ _ => True) (fresh (2 ^ 31)) c ∧ c.mem.offsets.length = 2 ^ 31 ∧
    c.mem.consumed = 2 ^ 31 ∧ c.mem.elemNum = 2 ^ 32 ∧ ¬ KeepsCount c := by
  obtain ⟨c, h, -, hr, hq, -, hs, hl⟩ :=
    @reach_holding (fun _ _ => True) (2 ^ 31) (by norm_num) (by norm_num) (2 ^ 31) le_rfl
  have h' := h.call .reader (2 ^ 31) hr ⟨by norm_num, by norm_num⟩ fun _ _ => trivial
  have hcap : c.mem.capacity = 2 ^ 31 := hs.capacity
  have hcons : c.mem.consumed = 0 := hs.consumed
  have hnum : c.mem.elemNum = 2 ^ 31 := by rw [hq.count, hl, hcons, Nat.sub_zero]
  have hm : ((c.begin .reader ((sides (fun _ _ => True) .reader).body none (2 ^ 31))).finish
      .reader).mem = ((consume (2 ^ 31)).run c.mem).2 := by
    rw [Cfg.call_mem]
    show ((consume (2 ^ 31) >>= _).run c.mem).2 = _
    rw [Prog.run_bind]
    rfl
  have hrun := consume_run (2 ^ 31) c.mem
  rw [hnum, min_self] at hrun
  rw [hrun] at hm
  refine ⟨_, h', ?_, ?_, ?_, fun hk => ?_⟩
  · rw [hm]; exact hl
  · rw [hm]
    show c.mem.consumed + 2 ^ 31 = 2 ^ 31
    rw [hcons, Nat.zero_add]
  · rw [hm]; rfl
  · have hle := hk.le
    rw [hm] at hle
    change 2 ^ 32 ≤ c.mem.capacity at hle
    omega

end QueueSpsc

end Vamos
