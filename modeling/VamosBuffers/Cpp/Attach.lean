import Mathlib.Tactic
import VamosBuffers.Cpp.RingBuffer
import VamosBuffers.Schemes.RelyGuarantee

/-! A new accessor on a C++ ring in use. `RingBufferReader` and `RingBufferWriter` begin with `seen` at
    0, wherever the ring stands. An accessor that has been used keeps `seen` on the safe side:

        reader   tail ── seen ── head        no more items than there are
        writer   seen ── tail ── head        no more free slots than there are     (in ring order)

    so 0 is a good start for a reader if it lies on the way from `tail` to `head`, and for a writer if
    it lies on the way from `head` to `tail`. No counters are needed to say so: what the other side
    does only makes the distance from `tail` to `head` larger (the writer) or smaller (the reader). -/

namespace Vamos
open Schemes

namespace Cpp

/-- The number of items in the ring. -/
def items (c : ℕ) (r : Ring) : ℕ := ringDist r.rb.head r.rb.tail c

/-- The ring invariant. -/
structure RingOk (c : ℕ) (r : Ring) : Prop where
  word : c < 2 ^ 64
  head : r.rb.head < c
  tail : r.rb.tail < c
  readerSeen : r.reader.seen < c
  writerSeen : r.writer.seen < c
  behind : ringDist r.reader.seen r.rb.tail c ≤ items c r
  ahead : items c r ≤ ringDist r.rb.head r.writer.seen c

/-- What a step of the writer may change: `head` and the writer's accessor. -/
structure WriterStep (c : ℕ) (r r' : Ring) : Prop where
  tail : r'.rb.tail = r.rb.tail
  reader : r'.reader = r.reader
  items : items c r ≤ items c r'

/-- What a step of the reader may change: `tail` and the reader's accessor. -/
structure ReaderStep (c : ℕ) (r r' : Ring) : Prop where
  head : r'.rb.head = r.rb.head
  writer : r'.writer = r.writer
  items : items c r' ≤ items c r

theorem WriterStep.refl {c : ℕ} (r : Ring) : WriterStep c r r := ⟨rfl, rfl, le_rfl⟩

theorem ReaderStep.refl {c : ℕ} (r : Ring) : ReaderStep c r r := ⟨rfl, rfl, le_rfl⟩

theorem WriterStep.trans {c : ℕ} {r r' r'' : Ring} (h : WriterStep c r r')
    (h' : WriterStep c r' r'') : WriterStep c r r'' :=
  ⟨h'.1.trans h.1, h'.2.trans h.2, h.3.trans h'.3⟩

theorem ReaderStep.trans {c : ℕ} {r r' r'' : Ring} (h : ReaderStep c r r')
    (h' : ReaderStep c r' r'') : ReaderStep c r r'' :=
  ⟨h'.1.trans h.1, h'.2.trans h.2, h'.3.trans h.3⟩

def writerRole (c : ℕ) : Role Ring (Acc Loc) where
  rely := ReaderStep c
  guar _ := WriterStep c
  refl := ReaderStep.refl
  trans := ReaderStep.trans

def readerRole (c : ℕ) : Role Ring (Acc Loc) where
  rely := WriterStep c
  guar _ := ReaderStep c
  refl := WriterStep.refl
  trans := WriterStep.trans

variable {c : ℕ}

/-! ### Reader -/

/-- The reader may go by `n` items even if the writer writes nothing more. -/
def Told (c n : ℕ) (r : Ring) : Prop := n ≤ ringDist r.reader.seen r.rb.tail c

theorem Told.stable {n : ℕ} {r r' : Ring} (h : Told c n r) (hs : WriterStep c r r') :
    Told c n r' := by
  unfold Told at *
  rw [hs.reader, hs.tail]
  exact h

theorem Told.le_items {n : ℕ} {r : Ring} (h : Told c n r) (hr : RingOk c r) : n ≤ items c r :=
  h.trans hr.behind

theorem RingOk.written {r : Ring} (h : RingOk c r) :
    writtenNum c r.reader.seen r.rb.tail = pure (ringDist r.reader.seen r.rb.tail c) :=
  Ringbuf.getWrittenNum_eq h.readerSeen h.tail h.word

/-- `this->seen = load_head()`: the new copy is the head at the load. -/
theorem reloadHead_safe {α : Type} {r : Ring} {Q : α → Ring → Prop} {g : ℕ → CppProg α}
    (h : ∀ r', RingOk c r' → r'.rb.tail = r.rb.tail →
      Safe (RingOk c) (readerRole c) Q (g r'.reader.seen) r') :
    Safe (RingOk c) (readerRole c) Q
      (do
        let head ← loadHead
        Prog.store .readerSeen fun r => { r with reader := ⟨head⟩ }
        g head) r := by
  refine Safe.load_bind ReaderStep.refl fun r1 h1 i1 => Safe.access_bind fun r2 h2 i2 => ?_
  have i3 : RingOk c { r2 with reader := ⟨r1.rb.head⟩ } := by
    refine ⟨i2.word, i2.head, i2.tail, i1.head, i2.writerSeen, ?_, i2.ahead⟩
    show ringDist r1.rb.head r2.rb.tail c ≤ items c r2
    rw [h2.tail]
    exact h2.items
  exact ⟨⟨rfl, rfl, le_rfl⟩, i3, h _ i3 (h2.tail.trans h1.tail)⟩

/-- The body of `read_off` and `acquire`. -/
theorem reads_safe (stale : ℕ → Bool) (r : Ring) :
    Safe (RingOk c) (readerRole c) (fun a r' => Told c a.2 r')
      (do
        let tail ← loadTail
        let seen ← readerSeen
        let tmp ← Prog.ofChk (writtenNum c seen tail)
        let tmp ← reloadHeadIf c (stale tmp) tail tmp
        pure (tail, tmp)) r := by
  refine Safe.load_bind ReaderStep.refl fun r1 h1 i1 => ?_
  refine Safe.load_bind ReaderStep.refl fun r2 h2 i2 => ?_
  rw [← h2.tail, i2.written, Prog.ofChk_pure, Prog.ret_bind]
  unfold reloadHeadIf
  cases stale (ringDist r2.reader.seen r2.rb.tail c) with
  | false => exact fun r3 h3 _ => Told.stable (le_refl (ringDist _ _ c)) h3
  | true =>
    refine Safe.bind i2 (reloadHead_safe fun r3 i3 ht3 => ?_)
    refine Safe.load_bind ReaderStep.refl fun r4 h4 i4 => ?_
    rw [← ht3, ← h4.tail, i4.written, Prog.ofChk_pure]
    exact fun r5 h5 i5 => fun r6 h6 _ => Told.stable (le_refl (ringDist _ _ c)) (h5.trans h6)

/-- `peek` returns no more than it may go by. -/
theorem peek_safe (n : ℕ) (r : Ring) :
    Safe (RingOk c) (readerRole c) (fun a r' => Told c a.1 r') (peek c n) r := by
  refine Safe.load_bind ReaderStep.refl fun r1 h1 i1 => ?_
  refine Safe.load_bind ReaderStep.refl fun r2 h2 i2 => ?_
  rw [← h2.tail, i2.written, Prog.ofChk_pure, Prog.ret_bind]
  -- the head that the call goes by is `seen` as it is by then
  have hnum : Safe (RingOk c) (readerRole c)
      (fun a r' => RingOk c r' ∧ a = (r'.reader.seen, ringDist r'.reader.seen r'.rb.tail c) ∧
        r'.rb.tail = r2.rb.tail)
      (peekNum c n r2.rb.tail r2.reader.seen (ringDist r2.reader.seen r2.rb.tail c)) r2 := by
    unfold peekNum
    split
    · refine reloadHead_safe fun r3 i3 ht3 => ?_
      rw [← ht3, i3.written, Prog.ofChk_pure]
      exact fun r4 h4 i4 => ⟨i4, by rw [h4.reader, h4.tail], h4.tail⟩
    · exact fun r3 h3 i3 => ⟨i3, by rw [h3.reader, h3.tail], h3.tail⟩
  refine Safe.bind i2 (hnum.mono fun a r3 _ ⟨i3, ha, ht3⟩ => ?_)
  subst ha
  dsimp only
  have hret : ∀ k (x : Option (ℕ × ℕ × ℕ)), k ≤ ringDist r3.reader.seen r3.rb.tail c →
      Safe (RingOk c) (readerRole c) (fun a r' => Told c a.1 r') (.ret (k, x)) r3 :=
    fun k x hk r4 h4 _ => Told.stable hk h4
  split
  · exact hret _ _ le_rfl
  · split
    · exact hret _ _ (Nat.zero_le _)
    · rename_i h0 hcur
      have hmin : (if ringDist r3.reader.seen r3.rb.tail c < n
          then ringDist r3.reader.seen r3.rb.tail c else n) =
          min n (ringDist r3.reader.seen r3.rb.tail c) := by split <;> omega
      obtain ⟨len1, len2, hs, hr⟩ := Ringbuf.peekSplit_eq i3.readerSeen i3.tail i3.word
        (show 0 < min n (ringDist r3.reader.seen r3.rb.tail c) by omega) (min_le_right _ _)
      have hs : peekSplit c (min n (ringDist r3.reader.seen r3.rb.tail c)) r3.reader.seen
          r2.rb.tail = pure (len1, len2) := by rw [← ht3]; exact hs
      rw [hmin, Chk.require_eq (min_le_right _ _), Prog.ofChk_pure, Prog.ret_bind, hs,
        Prog.ofChk_pure, Prog.ret_bind]
      dsimp only
      rw [Chk.require_eq hr.sum, Prog.ofChk_pure, Prog.ret_bind]
      exact hret _ _ le_rfl

theorem checkCount_eq {n : ℕ} (hn : n ≤ c) (h : c + n < 2 ^ 64 - 1) : checkCount c n = pure () :=
  Ringbuf.checkCount_eq hn h

/-- The index that `write_finish` and `consume` store. -/
theorem moveIndex_pure {i n : ℕ} (hc : c + n < 2 ^ 64) (hi : i < c) :
    moveIndex c i n = pure (if c ≤ i + n then i + n - c else i + n) := by
  unfold moveIndex
  rw [Chk.add_eq (by omega), pure_bind]
  split
  · rw [Chk.sub_eq (by assumption) (by omega)]
  · rfl

/-- `consume` of at most what the reader was told of. -/
theorem consume_safe {m n : ℕ} {r : Ring} (ht : Told c n r) (h0 : 0 < m) (hm : m ≤ n)
    (hc : c + m < 2 ^ 64 - 1) (hr : RingOk c r) :
    Safe (RingOk c) (readerRole c) (fun _ r' => Told c (n - m) r') (consume c m) r := by
  have hlt := ringDist_lt hr.readerSeen hr.tail
  have hn : n ≤ ringDist r.reader.seen r.rb.tail c := ht
  unfold consume
  rw [Chk.require_eq h0, Prog.ofChk_pure, Prog.ret_bind, checkCount_eq (by omega) hc,
    Prog.ofChk_pure, Prog.ret_bind]
  refine Safe.load_bind ReaderStep.refl fun r1 h1 i1 => ?_
  rw [moveIndex_pure (by omega) i1.tail, Prog.ofChk_pure, Prog.ret_bind]
  refine Safe.access fun r2 h2 i2 => ?_
  have ht2 : Told c n r2 := (ht.stable h1).stable h2
  have hmr : m ≤ ringDist r2.reader.seen r2.rb.tail c := hm.trans ht2
  have hmi : m ≤ ringDist r2.rb.head r2.rb.tail c := hmr.trans i2.behind
  have hseen := ringDist_move_behind i2.readerSeen i2.tail hmr
  have hhead := ringDist_move_behind i2.head i2.tail hmi
  rw [← h2.tail]
  generalize htail : (if c ≤ r2.rb.tail + m then r2.rb.tail + m - c else r2.rb.tail + m) = tail
    at hseen hhead ⊢
  have hlt : tail < c := by
    have := i2.tail
    have := ringDist_lt i2.readerSeen i2.tail
    rw [← htail]
    split <;> omega
  have hitems : items c { r2 with rb := { r2.rb with tail := tail } } = items c r2 - m := hhead
  have hle : items c { r2 with rb := { r2.rb with tail := tail } } ≤ items c r2 := by omega
  refine ⟨⟨rfl, rfl, hle⟩, ⟨i2.word, i2.head, hlt, i2.readerSeen, i2.writerSeen, ?_,
    hle.trans i2.ahead⟩, fun r3 h3 _ => Told.stable ?_ h3⟩
  · rw [hitems]
    show ringDist r2.reader.seen tail c ≤ _
    rw [hseen]
    exact Nat.sub_le_sub_right i2.behind m
  · show n - m ≤ ringDist r2.reader.seen tail c
    rw [hseen]
    exact Nat.sub_le_sub_right ht2 m

/-! ### Writer -/

/-- The writer may write `n` items even if the reader consumes nothing more. -/
def Offered (c n : ℕ) (r : Ring) : Prop := n + ringDist r.rb.head r.writer.seen c < c

theorem Offered.stable {n : ℕ} {r r' : Ring} (h : Offered c n r) (hs : ReaderStep c r r') :
    Offered c n r' := by
  unfold Offered at *
  rw [hs.head, hs.writer]
  exact h

theorem Offered.le_free {n : ℕ} {r : Ring} (h : Offered c n r) (hr : RingOk c r) :
    n ≤ c - 1 - items c r := by
  have h1 : n + ringDist r.rb.head r.writer.seen c < c := h
  have h2 := hr.ahead
  omega

/-- What `_write_off` computes from the head and the writer's copy of the tail. -/
theorem RingOk.writeOff {r : Ring} (h : RingOk c r) : ∃ n w,
    writeOffOf c r.rb.head r.writer.seen = pure (n + w, n, w) ∧
      n + w = c - 1 - ringDist r.rb.head r.writer.seen c := by
  obtain ⟨n, w, he, hs⟩ := Ringbuf.getWriteOff_eq h.head h.writerSeen h.word
  exact ⟨n, w, he, hs.total⟩

/-- Numbers that the writer may act on, at the head it loaded. -/
structure Numbers (c head : ℕ) (a : ℕ × ℕ × ℕ) (r : Ring) : Prop where
  head : head = r.rb.head
  offered : Offered c (a.2.1 + a.2.2) r

theorem Numbers.stable {head : ℕ} {a : ℕ × ℕ × ℕ} {r r' : Ring} (h : Numbers c head a r)
    (hs : ReaderStep c r r') : Numbers c head a r' :=
  ⟨h.head.trans hs.head.symm, h.offered.stable hs⟩

theorem RingOk.numbers {r : Ring} (h : RingOk c r) : ∃ a,
    writeOffOf c r.rb.head r.writer.seen = pure a ∧ Numbers c r.rb.head a r := by
  obtain ⟨n, w, he, hs⟩ := h.writeOff
  have hlt := ringDist_lt h.head h.writerSeen
  refine ⟨_, he, rfl, ?_⟩
  show n + w + ringDist r.rb.head r.writer.seen c < c
  omega

/-- `this->seen = load_tail()` and the second `_write_off`. -/
theorem reloadTail_safe (r : Ring) :
    Safe (RingOk c) (writerRole c) (fun a r' => Numbers c r.rb.head a r')
      (reloadTail c r.rb.head) r := by
  refine Safe.load_bind WriterStep.refl fun r1 h1 i1 => Safe.access_bind fun r2 h2 i2 => ?_
  have i3 : RingOk c { r2 with writer := ⟨r1.rb.tail⟩ } := by
    refine ⟨i2.word, i2.head, i2.tail, i2.readerSeen, i1.tail, i2.behind, ?_⟩
    show items c r2 ≤ ringDist r2.rb.head r1.rb.tail c
    rw [h2.head]
    exact h2.items
  refine ⟨⟨rfl, rfl, le_rfl⟩, i3, Safe.load_bind WriterStep.refl fun r4 h4 i4 => ?_⟩
  obtain ⟨a, ha, hn⟩ := i4.numbers
  have hhead : r4.rb.head = r.rb.head := h4.head.trans (h2.head.trans h1.head)
  rw [hhead] at ha hn
  rw [ha, Prog.ofChk_pure]
  exact fun r5 h5 _ => hn.stable h5

theorem reloadTailIf_safe {r : Ring} {a : ℕ × ℕ × ℕ} (stale : Bool)
    (h : Numbers c r.rb.head a r) :
    Safe (RingOk c) (writerRole c) (fun a r' => Numbers c r.rb.head a r')
      (reloadTailIf c stale r.rb.head a) r := by
  unfold reloadTailIf
  cases stale with
  | false => exact fun r' hr _ => h.stable hr
  | true => exact reloadTail_safe r

/-- A writer's call loads the head and `seen`, and computes with them. -/
theorem beginWrite_safe {α : Type} {r : Ring} {Q : α → Ring → Prop} {g : ℕ → ℕ → CppProg α}
    (h : ∀ r', RingOk c r' → Safe (RingOk c) (writerRole c) Q (g r'.rb.head r'.writer.seen) r') :
    Safe (RingOk c) (writerRole c) Q
      (do let head ← loadHead; let seen ← writerSeen; g head seen) r := by
  refine Safe.load_bind WriterStep.refl fun r1 h1 i1 => ?_
  refine Safe.load_bind WriterStep.refl fun r2 h2 i2 => ?_
  rw [← h2.head]
  exact h r2 i2

theorem acquire_safe (req : ℕ) (r : Ring) :
    Safe (RingOk c) (writerRole c) (fun a r' => Offered c (a.2.1 + a.2.2) r') (acquire c req) r := by
  refine beginWrite_safe fun r1 i1 => ?_
  obtain ⟨a, ha, hn⟩ := i1.numbers
  rw [ha, Prog.ofChk_pure, Prog.ret_bind]
  exact Safe.bind i1 ((reloadTailIf_safe _ hn).mono fun a r2 _ h2 => fun r3 h3 _ =>
    h2.offered.stable h3)

theorem Offered.mono {m n : ℕ} {r : Ring} (h : Offered c n r) (hm : m ≤ n) : Offered c m r := by
  unfold Offered at *
  omega

theorem acquireNowrap_safe (req : ℕ) (r : Ring) :
    Safe (RingOk c) (writerRole c) (fun a r' => Offered c a.2 r') (acquireNowrap c req) r := by
  refine beginWrite_safe fun r1 i1 => ?_
  obtain ⟨a, ha, hn⟩ := i1.numbers
  rw [ha, Prog.ofChk_pure, Prog.ret_bind]
  exact Safe.bind i1 ((reloadTailIf_safe _ hn).mono fun a r2 _ h2 => fun r3 h3 _ =>
    (h2.offered.stable h3).mono (Nat.le_add_right _ _))

theorem writeOffNowrap_safe (r : Ring) :
    Safe (RingOk c) (writerRole c) (fun a r' => Offered c a.2 r') (writeOffNowrap c) r := by
  refine beginWrite_safe fun r1 i1 => ?_
  have hnum : Safe (RingOk c) (writerRole c) (fun a r' => Numbers c r1.rb.head a r')
      (nowrapNum c r1.rb.head r1.writer.seen) r1 := by
    unfold nowrapNum
    split
    · exact reloadTail_safe r1
    · refine Safe.load_bind WriterStep.refl fun r2 h2 i2 => ?_
      obtain ⟨a, ha, hn⟩ := i2.numbers
      rw [← h2.head, ha, Prog.ofChk_pure, Prog.ret_bind]
      exact reloadTailIf_safe _ hn
  exact Safe.bind i1 (hnum.mono fun a r2 _ h2 => fun r3 h3 _ =>
    (h2.offered.stable h3).mono (Nat.le_add_right _ _))

/-- `write_finish` of at most what the writer was offered. -/
theorem writeFinish_safe {m n : ℕ} {r : Ring} (ho : Offered c n r) (h0 : 0 < m) (hm : m ≤ n)
    (hc : c + m < 2 ^ 64 - 1) :
    Safe (RingOk c) (writerRole c) (fun _ r' => Offered c (n - m) r') (writeFinish c m) r := by
  have hn : n + ringDist r.rb.head r.writer.seen c < c := ho
  unfold writeFinish
  rw [checkCount_eq (by omega) hc, Prog.ofChk_pure, Prog.ret_bind]
  refine Safe.load_bind WriterStep.refl fun r1 h1 i1 => ?_
  rw [moveIndex_pure (by omega) i1.head, Prog.ofChk_pure, Prog.ret_bind]
  refine Safe.load_bind WriterStep.refl fun r2 h2 i2 => ?_
  have ho2 : n + ringDist r2.rb.head r2.writer.seen c < c := (ho.stable h1).stable h2
  have hne : (if c ≤ r1.rb.head + m then r1.rb.head + m - c else r1.rb.head + m) ≠ r2.rb.tail := by
    intro he
    have hmove := ringDist_move_ahead i2.head i2.tail (n := m) (by
      have h : ringDist r2.rb.head r2.rb.tail c ≤ _ := i2.ahead
      omega)
    rw [h2.head, he, ringDist, if_pos le_rfl] at hmove
    omega
  rw [Chk.require_eq hne, Prog.ofChk_pure, Prog.ret_bind]
  refine Safe.access fun r3 h3 i3 => ?_
  have ho3 : n + ringDist r3.rb.head r3.writer.seen c < c := Offered.stable ho2 h3
  have hahead : ringDist r3.rb.head r3.rb.tail c ≤ ringDist r3.rb.head r3.writer.seen c := i3.ahead
  have hseen := ringDist_move_ahead i3.head i3.writerSeen (n := m) (by omega)
  have htail := ringDist_move_ahead i3.head i3.tail (n := m) (by omega)
  have hlt : (if c ≤ r3.rb.head + m then r3.rb.head + m - c else r3.rb.head + m) < c := by
    have := i3.head
    split <;> omega
  rw [← h2.head, ← h3.head]
  generalize (if c ≤ r3.rb.head + m then r3.rb.head + m - c else r3.rb.head + m) = head
    at hseen htail hlt ⊢
  have hitems : items c { r3 with rb := { r3.rb with head := head } } = items c r3 + m := htail
  have hle : items c r3 ≤ items c { r3 with rb := { r3.rb with head := head } } := by omega
  refine ⟨⟨rfl, rfl, hle⟩, ⟨i3.word, hlt, i3.tail, i3.readerSeen, i3.writerSeen,
    i3.behind.trans hle, ?_⟩, fun r4 h4 _ => Offered.stable ?_ h4⟩
  · rw [hitems]
    show _ ≤ ringDist head r3.writer.seen c
    rw [hseen]
    exact Nat.add_le_add_right hahead m
  · show n - m + ringDist head r3.writer.seen c < c
    omega

/-! ### A new accessor -/

/-- 0 lies on the way from `tail` to `head`. -/
def ReaderMayAttach (r : Ring) : Prop := r.rb.tail = 0 ∨ r.rb.head < r.rb.tail

/-- 0 lies on the way from `head` to `tail`. -/
def WriterMayAttach (r : Ring) : Prop := r.rb.tail ≤ r.rb.head

theorem RingOk.readerMayAttach_iff {r : Ring} (h : RingOk c r) :
    ReaderMayAttach r ↔ ringDist 0 r.rb.tail c ≤ items c r := by
  have h1 := h.head
  have h2 := h.tail
  unfold ReaderMayAttach items ringDist
  split_ifs <;> omega

theorem RingOk.writerMayAttach_iff {r : Ring} (h : RingOk c r) :
    WriterMayAttach r ↔ items c r ≤ ringDist r.rb.head 0 c := by
  have h1 := h.head
  have h2 := h.tail
  unfold WriterMayAttach items ringDist
  split_ifs <;> omega

/-- The ring with the reader's accessor constructed anew. -/
def newReader (r : Ring) : Ring := { r with reader := ⟨0⟩ }

/-- The ring with the writer's accessor constructed anew. -/
def newWriter (r : Ring) : Ring := { r with writer := ⟨0⟩ }

theorem RingOk.newReader {r : Ring} (h : RingOk c r) (ha : ReaderMayAttach r) :
    RingOk c (newReader r) ∧ ReaderStep c r (newReader r) :=
  ⟨⟨h.word, h.head, h.tail, (Nat.zero_le _).trans_lt h.head, h.writerSeen,
    h.readerMayAttach_iff.mp ha, h.ahead⟩, ⟨rfl, rfl, le_rfl⟩⟩

theorem RingOk.newWriter {r : Ring} (h : RingOk c r) (ha : WriterMayAttach r) :
    RingOk c (newWriter r) ∧ WriterStep c r (newWriter r) :=
  ⟨⟨h.word, h.head, h.tail, h.readerSeen, (Nat.zero_le _).trans_lt h.head, h.behind,
    h.writerMayAttach_iff.mp ha⟩, ⟨rfl, rfl, le_rfl⟩⟩

/-! ### Both parties -/

inductive Party where
  | writer | reader
  deriving DecidableEq, Repr

inductive WriterCall where
  | writeOff | writeOffNowrap
  | acquire (req : ℕ) | acquireNowrap (req : ℕ)
  | writeFinish (m : ℕ)
  | attach
  deriving DecidableEq, Repr

inductive ReaderCall where
  | readOff
  | acquire (req : ℕ)
  | peek (n : ℕ)
  | consume (m : ℕ)
  | attach
  deriving DecidableEq, Repr

/-- The writer between two calls: how many slots it was told of and has not used since. -/
def writerClient (c : ℕ) : Client Ring (Acc Loc) ℕ WriterCall where
  enabled n x r := match x with
    | .writeFinish m => 0 < m ∧ m ≤ n ∧ c + m < 2 ^ 64 - 1
    | .attach => WriterMayAttach r
    | _ => True
  body n x := match x with
    | .writeOff => do
      let a ← writeOff c
      pure (a.2.1 + a.2.2)
    | .writeOffNowrap => do
      let a ← writeOffNowrap c
      pure a.2
    | .acquire req => do
      let a ← acquire c req
      pure (a.2.1 + a.2.2)
    | .acquireNowrap req => do
      let a ← acquireNowrap c req
      pure a.2
    | .writeFinish m => do
      writeFinish c m
      pure (n - m)
    | .attach => do
      Prog.store .writerSeen newWriter
      pure 0

/-- The reader between two calls: how many items it was told of and has not consumed since. -/
def readerClient (c : ℕ) : Client Ring (Acc Loc) ℕ ReaderCall where
  enabled n x r := match x with
    | .consume m => 0 < m ∧ m ≤ n ∧ c + m < 2 ^ 64 - 1
    | .attach => ReaderMayAttach r
    | _ => True
  body n x := match x with
    | .readOff => do
      let a ← readOff c
      pure a.2
    | .acquire req => do
      let a ← readAcquire c req
      pure a.2
    | .peek k => do
      let a ← peek c k
      pure a.1
    | .consume m => do
      consume c m
      pure (n - m)
    | .attach => do
      Prog.store .readerSeen newReader
      pure 0

abbrev PartyCall : Party → Type
  | .writer => WriterCall
  | .reader => ReaderCall

def parties (c : ℕ) : (t : Party) → Client Ring (Acc Loc) ℕ (PartyCall t)
  | .writer => writerClient c
  | .reader => readerClient c

abbrev PartyCfg : Type := Cfg Ring (Acc Loc) fun _ : Party => ℕ

/-- A new ring. -/
def unused : PartyCfg := ⟨Ring.fresh, fun _ => .ret 0⟩

/-- A new reader takes over, and has not called anything yet. -/
def attachReader (cfg : PartyCfg) : PartyCfg :=
  ⟨newReader cfg.mem, Function.update cfg.prog .reader (.ret 0)⟩

/-- A new writer takes over. -/
def attachWriter (cfg : PartyCfg) : PartyCfg :=
  ⟨newWriter cfg.mem, Function.update cfg.prog .writer (.ret 0)⟩

/-- In every run from `cfg`, the reader is told of no more items than there are. -/
def ReaderGood (c : ℕ) (cfg : PartyCfg) : Prop :=
  ∀ cfg', Reach (parties c) cfg cfg' → ∀ n, cfg'.prog .reader = .ret n → n ≤ items c cfg'.mem

/-- In every run from `cfg`, the writer is told of no more slots than are free. -/
def WriterGood (c : ℕ) (cfg : PartyCfg) : Prop :=
  ∀ cfg', Reach (parties c) cfg cfg' → ∀ n, cfg'.prog .writer = .ret n →
    n ≤ c - 1 - items c cfg'.mem

def roles (c : ℕ) : Party → Role Ring (Acc Loc)
  | .writer => writerRole c
  | .reader => readerRole c

/-- What each party knows between two calls. -/
def Known (c : ℕ) : Party → ℕ → Ring → Prop
  | .writer, n, r => Offered c n r
  | .reader, n, r => Told c n r

theorem ReaderMayAttach.stable {r r' : Ring} (h : ReaderMayAttach r) (hr : RingOk c r)
    (hr' : RingOk c r') (hs : WriterStep c r r') : ReaderMayAttach r' := by
  rw [hr'.readerMayAttach_iff, hs.tail]
  exact (hr.readerMayAttach_iff.mp h).trans hs.items

theorem WriterMayAttach.stable {r r' : Ring} (h : WriterMayAttach r) (hr : RingOk c r)
    (hr' : RingOk c r') (hs : ReaderStep c r r') : WriterMayAttach r' := by
  rw [hr'.writerMayAttach_iff, hs.head]
  exact hs.items.trans (hr.writerMayAttach_iff.mp h)

/-- A reader's call, and what the reader notes of its answer. -/
theorem told_safe {α : Type} {p : CppProg α} {f : α → ℕ} {r : Ring} (hr : RingOk c r)
    (h : Safe (RingOk c) (readerRole c) (fun a r' => Told c (f a) r') p r) :
    Safe (RingOk c) (readerRole c) (Told c) (do let a ← p; pure (f a)) r :=
  Safe.bind hr (h.mono fun _ _ _ ht => fun _ hs _ => ht.stable hs)

theorem offered_safe {α : Type} {p : CppProg α} {f : α → ℕ} {r : Ring} (hr : RingOk c r)
    (h : Safe (RingOk c) (writerRole c) (fun a r' => Offered c (f a) r') p r) :
    Safe (RingOk c) (writerRole c) (Offered c) (do let a ← p; pure (f a)) r :=
  Safe.bind hr (h.mono fun _ _ _ ho => fun _ hs _ => ho.stable hs)

theorem readerClient_safe {n : ℕ} {x : ReaderCall} {r : Ring} (hr : RingOk c r) (hk : Told c n r)
    (he : (readerClient c).enabled n x r) :
    Safe (RingOk c) (readerRole c) (Told c) ((readerClient c).body n x) r := by
  cases x with
  | readOff => exact told_safe hr (reads_safe (fun tmp => tmp == 0) r)
  | acquire req => exact told_safe hr (reads_safe (fun tmp => decide (tmp < req)) r)
  | peek k => exact told_safe hr (peek_safe k r)
  | consume m =>
    obtain ⟨h0, hm, hc⟩ := he
    exact told_safe hr (consume_safe hk h0 hm hc hr)
  | attach =>
    refine Safe.access_bind fun r1 h1 i1 => ?_
    obtain ⟨i2, hs⟩ := i1.newReader (ReaderMayAttach.stable he hr i1 h1)
    exact ⟨hs, i2, fun _ _ _ => Nat.zero_le _⟩

theorem writerClient_safe {n : ℕ} {x : WriterCall} {r : Ring} (hr : RingOk c r)
    (hk : Offered c n r) (he : (writerClient c).enabled n x r) :
    Safe (RingOk c) (writerRole c) (Offered c) ((writerClient c).body n x) r := by
  cases x with
  | writeOff =>
    refine offered_safe (f := fun a : ℕ × ℕ × ℕ => a.2.1 + a.2.2) hr ?_
    rw [writeOff_eq]
    exact acquire_safe 1 r
  | writeOffNowrap => exact offered_safe hr (writeOffNowrap_safe r)
  | acquire req =>
    exact offered_safe (f := fun a : ℕ × ℕ × ℕ => a.2.1 + a.2.2) hr (acquire_safe req r)
  | acquireNowrap req => exact offered_safe hr (acquireNowrap_safe req r)
  | writeFinish m =>
    obtain ⟨h0, hm, hc⟩ := he
    exact offered_safe hr (writeFinish_safe hk h0 hm hc)
  | attach =>
    refine Safe.access_bind fun r1 h1 i1 => ?_
    obtain ⟨i2, hs⟩ := i1.newWriter (WriterMayAttach.stable he hr i1 h1)
    refine ⟨hs, i2, fun r2 _ i3 => ?_⟩
    show 0 + ringDist r2.rb.head r2.writer.seen c < c
    rw [Nat.zero_add]
    exact ringDist_lt i3.head i3.writerSeen

/-- Both parties keep to their roles. -/
def PartiesOk (c : ℕ) (cfg : PartyCfg) : Prop :=
  RingOk c cfg.mem ∧ ∀ t, Safe (RingOk c) (roles c t) (Known c t) (cfg.prog t) cfg.mem

theorem PartiesOk.reach {cfg cfg' : PartyCfg} (h₀ : PartiesOk c cfg)
    (h : Reach (parties c) cfg cfg') : PartiesOk c cfg' := by
  refine reach_safe ?_ ?_ ?_ h₀.1 h₀.2 h
  · intro t l r _
    cases t <;> trivial
  · intro t u htu l r r' _ _ hg
    cases t <;> cases u <;> first | exact absurd rfl htu | exact hg
  · intro t n x r hr hk he
    cases t with
    | writer => exact writerClient_safe hr hk he
    | reader => exact readerClient_safe hr hk he

theorem PartiesOk.unused (h0 : 0 < c) (hc : c < 2 ^ 64) : PartiesOk c unused := by
  refine ⟨⟨hc, h0, h0, h0, h0, le_rfl, le_rfl⟩, fun t => ?_⟩
  cases t with
  | writer =>
    intro r _ hr
    show 0 + ringDist r.rb.head r.writer.seen c < c
    rw [Nat.zero_add]
    exact ringDist_lt hr.head hr.writerSeen
  | reader => exact fun r _ _ => Nat.zero_le _

theorem PartiesOk.attachReader {cfg : PartyCfg} (h : PartiesOk c cfg)
    (ha : ReaderMayAttach cfg.mem) : PartiesOk c (attachReader cfg) := by
  obtain ⟨hr, hs⟩ := h.1.newReader ha
  refine ⟨hr, fun t => ?_⟩
  cases t with
  | writer => exact (h.2 .writer).stable hs
  | reader => exact fun r _ _ => Nat.zero_le _

theorem PartiesOk.attachWriter {cfg : PartyCfg} (h : PartiesOk c cfg)
    (ha : WriterMayAttach cfg.mem) : PartiesOk c (attachWriter cfg) := by
  obtain ⟨hr, hs⟩ := h.1.newWriter ha
  refine ⟨hr, fun t => ?_⟩
  cases t with
  | reader => exact (h.2 .reader).stable hs
  | writer =>
    intro r _ hr'
    show 0 + ringDist r.rb.head r.writer.seen c < c
    rw [Nat.zero_add]
    exact ringDist_lt hr'.head hr'.writerSeen

theorem PartiesOk.readerGood {cfg : PartyCfg} (h : PartiesOk c cfg) : ReaderGood c cfg := by
  intro cfg' hr n hp
  obtain ⟨hok, hs⟩ := h.reach hr
  have hk : Told c n cfg'.mem := (hs .reader).at_ret hok hp
  exact hk.le_items hok

theorem PartiesOk.writerGood {cfg : PartyCfg} (h : PartiesOk c cfg) : WriterGood c cfg := by
  intro cfg' hr n hp
  obtain ⟨hok, hs⟩ := h.reach hr
  have hk : Offered c n cfg'.mem := (hs .writer).at_ret hok hp
  exact hk.le_free hok

/-! ### The first call of an accessor in the wrong place -/

theorem readOff_run {r : Ring} (ht : r.rb.tail < c) (hs : r.reader.seen < c) (hc : c < 2 ^ 64)
    (hn : ringDist r.reader.seen r.rb.tail c ≠ 0) :
    (readOff c).run r = ((r.rb.tail, ringDist r.reader.seen r.rb.tail c), r) := by
  have hw : writtenNum c r.reader.seen r.rb.tail = pure (ringDist r.reader.seen r.rb.tail c) :=
    Ringbuf.getWrittenNum_eq hs ht hc
  simp only [readOff, loadTail, readerSeen, Prog.run_bind, Prog.run_load, Prog.run_ofChk, hw,
    Chk.pure_val, reloadHeadIf]
  rw [if_neg (by simpa using hn)]
  rfl

theorem writeOff_run {r : Ring} (hh : r.rb.head < c) (hs : r.writer.seen < c) (hc : c < 2 ^ 64)
    (hn : ringDist r.rb.head r.writer.seen c + 1 < c) :
    ∃ n w, (writeOff c).run r = ((r.rb.head, n, w), r) ∧
      n + w = c - 1 - ringDist r.rb.head r.writer.seen c := by
  obtain ⟨n, w, he, hsp⟩ := Ringbuf.getWriteOff_eq hh hs hc
  have ht := hsp.total
  have he : writeOffOf c r.rb.head r.writer.seen = pure (n + w, n, w) := he
  have hne : n + w ≠ 0 := by omega
  refine ⟨n, w, ?_, ht⟩
  simp only [writeOff, loadHead, writerSeen, Prog.run_bind, Prog.run_load, Prog.run_ofChk, he,
    Chk.pure_val, reloadTailIf]
  rw [if_neg (by simpa using hne)]
  rfl

theorem not_readerGood {cfg : PartyCfg} (h : RingOk c cfg.mem) (ha : ¬ ReaderMayAttach cfg.mem) :
    ¬ ReaderGood c (attachReader cfg) := by
  intro hg
  have hlt := (Nat.zero_le _).trans_lt h.head
  have hfar : items c cfg.mem < ringDist 0 cfg.mem.rb.tail c :=
    not_le.mp fun hle => ha (h.readerMayAttach_iff.mpr hle)
  have hp : (attachReader cfg).prog .reader = .ret 0 := by simp [attachReader]
  have hstart : Reach (parties c) (attachReader cfg) (attachReader cfg) := .start
  have hr := hstart.call .reader .readOff hp trivial fun _ _ => trivial
  have hrun := readOff_run (r := newReader cfg.mem) h.tail hlt h.word
    (Nat.ne_zero_of_lt hfar)
  have hbody : ((parties c .reader).body 0 .readOff).run (attachReader cfg).mem =
      (ringDist 0 cfg.mem.rb.tail c, newReader cfg.mem) := by
    show ((readOff c) >>= fun a => pure a.2).run (newReader cfg.mem) = _
    rw [Prog.run_bind, hrun]
    rfl
  have hle := hg _ hr _ (by rw [Cfg.call_self, hbody])
  rw [Cfg.call_mem, hbody] at hle
  exact absurd hle (not_le.mpr hfar)

theorem not_writerGood {cfg : PartyCfg} (h : RingOk c cfg.mem) (ha : ¬ WriterMayAttach cfg.mem) :
    ¬ WriterGood c (attachWriter cfg) := by
  intro hg
  have hlt := (Nat.zero_le _).trans_lt h.head
  have hnear : ringDist cfg.mem.rb.head 0 c < items c cfg.mem :=
    not_le.mp fun hle => ha (h.writerMayAttach_iff.mpr hle)
  have hitems : items c cfg.mem < c := ringDist_lt h.head h.tail
  have hp : (attachWriter cfg).prog .writer = .ret 0 := by simp [attachWriter]
  have hstart : Reach (parties c) (attachWriter cfg) (attachWriter cfg) := .start
  have hr := hstart.call .writer .writeOff hp trivial fun _ _ => trivial
  obtain ⟨n, w, hrun, hnum⟩ := writeOff_run (r := newWriter cfg.mem) h.head hlt h.word
    (show ringDist cfg.mem.rb.head 0 c + 1 < c by omega)
  have hnum : n + w = c - 1 - ringDist cfg.mem.rb.head 0 c := hnum
  have hbody : ((parties c .writer).body 0 .writeOff).run (attachWriter cfg).mem =
      (n + w, newWriter cfg.mem) := by
    show ((writeOff c) >>= fun a => pure (a.2.1 + a.2.2)).run (newWriter cfg.mem) = _
    rw [Prog.run_bind, hrun]
    rfl
  have hle := hg _ hr _ (by rw [Cfg.call_self, hbody])
  rw [Cfg.call_mem, hbody] at hle
  have hle : n + w ≤ c - 1 - items c cfg.mem := hle
  omega

/-! ### When an accessor may be attached -/

/-- From every reachable state of a ring of every capacity, over all runs that follow: a new reader is
    told of no more items than there are if and only if `tail` is 0 or `head` is before it, and a new
    writer of no more slots than are free if and only if `tail` is not past `head`. -/
theorem attach_iff (h0 : 0 < c) (hc : c < 2 ^ 64) {cfg : PartyCfg}
    (h : Reach (parties c) unused cfg) :
    (ReaderGood c (attachReader cfg) ↔
      cfg.mem.rb.tail = 0 ∨ cfg.mem.rb.head < cfg.mem.rb.tail) ∧
    (WriterGood c (attachWriter cfg) ↔ cfg.mem.rb.tail ≤ cfg.mem.rb.head) := by
  have hok := (PartiesOk.unused h0 hc).reach h
  refine ⟨⟨fun hg => ?_, fun ha => (hok.attachReader ha).readerGood⟩,
    ⟨fun hg => ?_, fun ha => (hok.attachWriter ha).writerGood⟩⟩
  · by_contra ha
    exact not_readerGood hok.1 ha hg
  · by_contra ha
    exact not_writerGood hok.1 ha hg

/-- One item in a ring of four, nothing consumed: both may be attached. -/
theorem attach_at_start : ∃ cfg : PartyCfg, Reach (parties 4) unused cfg ∧
    cfg.mem.rb = ⟨0, 1⟩ ∧ ReaderGood 4 (attachReader cfg) ∧ WriterGood 4 (attachWriter cfg) := by
  have h0 : Reach (parties 4) unused unused := .start
  have h1 := h0.call .writer .writeOff rfl trivial fun _ _ => trivial
  have h2 := h1.call .writer (i := 3) (.writeFinish 1) rfl ⟨by decide, by decide, by decide⟩
    fun _ _ => trivial
  have hiff := attach_iff (by decide) (by decide) h2
  exact ⟨_, h2, rfl, hiff.1.mpr (.inl rfl), hiff.2.mpr (Nat.zero_le _)⟩

/-- One item was written to a ring of four and consumed: a new reader is told of three. Three more are
    written: the ring is full, and a new writer is told of three free slots. -/
theorem not_attach_later : ∃ cfg cfg' : PartyCfg,
    Reach (parties 4) unused cfg ∧ cfg.mem.rb = ⟨1, 1⟩ ∧
      (((readOff 4).run (attachReader cfg).mem).1 = (1, 3) ∧ ¬ ReaderGood 4 (attachReader cfg)) ∧
    Reach (parties 4) unused cfg' ∧ cfg'.mem.rb = ⟨1, 0⟩ ∧
      (((writeOff 4).run (attachWriter cfg').mem).1 = (0, 3, 0) ∧
        ¬ WriterGood 4 (attachWriter cfg')) := by
  have h0 : Reach (parties 4) unused unused := .start
  have h1 := h0.call .writer .writeOff rfl trivial fun _ _ => trivial
  have h2 := h1.call .writer (i := 3) (.writeFinish 1) rfl ⟨by decide, by decide, by decide⟩
    fun _ _ => trivial
  have h3 := h2.call .reader .readOff rfl trivial fun _ _ => trivial
  have h4 := h3.call .reader (i := 1) (.consume 1) rfl ⟨by decide, by decide, by decide⟩
    fun _ _ => trivial
  have h5 := h4.call .writer (i := 2) (.acquire 3) rfl trivial fun _ _ => trivial
  have h6 := h5.call .writer (i := 3) (.writeFinish 3) rfl ⟨by decide, by decide, by decide⟩
    fun _ _ => trivial
  have hok : PartiesOk 4 unused := .unused (by decide) (by decide)
  refine ⟨_, _, h4, rfl, ⟨rfl, not_readerGood (hok.reach h4).1 ?_⟩, h6, rfl, rfl,
    not_writerGood (hok.reach h6).1 ?_⟩
  · exact (by decide : ¬ (1 = 0 ∨ 1 < 1))
  · exact (by decide : ¬ 1 ≤ 0)

end Cpp

end Vamos
