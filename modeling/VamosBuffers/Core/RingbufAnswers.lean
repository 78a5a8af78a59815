import Mathlib.Tactic
import VamosBuffers.Core.RingbufRuns

/-! What the calls on a ring answer. The two threads are those of the ring's runs, but between two
    calls each stands at the whole answer it was last given:

        writer   offered call off n wrapN       slots off .. off+n-1 and 0 .. wrapN-1
        reader   told call off n                n items from off on
                 took req before items k        consume_upto(req) took k; when it began, `before`
                                                had been consumed and `items` were there

    An answer is computed from one index of the other side: the stale copy, or the real one at the
    moment it was loaded. Which of the two it was, and how many items there were at the load, is what
    `atTail` and `atHead` record. The reader's permission to `consume` is a parameter. -/

namespace Vamos
open Schemes

namespace Ringbuf

/-- The writer between two calls. -/
inductive WriterAt where
  | idle
  | offered (call : WriterCall) (off n wrapN : ℕ)
  deriving DecidableEq, Repr

/-- The reader between two calls. -/
inductive ReaderAt where
  | idle
  | told (call : ReaderCall) (off n : ℕ)
  | took (req before items k : ℕ)
  deriving DecidableEq, Repr

abbrev At : Side → Type
  | .writer => WriterAt
  | .reader => ReaderAt

/-- How many elements the writer may publish. -/
def WriterAt.room : WriterAt → ℕ
  | .idle => 0
  | .offered _ _ n wrapN => n + wrapN

/-- The writer. -/
def writerAsks : Client Ringbuf (Acc RingLoc) WriterAt WriterCall where
  enabled i x b := match x with
    | .writeFinish m => 1 ≤ m ∧ m ≤ i.room ∧ b.capacity + m < 2 ^ 64 - 1
    | _ => True
  body i x := match x with
    | .writeOff => do let r ← writeOff; pure (.offered .writeOff r.1 r.2.1 r.2.2)
    | .writeOffNowrap => do let r ← writeOffNowrap; pure (.offered .writeOffNowrap r.1 r.2 0)
    | .acquire req => do let r ← acquire req; pure (.offered (.acquire req) r.1 r.2.1 r.2.2)
    | .acquireNowrap req => do
      let r ← acquireNowrap req
      pure (.offered (.acquireNowrap req) r.1 r.2 0)
    | .writeFinish m => do writeFinish m; pure .idle
    | .size => do let _ ← size; pure i
    | .freeNum => do let _ ← freeNum; pure i

/-- What was consumed so far and what is there, noted by the reader before a call. -/
def noteItems : RingProg (ℕ × ℕ) := Prog.load .tail fun b => (b.consumed, b.written - b.consumed)

/-- The reader, which may `consume m` when `may` permits. -/
def readerAsks (may : ReaderAt → ℕ → Ringbuf → Prop) :
    Client Ringbuf (Acc RingLoc) ReaderAt ReaderCall where
  enabled i x b := match x with
    | .consume m => 1 ≤ m ∧ may i m b ∧ b.capacity + m < 2 ^ 64 - 1
    | .consumeUpto m => m ≤ b.capacity ∧ b.capacity + m < 2 ^ 64 - 1
    | _ => True
  body i x := match x with
    | .readOffNowrap => do let r ← readOffNowrap; pure (.told .readOffNowrap r.1 r.2)
    | .readAcquire req => do let r ← readAcquire req; pure (.told (.readAcquire req) r.1 r.2)
    | .peek req => do
      let r ← peek req
      pure (.told (.peek req) (r.2.elim 0 Prod.fst) r.1)
    | .consume m => do consume m; pure .idle
    | .consumeUpto m => do
      let (before, items) ← noteItems
      let k ← consumeUpto m
      pure (.took m before items k)
    | .size => do let _ ← size; pure i
    | .freeNum => do let _ ← freeNum; pure i

/-- The two clients. -/
def askers (may : ReaderAt → ℕ → Ringbuf → Prop) :
    (t : Side) → Client Ringbuf (Acc RingLoc) (At t) (Call t)
  | .writer => writerAsks
  | .reader => readerAsks may

abbrev AnswerCfg : Type := Cfg Ringbuf (Acc RingLoc) At

/-- A fresh ring of capacity `c`; nothing has been asked. -/
def unasked (c : ℕ) : AnswerCfg :=
  ⟨(init c).val, fun t => match t with
    | .writer => .ret WriterAt.idle
    | .reader => .ret ReaderAt.idle⟩

/-- The reader consumes at most what it was told. -/
def asTold : ReaderAt → ℕ → Ringbuf → Prop
  | .told _ _ n, m, _ => m ≤ n
  | _, _, _ => False

/-! ### What an answer says -/

/-- How many elements a writer's call asks for. -/
def WriterCall.req : WriterCall → ℕ
  | .acquire req => req
  | .acquireNowrap req => req
  | _ => 1

/-- Does the call report the slots after the turn? -/
def WriterCall.wraps : WriterCall → Bool
  | .writeOff => true
  | .acquire _ => true
  | _ => false

/-- Is the number `n` less than the reader's call asked for? `peek(0)` asks for the number itself. -/
def ReaderCall.short : ReaderCall → ℕ → Bool
  | .readOffNowrap, n => n == 0
  | .readAcquire req, n => decide (n < req)
  | .peek req, n => decide (req = 0 ∨ n < req)
  | _, _ => false

/-- What the writer knows between two calls. -/
def WriterKnows : WriterAt → Ringbuf → Prop
  | .idle, _ => True
  | .offered x off n wrapN, b => Offered off (n + wrapN) b ∧
      ∃ w, Found x.req n w b ∧ wrapN = if x.wraps then w else 0

/-- What the reader knows between two calls. -/
def ReaderKnows : ReaderAt → Ringbuf → Prop
  | .idle, _ => True
  | .told x off n, b => (x = .readOffNowrap → off = b.tail) ∧ Avail b n ∧ Counted n b ∧
      (x.short n = true → b.atHead = some n)
  | .took req before items k, b => b.consumed = before + k ∧
      (∀ i, b.atHead = some i → k = min req i) ∧ (b.atHead = none → k = req ∧ k ≤ items)

def Knows : (t : Side) → At t → Ringbuf → Prop
  | .writer => WriterKnows
  | .reader => ReaderKnows

theorem WriterKnows.stable : Stable ReaderStep WriterKnows := by
  intro i b b' h hs
  cases i with
  | idle => trivial
  | offered x off n wrapN =>
    obtain ⟨ho, w, hf, hw⟩ := h
    exact ⟨ho.stable hs, w, hf.same hs.view, hw⟩

theorem ReaderKnows.stable : Stable WriterStep ReaderKnows := by
  intro i b b' h hs
  cases i with
  | idle => trivial
  | told x off n =>
    obtain ⟨ho, ha, hc, hn⟩ := h
    exact ⟨fun hx => (ho hx).trans hs.tail.symm, ha.stable hs, hc.stable hs,
      fun hsh => hs.atHead.trans (hn hsh)⟩
  | took req before items k =>
    simp only [ReaderKnows, hs.atHead, hs.consumed] at h ⊢
    exact h

/-! ### Runs -/

theorem writerAsks_safe {i : WriterAt} {x : WriterCall} {b : Ringbuf} (hb : RingInv b)
    (hk : WriterKnows i b) (he : writerAsks.enabled i x b) :
    Safe RingInv (role .writer) WriterKnows (writerAsks.body i x) b := by
  cases x with
  | writeOff =>
    exact writer_return WriterKnows.stable 0 hb (writeOffAtLeast_safe hb 1)
      fun _ _ ⟨ho, _, hf⟩ => ⟨ho, _, hf, rfl⟩
  | writeOffNowrap =>
    exact writer_return WriterKnows.stable 0 hb (writeOffNowrap_safe hb)
      fun _ _ ⟨ho, _, _, w, hf⟩ => ⟨ho, w, hf, rfl⟩
  | acquire req =>
    exact writer_return WriterKnows.stable 0 hb (writeOffAtLeast_safe hb req)
      fun _ _ ⟨ho, _, hf⟩ => ⟨ho, _, hf, rfl⟩
  | acquireNowrap req =>
    exact writer_return WriterKnows.stable 0 hb (acquireNowrap_safe hb req)
      fun _ _ ⟨ho, _, w, hf⟩ => ⟨ho, w, hf, rfl⟩
  | writeFinish m =>
    obtain ⟨h0, hm, hc⟩ := he
    cases i with
    | idle => simp only [WriterAt.room] at hm; omega
    | offered x off n wrapN =>
      exact writer_return WriterKnows.stable _ hb (writeFinish_safe hk.1 h0 hm hc le_rfl)
        fun _ _ _ => trivial
  | size => exact size_safe (t := .writer) WriterKnows.stable hk
  | freeNum => exact freeNum_safe (t := .writer) WriterKnows.stable hk

/-- The reader keeps to its role if it consumes only what its stale head shows. -/
theorem readerAsks_safe {may : ReaderAt → ℕ → Ringbuf → Prop}
    (hmay : ∀ i m b, RingInv b → ReaderKnows i b → may i m b → Avail b m)
    {i : ReaderAt} {x : ReaderCall} {b : Ringbuf} (hb : RingInv b) (hk : ReaderKnows i b)
    (he : (readerAsks may).enabled i x b) :
    Safe RingInv (role .reader) ReaderKnows ((readerAsks may).body i x) b := by
  have h0 := hb.avail_zero
  cases x with
  | readOffNowrap =>
    refine reader_return ReaderKnows.stable 0 hb (readNum_safe hb h0 _)
      fun r b' _ ⟨ht, _, hn, hc, _⟩ => ⟨fun _ => ht.off, ht.avail, hc, fun hs => (hn hs).1⟩
  | readAcquire req =>
    refine reader_return ReaderKnows.stable 0 hb (readNum_safe hb h0 _)
      fun r b' _ ⟨ht, _, hn, hc, _⟩ => ⟨nofun, ht.avail, hc, fun hs => (hn hs).1⟩
  | peek req =>
    refine reader_return ReaderKnows.stable 0 hb (peek_safe req hb h0)
      fun r b' _ ⟨ht, _, hc, hn, _⟩ => ⟨nofun, ht.avail, hc, fun hs => ?_⟩
    simp only [ReaderCall.short, decide_eq_true_eq] at hs
    rcases hn with ⟨hr, hle⟩ | ⟨-, ha⟩
    · omega
    · exact ha
  | consume m =>
    obtain ⟨h1, hm, hc⟩ := he
    exact reader_return ReaderKnows.stable _ hb
      (consume_safe (hmay i m b hb hk hm) h1 le_rfl hc le_rfl) fun _ _ _ _ => trivial
  | consumeUpto m =>
    obtain ⟨hm, hc⟩ := he
    refine Safe.load_bind (role_guar_load .reader _) fun b1 h1 i1 => ?_
    have h1 : WriterStep b b1 := h1
    refine reader_return ReaderKnows.stable _ i1 (consumeUpto_safe i1 i1.avail_zero
      (h1.capacity ▸ hm) (h1.capacity ▸ hc) le_rfl) fun k b' _ ⟨_, _, hk, _, hl, hn⟩ =>
        ⟨hk, hl, fun h => ?_⟩
    obtain ⟨hk, hle⟩ := hn h
    exact ⟨hk, by omega⟩
  | size => exact size_safe (t := .reader) ReaderKnows.stable hk
  | freeNum => exact freeNum_safe (t := .reader) ReaderKnows.stable hk

/-- Every configuration of every run: the ring invariant, the capacity, and what each side knows. -/
theorem reach_knows {may : ReaderAt → ℕ → Ringbuf → Prop}
    (hmay : ∀ i m b, RingInv b → ReaderKnows i b → may i m b → Avail b m) {c : ℕ}
    (hc : (init c).ok = true) {cfg : AnswerCfg} (h : Reach (askers may) (unasked c) cfg) :
    RingInv cfg.mem ∧ cfg.mem.capacity = c ∧
      (∀ i, cfg.prog .writer = .ret i → WriterKnows i cfg.mem) ∧
      ∀ i, cfg.prog .reader = .ret i → ReaderKnows i cfg.mem := by
  have keep : ∀ t l b b', RingInv b → b.capacity = c → (role t).guar l b b' → b'.capacity = c :=
    fun t l b b' _ hb hg => (role_guar_capacity t hg).trans hb
  have hr := reach_safe (C := askers may) (I := fun b => RingInv b ∧ b.capacity = c) (Q := Knows)
    (ρ := role) ?_ ?_ ?_ (init_inv hc) ?_ h
  · obtain ⟨hI, hs⟩ := hr
    exact ⟨hI.1, hI.2, fun i hp => (hs .writer).at_ret hI hp, fun i hp => (hs .reader).at_ret hI hp⟩
  · intro t _ _ _
    cases t <;> trivial
  · intro t u htu l s s' _ _ hg
    cases t <;> cases u <;> first | exact absurd rfl htu | exact hg
  · intro t i x b hI hk he
    cases t with
    | writer => exact (writerAsks_safe hI.1 hk he).with_inv (keep .writer)
    | reader => exact (readerAsks_safe hmay hI.1 hk he).with_inv (keep .reader)
  · intro t
    cases t <;> exact fun _ _ _ => trivial

theorem asTold_avail (i : ReaderAt) (m : ℕ) (b : Ringbuf) (_ : RingInv b) (hk : ReaderKnows i b)
    (hm : asTold i m b) : Avail b m := by
  cases i with
  | told x off n => exact hk.2.1.mono hm
  | idle => exact hm.elim
  | took req before items k => exact hm.elim

/-! ### No false full, no false empty -/

/-- `items` may be what the ring held when the call looked: the number at the load, if it loaded the
    other side's index at all. -/
def AtLook (loaded : Option ℕ) (items : ℕ) : Prop := ∀ i, loaded = some i → i = items

/-- What a writer's call answers, if the ring held `items` when it looked. -/
def WriterCall.Fair (c items off n wrapN : ℕ) : WriterCall → Prop
  | .writeOff => n + wrapN = 0 → items = c - 1
  | .writeOffNowrap => n = 0 → items = c - 1
  | .acquire req => min req (c - 1 - items) ≤ n + wrapN
  | .acquireNowrap req => min req (min (c - 1 - items) (c - off)) ≤ n
  | _ => True

/-- What a reader's call answers, if the ring held `items` when it looked. -/
def ReaderCall.Fair (items n : ℕ) : ReaderCall → Prop
  | .readOffNowrap => n = 0 → items = 0
  | .readAcquire req => min req items ≤ n
  | .peek req => if req = 0 then n = items else min req items ≤ n
  | _ => True

theorem WriterKnows.fair {x : WriterCall} {off n wrapN items : ℕ} {b : Ringbuf} (hb : RingInv b)
    (hk : WriterKnows (.offered x off n wrapN) b) (hi : AtLook b.atTail items) :
    x.Fair b.capacity items off n wrapN := by
  obtain ⟨ho, w, hf, hw⟩ := hk
  obtain ⟨st, v⟩ := hb.writer
  have hsp := getWriteOff_split hb.head_lt (v.seen_lt hb) hb.lt_word hf.seen.nums
  -- either the request is met or the numbers are those of the load
  have hall : x.req ≤ n + w ∨ n + w = b.capacity - 1 - items ∧ items < b.capacity := by
    cases ha : b.atTail with
    | none => exact .inl (hf.enough ha)
    | some i =>
      obtain rfl := hi i ha
      obtain ⟨st', hv, hwr⟩ := hf.seen.load i ha
      have hlt := hv.lt
      exact .inr ⟨hf.at_load hb ha, by omega⟩
  have hoff := ho.off
  have hh := hb.head_lt
  have hfirst := hsp.first
  have hturn := hsp.turn
  cases x with
  | writeOff =>
    have hw : wrapN = w := hw
    simp only [WriterCall.Fair, WriterCall.req] at hall ⊢
    omega
  | writeOffNowrap =>
    simp only [WriterCall.Fair, WriterCall.req] at hall ⊢
    omega
  | acquire req =>
    have hw : wrapN = w := hw
    simp only [WriterCall.Fair, WriterCall.req] at hall ⊢
    omega
  | acquireNowrap req =>
    simp only [WriterCall.Fair, WriterCall.req] at hall ⊢
    omega
  | writeFinish m => trivial
  | size => trivial
  | freeNum => trivial

theorem ReaderKnows.fair {x : ReaderCall} {off n items : ℕ} {b : Ringbuf}
    (hk : ReaderKnows (.told x off n) b) (hi : AtLook b.atHead items) : x.Fair items n := by
  obtain ⟨-, -, -, hn⟩ := hk
  -- an answer short of the request is the number at the load
  have hshort : x.short n = true → n = items := fun h => hi n (hn h)
  cases x with
  | readOffNowrap =>
    intro h0
    have := hshort (by simp [ReaderCall.short, h0])
    omega
  | readAcquire req =>
    simp only [ReaderCall.short, decide_eq_true_eq] at hshort
    simp only [ReaderCall.Fair]
    omega
  | peek req =>
    simp only [ReaderCall.short, decide_eq_true_eq] at hshort
    simp only [ReaderCall.Fair]
    split <;> omega
  | consume m => trivial
  | consumeUpto m => trivial
  | size => trivial
  | freeNum => trivial

/-- No false full and no false empty, in every interleaving. Whatever stale indices a call starts
    from, its answer is as good as one from the ring's state at the moment it looked: a call that
    loads the other side's index answers for the items there at the load, and one that does not
    answers in full. `consume_upto` takes exactly what it can. -/
theorem answers_fair {c : ℕ} (hc : (init c).ok = true) {cfg : AnswerCfg}
    (h : Reach (askers asTold) (unasked c) cfg) :
    (∀ x off n wrapN items, cfg.prog .writer = .ret (.offered x off n wrapN) →
      AtLook cfg.mem.atTail items → x.Fair c items off n wrapN) ∧
    (∀ x off n items, cfg.prog .reader = .ret (.told x off n) →
      AtLook cfg.mem.atHead items → x.Fair items n) ∧
    ∀ req before items k, cfg.prog .reader = .ret (.took req before items k) →
      cfg.mem.consumed = before + k ∧ (cfg.mem.atHead = none → k = min req items) ∧
      ∀ i, cfg.mem.atHead = some i → k = min req i := by
  obtain ⟨hI, hcap, hw, hr⟩ := reach_knows asTold_avail hc h
  refine ⟨fun x off n wrapN items hp hi => ?_, fun x off n items hp hi => ?_,
    fun req before items k hp => ?_⟩
  · rw [← hcap]
    exact (hw _ hp).fair hI hi
  · exact (hr _ hp).fair hi
  · obtain ⟨hb, hl, hn⟩ := hr _ hp
    refine ⟨hb, fun h0 => ?_, hl⟩
    obtain ⟨rfl, hle⟩ := hn h0
    exact (Nat.min_eq_left hle).symm

/-- Two items fill a ring of three slots: the writer is told so after a load of `tail`, and
    `consume_upto(3)` then takes the two. -/
theorem answers_fair_full : ∃ cfg : AnswerCfg, Reach (askers asTold) (unasked 3) cfg ∧
    cfg.prog .writer = .ret (.offered .writeOff 2 0 0) ∧ cfg.prog .reader = .ret (.took 3 0 2 2) ∧
    cfg.mem.atTail = some 2 ∧ cfg.mem.atHead = some 2 ∧
    (∀ i, cfg.mem.atHead = some i → 2 = min 3 i) := by
  have h0 : Reach (askers asTold) (unasked 3) (unasked 3) := .start
  have h1 := h0.call .writer (i := .idle) (.acquire 2) rfl trivial fun _ _ => trivial
  have h2 := h1.call .writer (i := .offered (.acquire 2) 0 2 0) (.writeFinish 2) rfl
    ⟨by decide, by decide, by decide⟩ fun _ _ => trivial
  have h3 := h2.call .writer (i := .idle) .writeOff rfl trivial fun _ _ => trivial
  have h4 := h3.call .reader (i := .idle) (.consumeUpto 3) rfl ⟨by decide, by decide⟩
    fun _ _ => trivial
  exact ⟨_, h4, rfl, rfl, rfl, rfl, ((answers_fair (by decide) h4).2.2 3 0 2 2 rfl).2.2⟩

/-! ### Slots to write -/

/-- Slot `s` holds an item that is still to be read. -/
def Unread (b : Ringbuf) (s : ℕ) : Prop := ∃ k, b.consumed ≤ k ∧ k < b.written ∧ k % b.capacity = s

/-- The writer may fill the `n` slots from `off` on and the first `wrapN` ones: they are slots of the
    ring, and none holds an unread item. -/
structure Writable (off n wrapN : ℕ) (b : Ringbuf) : Prop where
  fits : off + n ≤ b.capacity
  turn : wrapN ≤ off
  free : ∀ s, off ≤ s ∧ s < off + n ∨ s < wrapN → ¬ Unread b s

/-- The tail that the writer's last call went by: the one at its load, or else the stale copy. -/
def tailSeen (b : Ringbuf) : ℕ :=
  match b.atTail with
  | some i => (b.written - i) % b.capacity
  | none => b.seenTail

theorem Seen.tailSeen_eq {r : ℕ × ℕ × ℕ} {b : Ringbuf} (h : Seen r b) : tailSeen b = b.seenTail := by
  unfold tailSeen
  cases ha : b.atTail with
  | none => rfl
  | some i =>
    obtain ⟨st, hv, hw⟩ := h.load i ha
    simp only
    rw [hv.seen, hw, Nat.add_sub_cancel]

/-- A slot that the next `n` items would take holds no unread item, as long as they are offered. -/
theorem Offer.not_unread {b : Ringbuf} {i n : ℕ} (h : Offer b n) (hi : i < n) :
    ¬ Unread b ((b.written + i) % b.capacity) := by
  obtain ⟨st, hv, hn⟩ := h
  rintro ⟨k, hk, hlt, he⟩
  have := hv.le
  exact mod_ne_mod (by omega) (by omega) he.symm

theorem WriterKnows.writable_iff {x : WriterCall} {off n wrapN : ℕ} {b : Ringbuf} (hb : RingInv b)
    (hk : WriterKnows (.offered x off n wrapN) b) :
    Writable off n wrapN b ↔ ¬ (2 ≤ off ∧ tailSeen b = off) := by
  obtain ⟨ho, w, hf, hw⟩ := hk
  obtain ⟨st, v⟩ := hb.writer
  have hsp := getWriteOff_split hb.head_lt (v.seen_lt hb) hb.lt_word hf.seen.nums
  have hoff : off = b.head := ho.off
  have hh := hb.head_lt
  have hww : wrapN ≤ w := by rw [hw]; split <;> omega
  have hturn := hsp.turn
  rw [hf.seen.tailSeen_eq]
  constructor
  · -- where they meet, all the slots but one are said to lie after `head`
    rintro ⟨hfits, -, -⟩ ⟨h2, hmeet⟩
    have := hsp.meet (hmeet.trans hoff)
    omega
  · intro hne
    have hfits : off + n ≤ b.capacity := by
      by_cases hmeet : b.seenTail = b.head
      · have := hsp.meet hmeet
        have : ¬ 2 ≤ off := fun h2 => hne ⟨h2, hmeet.trans hoff.symm⟩
        omega
      · rw [hoff]; exact hsp.fits hmeet
    refine ⟨hfits, by omega, fun s hs => ?_⟩
    -- the slots are those of the next items
    obtain ⟨i, hi, rfl⟩ : ∃ i < n + wrapN, s = (b.written + i) % b.capacity := by
      have hmod : ∀ i, (b.written + i) % b.capacity = (b.head + i) % b.capacity := fun i => by
        rw [hb.base.head, Nat.mod_add_mod]
      rcases hs with ⟨hlo, hhi⟩ | hlt
      · refine ⟨s - off, by omega, ?_⟩
        rw [hmod, ← hoff, Nat.add_sub_cancel' hlo, Nat.mod_eq_of_lt (by omega)]
      · have hc : b.head + n = b.capacity := (hturn (by omega)).1
        refine ⟨n + s, by omega, ?_⟩
        rw [hmod, ← Nat.add_assoc, hc, Nat.add_mod_left, Nat.mod_eq_of_lt (by omega)]
    exact ho.room.not_unread hi

/-- Where the writer may write, in every interleaving: the slots that a call reports lie inside the
    ring and are free unless the call went by a tail that stands at a head of 2 or more. Then the
    ring was empty, `get_write_off` reports `capacity - 1` slots after `head`, and there are fewer. -/
theorem write_ranges {c : ℕ} (hc : (init c).ok = true) {cfg : AnswerCfg}
    (h : Reach (askers asTold) (unasked c) cfg) {x : WriterCall} {off n wrapN : ℕ}
    (hp : cfg.prog .writer = .ret (.offered x off n wrapN)) :
    Writable off n wrapN cfg.mem ↔ ¬ (2 ≤ off ∧ tailSeen cfg.mem = off) := by
  obtain ⟨hI, -, hw, -⟩ := reach_knows asTold_avail hc h
  exact (hw _ hp).writable_iff hI

/-- A first call on a fresh ring. -/
theorem write_ranges_fresh : ∃ cfg : AnswerCfg, Reach (askers asTold) (unasked 3) cfg ∧
    cfg.prog .writer = .ret (.offered .writeOff 0 2 0) ∧ Writable 0 2 0 cfg.mem := by
  have h0 : Reach (askers asTold) (unasked 3) (unasked 3) := .start
  have h1 := h0.call .writer (i := .idle) .writeOff rfl trivial fun _ _ => trivial
  exact ⟨_, h1, rfl, (write_ranges (by decide) h1 rfl).mpr (by decide)⟩

/-- Two items written and read in a ring of three slots: `write_off` then reports slot 2 and one more
    after it. -/
theorem write_range_outside : ∃ cfg : AnswerCfg, Reach (askers asTold) (unasked 3) cfg ∧
    cfg.prog .writer = .ret (.offered .writeOff 2 2 0) ∧ ¬ 2 + 2 ≤ cfg.mem.capacity := by
  have h0 : Reach (askers asTold) (unasked 3) (unasked 3) := .start
  have h1 := h0.call .writer (i := .idle) .writeOff rfl trivial fun _ _ => trivial
  have h2 := h1.call .writer (i := .offered .writeOff 0 2 0) (.writeFinish 2) rfl
    ⟨by decide, by decide, by decide⟩ fun _ _ => trivial
  have h3 := h2.call .reader (i := .idle) .readOffNowrap rfl trivial fun _ _ => trivial
  have h4 := h3.call .reader (i := .told .readOffNowrap 0 2) (.consume 2) rfl
    ⟨by decide, le_refl 2, by decide⟩ fun _ _ => trivial
  have h5 := h4.call .writer (i := .idle) .writeOff rfl trivial fun _ _ => trivial
  exact ⟨_, h5, rfl, by decide⟩

/-! ### Items to read -/

/-- The `n` oldest unread items lie in the slots from `off` on, in order and inside the ring. -/
structure Contiguous (off n : ℕ) (b : Ringbuf) : Prop where
  fits : off + n ≤ b.capacity
  item : ∀ i < n, b.consumed + i < b.written ∧ (b.consumed + i) % b.capacity = off + i

/-- The head that the reader's last call went by: the one at its load, or else the stale copy. -/
def headSeen (b : Ringbuf) : ℕ :=
  match b.atHead with
  | some i => (b.consumed + i) % b.capacity
  | none => b.seenHead

theorem Counted.headSeen_eq {n : ℕ} {b : Ringbuf} (h : Counted n b) (hb : RingInv b) :
    headSeen b = b.seenHead := by
  unfold headSeen
  cases ha : b.atHead with
  | none => rfl
  | some i =>
    obtain ⟨sh, v⟩ := hb.reader
    have hn := h.num
    rw [v.ringDist_seen hb] at hn
    have := v.ge
    simp only
    rw [h.load i ha, v.seen, hn, Nat.add_sub_cancel' this]

theorem Avail.contiguous {n : ℕ} {b : Ringbuf} (ha : Avail b n) (hb : RingInv b)
    (hfits : b.tail + n ≤ b.capacity) : Contiguous b.tail n b := by
  have hle := ha.le_items
  refine ⟨hfits, fun i hi => ⟨by omega, ?_⟩⟩
  rw [← Nat.mod_add_mod, ← hb.base.tail, Nat.mod_eq_of_lt (by omega)]

/-- The items that the reader is told of are contiguous unless the head it goes by has turned and
    left slot 0. -/
theorem Counted.contiguous_iff {n : ℕ} {b : Ringbuf} (h : Counted n b) (hb : RingInv b)
    (ha : Avail b n) :
    Contiguous b.tail n b ↔ ¬ (0 < headSeen b ∧ headSeen b < b.tail) := by
  obtain ⟨sh, v⟩ := hb.reader
  have hn := h.num
  have hlt := v.seen_lt hb
  have ht := hb.tail_lt
  rw [h.headSeen_eq hb]
  unfold ringDist at hn
  constructor
  · rintro ⟨hfits, -⟩ ⟨hpos, hturn⟩
    rw [if_neg (by omega)] at hn
    omega
  · intro hne
    exact ha.contiguous hb (by split at hn <;> omega)

/-! ### Consuming what is there -/

/-- The ring holds at least `m` items, as the comment at `consume` asks. -/
def thatMany : ReaderAt → ℕ → Ringbuf → Prop := fun _ m b => m ≤ b.written - b.consumed

/-- It does, and the reader's stale head shows them. -/
def thatManySeen : ReaderAt → ℕ → Ringbuf → Prop := fun i m b =>
  thatMany i m b ∧ m ≤ ringDist b.seenHead b.tail b.capacity

theorem thatManySeen_avail (i : ReaderAt) (m : ℕ) (b : Ringbuf) (hb : RingInv b)
    (_ : ReaderKnows i b) (hm : thatManySeen i m b) : Avail b m := by
  obtain ⟨sh, v⟩ := hb.reader
  have hle := hm.2
  rw [v.ringDist_seen hb] at hle
  have := v.ge
  exact ⟨sh, v, by omega⟩

/-- In every interleaving in which the reader consumes only items that are there and that its stale
    head shows, no call reports or takes more items than there are. -/
theorem consume_sound {c : ℕ} (hc : (init c).ok = true) {cfg : AnswerCfg}
    (h : Reach (askers thatManySeen) (unasked c) cfg) :
    cfg.mem.consumed ≤ cfg.mem.written ∧
    (∀ x off n, cfg.prog .reader = .ret (.told x off n) → n ≤ cfg.mem.written - cfg.mem.consumed) ∧
    ∀ req before items k, cfg.prog .reader = .ret (.took req before items k) →
      (cfg.mem.atHead = none → k ≤ items) ∧ ∀ i, cfg.mem.atHead = some i → k ≤ i := by
  obtain ⟨hI, -, -, hr⟩ := reach_knows thatManySeen_avail hc h
  refine ⟨hI.consumed_le, fun x off n hp => ?_, fun req before items k hp => ?_⟩
  · exact (hr _ hp).2.1.le_items
  · obtain ⟨-, hl, hn⟩ := hr _ hp
    exact ⟨fun h0 => (hn h0).2, fun i hi => by have := hl i hi; omega⟩

/-- Three items, two of which are consumed after a `read_off_nowrap` that showed them. -/
theorem consume_sound_two : ∃ cfg : AnswerCfg, Reach (askers thatManySeen) (unasked 4) cfg ∧
    cfg.prog .reader = .ret (.told .readOffNowrap 2 1) ∧
    1 ≤ cfg.mem.written - cfg.mem.consumed := by
  have h0 : Reach (askers thatManySeen) (unasked 4) (unasked 4) := .start
  have h1 := h0.call .writer (i := .idle) .writeOff rfl trivial fun _ _ => trivial
  have h2 := h1.call .writer (i := .offered .writeOff 0 3 0) (.writeFinish 3) rfl
    ⟨by decide, by decide, by decide⟩ fun _ _ => trivial
  have h3 := h2.call .reader (i := .idle) .readOffNowrap rfl trivial fun _ _ => trivial
  have h4 := h3.call .reader (i := .told .readOffNowrap 0 3) (.consume 2) rfl
    ⟨by decide, ⟨show 2 ≤ 3 by decide, show 2 ≤ 3 by decide⟩, by decide⟩ fun _ _ => trivial
  have h5 := h4.call .reader (i := .idle) .readOffNowrap rfl trivial fun _ _ => trivial
  exact ⟨_, h5, rfl, (consume_sound (by decide) h5).2.1 .readOffNowrap 2 1 rfl⟩

/-- Three items, two of which are consumed after nothing but `size`: one is left and
    `read_off_nowrap` reports two. -/
theorem consume_unseen : ∃ cfg : AnswerCfg, Reach (askers thatMany) (unasked 4) cfg ∧
    cfg.prog .reader = .ret (.told .readOffNowrap 2 2) ∧
    ¬ 2 ≤ cfg.mem.written - cfg.mem.consumed := by
  have h0 : Reach (askers thatMany) (unasked 4) (unasked 4) := .start
  have h1 := h0.call .writer (i := .idle) .writeOff rfl trivial fun _ _ => trivial
  have h2 := h1.call .writer (i := .offered .writeOff 0 3 0) (.writeFinish 3) rfl
    ⟨by decide, by decide, by decide⟩ fun _ _ => trivial
  have h3 := h2.call .reader (i := .idle) .size rfl trivial fun _ _ => trivial
  have h4 := h3.call .reader (i := .idle) (.consume 2) rfl
    ⟨by decide, show 2 ≤ 3 by decide, by decide⟩ fun _ _ => trivial
  have h5 := h4.call .reader (i := .idle) .readOffNowrap rfl trivial fun _ _ => trivial
  exact ⟨_, h5, rfl, by decide⟩

end Ringbuf

end Vamos
