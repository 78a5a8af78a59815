import Mathlib.Tactic
import VamosBuffers.Core.RingbufRoles

/-! One writer and one reader on a ring, in any sequentially consistent interleaving of their loads
    and stores. A thread between two calls stands at the number it was last told:

        writer   n ── write_off, acquire, ... ──▶ n'     n ── write_finish(m), 1 ≤ m ≤ n ──▶ 0
        reader   n ── read_off, peek, ...     ──▶ n'     n ── consume(m), 1 ≤ m ≤ n      ──▶ 0

    Requests (`acquire`, `read_acquire`, `peek`) may ask for any number. -/

namespace Vamos
open Schemes

namespace Ringbuf

/-- The two threads. -/
inductive Side where
  | writer | reader
  deriving DecidableEq, Repr

/-- The calls of the writer. -/
inductive WriterCall where
  | writeOff | writeOffNowrap
  | acquire (req : ℕ) | acquireNowrap (req : ℕ)
  | writeFinish (m : ℕ)
  | size | freeNum
  deriving DecidableEq, Repr

/-- The calls of the reader. -/
inductive ReaderCall where
  | readOffNowrap | readAcquire (req : ℕ) | peek (req : ℕ)
  | consume (m : ℕ) | consumeUpto (m : ℕ)
  | size | freeNum
  deriving DecidableEq, Repr

abbrev Call : Side → Type
  | .writer => WriterCall
  | .reader => ReaderCall

/-- The writer, at the number of elements it was last offered. -/
def writerClient : Client Ringbuf (Acc RingLoc) ℕ WriterCall where
  enabled told x b := match x with
    | .writeFinish m => 1 ≤ m ∧ m ≤ told ∧ b.capacity + m < 2 ^ 64 - 1
    | _ => True
  body told x := match x with
    | .writeOff => do let r ← writeOff; pure (r.2.1 + r.2.2)
    | .writeOffNowrap => do let r ← writeOffNowrap; pure r.2
    | .acquire req => do let r ← acquire req; pure (r.2.1 + r.2.2)
    | .acquireNowrap req => do let r ← acquireNowrap req; pure r.2
    | .writeFinish m => do writeFinish m; pure 0
    | .size => do let _ ← size; pure told
    | .freeNum => do let _ ← freeNum; pure told

/-- The reader, at the number of items it was last told of. -/
def readerClient : Client Ringbuf (Acc RingLoc) ℕ ReaderCall where
  enabled told x b := match x with
    | .consume m => 1 ≤ m ∧ m ≤ told ∧ b.capacity + m < 2 ^ 64 - 1
    | .consumeUpto m => m ≤ b.capacity ∧ b.capacity + m < 2 ^ 64 - 1
    | _ => True
  body told x := match x with
    | .readOffNowrap => do let r ← readOffNowrap; pure r.2
    | .readAcquire req => do let r ← readAcquire req; pure r.2
    | .peek req => do let r ← peek req; pure r.1
    | .consume m => do consume m; pure 0
    | .consumeUpto m => do let _ ← consumeUpto m; pure 0
    | .size => do let _ ← size; pure told
    | .freeNum => do let _ ← freeNum; pure told

/-- The two clients. -/
def clients : (t : Side) → Client Ringbuf (Acc RingLoc) ℕ (Call t)
  | .writer => writerClient
  | .reader => readerClient

abbrev RingCfg : Type := Cfg Ringbuf (Acc RingLoc) (fun _ : Side => ℕ)

/-- A fresh ring of capacity `c`; nothing has been called. -/
def start (c : ℕ) : RingCfg := ⟨(init c).val, fun _ => .ret 0⟩

/-! ### Each side keeps to its role -/

/-- What each side knows between two calls. -/
def Known : Side → ℕ → Ringbuf → Prop
  | .writer, told, b => told = 0 ∨ Offered b.head told b
  | .reader, told, b => Avail b told

/-- The roles of the two sides, with no limit on how far they move. -/
def role : Side → Role Ringbuf (Acc RingLoc)
  | .writer => { rely := ReaderStep, guar := fun _ => WriterStep,
                 refl := ReaderStep.refl, trans := ReaderStep.trans }
  | .reader => { rely := WriterStep, guar := fun _ => ReaderStep,
                 refl := WriterStep.refl, trans := WriterStep.trans }

theorem role_rely_capacity (t : Side) {b b' : Ringbuf} (h : (role t).rely b b') :
    b'.capacity = b.capacity := by
  cases t with
  | writer => exact ReaderStep.capacity h
  | reader => exact WriterStep.capacity h

theorem role_guar_capacity (t : Side) {l : Acc RingLoc} {b b' : Ringbuf}
    (h : (role t).guar l b b') : b'.capacity = b.capacity := by
  cases t with
  | writer => exact WriterStep.capacity h
  | reader => exact ReaderStep.capacity h

theorem role_guar_load (t : Side) (x : RingLoc) (b : Ringbuf) : (role t).guar (.load x) b b := by
  cases t with
  | writer => exact WriterStep.refl b
  | reader => exact ReaderStep.refl b

theorem Known.stable {t : Side} : Stable (role t).rely (Known t) := by
  intro told b b' h hr
  cases t with
  | writer =>
    have hs : ReaderStep b b' := hr
    exact h.imp_right fun ho => by rw [hs.head]; exact ho.stable hs
  | reader => exact Avail.stable h hr

section Return

variable {ι : Type} {K : ι → Ringbuf → Prop}

/-- A query by either side loads `head` and `tail` and computes on two valid indices; what the side
    knew before it still knows. -/
theorem query_safe {t : Side} (hK : Stable (role t).rely K) {i : ι} {b : Ringbuf} (hk : K i b)
    {f : ℕ → ℕ → ℕ → Chk ℕ}
    (hf : ∀ {head tail c : ℕ}, head < c → tail < c → c < 2 ^ 64 → ∃ n, f head tail c = pure n) :
    Safe RingInv (role t) K
      (do
        let (head, c) ← Prog.load .head fun b => (b.head, b.capacity)
        let tail ← Prog.load .tail (·.tail)
        let _ ← Prog.ofChk (f head tail c)
        pure i) b := by
  refine Safe.load_bind (role_guar_load t _) fun b1 h1 i1 => ?_
  refine Safe.load_bind (role_guar_load t _) fun b2 h2 i2 => ?_
  have hc := role_rely_capacity t h2
  obtain ⟨n, hn⟩ := hf i1.head_lt (hc ▸ i2.tail_lt) i1.lt_word
  rw [hn, Prog.ofChk_pure, Prog.ret_bind]
  exact fun b3 h3 _ => hK _ _ _ (hK _ _ _ (hK _ _ _ hk h1) h2) h3

theorem size_safe {t : Side} (hK : Stable (role t).rely K) {i : ι} {b : Ringbuf} (hk : K i b) :
    Safe RingInv (role t) K (do let _ ← size; pure i) b :=
  query_safe hK hk fun hh ht hc => ⟨_, getWrittenNum_eq hh ht hc⟩

theorem freeNum_safe {t : Side} (hK : Stable (role t).rely K) {i : ι} {b : Ringbuf} (hk : K i b) :
    Safe RingInv (role t) K (do let _ ← freeNum; pure i) b :=
  query_safe hK hk fun hh ht hc => ⟨_, getFreeNum_eq hh ht hc⟩

variable {α : Type} {p : RingProg α} {f : α → ι} {Q : α → Ringbuf → Prop} {b : Ringbuf}

/-- What a writer's call leaves behind still holds when its answer is returned. -/
theorem writer_return (hK : Stable ReaderStep K) (N : ℕ) (hb : RingInv b)
    (h : Safe RingInv (writerRole N) Q p b) (hQ : ∀ a b', Q a b' → K (f a) b') :
    Safe RingInv (role .writer) K (p >>= fun a => pure (f a)) b := by
  have hw : Safe RingInv (role .writer) Q p b :=
    h.weaken (fun _ _ hr => hr) (fun _ _ _ hg => hg.1) (fun _ _ _ => trivial) id
  exact Safe.bind hb (hw.mono fun a b' _ hq => fun _ hr _ => hK _ _ _ (hQ a b' hq) hr)

/-- What a reader's call leaves behind still holds when its answer is returned. -/
theorem reader_return (hK : Stable WriterStep K) (N : ℕ) (hb : RingInv b)
    (h : Safe RingInv (readerRole N) Q p b) (hQ : ∀ a b', RingInv b' → Q a b' → K (f a) b') :
    Safe RingInv (role .reader) K (p >>= fun a => pure (f a)) b := by
  have hw : Safe RingInv (role .reader) Q p b :=
    h.weaken (fun _ _ hr => hr) (fun _ _ _ hg => hg.1) (fun _ _ _ => trivial) id
  exact Safe.bind hb (hw.mono fun a b' hI hq => fun _ hr _ => hK _ _ _ (hQ a b' hI hq) hr)

end Return

theorem writerClient_safe {told : ℕ} {x : WriterCall} {b : Ringbuf} (hb : RingInv b)
    (hk : Known .writer told b) (he : writerClient.enabled told x b) :
    Safe RingInv (role .writer) (Known .writer) (writerClient.body told x) b := by
  have offered : ∀ {off n : ℕ} {b' : Ringbuf}, Offered off n b' → Known .writer n b' := by
    rintro off n b' ho
    obtain rfl := ho.off
    exact .inr ho
  cases x with
  | writeOff => exact writer_return Known.stable 0 hb (writeOffAtLeast_safe hb 1) fun _ _ h => offered h.1
  | writeOffNowrap => exact writer_return Known.stable 0 hb (writeOffNowrap_safe hb) fun _ _ h => offered h.1
  | acquire req => exact writer_return Known.stable 0 hb (writeOffAtLeast_safe hb req) fun _ _ h => offered h.1
  | acquireNowrap req =>
    exact writer_return Known.stable 0 hb (acquireNowrap_safe hb req) fun _ _ h => offered h.1
  | writeFinish m =>
    obtain ⟨h0, hm, hc⟩ := he
    have ho : Offered b.head told b := hk.resolve_left (by omega)
    exact writer_return Known.stable _ hb (writeFinish_safe ho h0 hm hc le_rfl) fun _ _ _ => .inl rfl
  | size => exact size_safe Known.stable hk
  | freeNum => exact freeNum_safe Known.stable hk

theorem readerClient_safe {told : ℕ} {x : ReaderCall} {b : Ringbuf} (hb : RingInv b)
    (hk : Known .reader told b) (he : readerClient.enabled told x b) :
    Safe RingInv (role .reader) (Known .reader) (readerClient.body told x) b := by
  have hk : Avail b told := hk
  cases x with
  | readOffNowrap => exact reader_return Known.stable 0 hb (readNum_safe hb hk _) fun _ _ _ h => h.1.avail
  | readAcquire req => exact reader_return Known.stable 0 hb (readNum_safe hb hk _) fun _ _ _ h => h.1.avail
  | peek req => exact reader_return Known.stable 0 hb (peek_safe req hb hk) fun _ _ _ h => h.1.avail
  | consume m =>
    -- after a consume the reader has been told of nothing, and nothing is always there
    obtain ⟨h0, hm, hc⟩ := he
    exact reader_return Known.stable _ hb (consume_safe hk h0 hm hc le_rfl) fun _ _ i _ => i.avail_zero
  | consumeUpto m =>
    obtain ⟨hm, hc⟩ := he
    exact reader_return Known.stable _ hb (consumeUpto_safe hb hk hm hc le_rfl) fun _ _ i _ => i.avail_zero
  | size => exact size_safe Known.stable hk
  | freeNum => exact freeNum_safe Known.stable hk

/-! ### Runs -/

/-- Every configuration of every run: the ring invariant, the capacity, and each side's safety. -/
theorem reach_inv {c : ℕ} (hc : (init c).ok = true) {cfg : RingCfg}
    (h : Reach clients (start c) cfg) :
    (RingInv cfg.mem ∧ cfg.mem.capacity = c) ∧
      ∀ t, Safe (fun b => RingInv b ∧ b.capacity = c) (role t) (Known t) (cfg.prog t) cfg.mem := by
  have keep : ∀ t l b b', RingInv b → b.capacity = c → (role t).guar l b b' → b'.capacity = c :=
    fun t l b b' _ hb hg => (role_guar_capacity t hg).trans hb
  refine reach_safe (I := fun b => RingInv b ∧ b.capacity = c) (Q := Known) (ρ := role)
    ?_ ?_ ?_ (init_inv hc) ?_ h
  · intro t _ _ _
    cases t <;> trivial
  · -- what one side guarantees is what the other relies on
    intro t u htu l s s' _ _ hg
    cases t <;> cases u <;> first | exact absurd rfl htu | exact hg
  · intro t told x b hI hk he
    cases t with
    | writer => exact (writerClient_safe hI.1 hk he).with_inv (keep .writer)
    | reader => exact (readerClient_safe hI.1 hk he).with_inv (keep .reader)
  · intro t b' hr hI
    cases t with
    | writer => exact .inl rfl
    | reader => exact hI.1.avail_zero

/-- The ring invariant over all operations. For every capacity `init` accepts and every interleaving
    there are counters behind the four indices; the reader is never told of more items than there
    are nor the writer of more free slots, and no thread ever stands at a failed check — an
    operation that wrapped, or an assertion. -/
theorem ring_counters {c : ℕ} (hc : (init c).ok = true) {cfg : RingCfg}
    (h : Reach clients (start c) cfg) :
    (∃ R SH W ST, R ≤ SH ∧ SH ≤ W ∧ ST ≤ R ∧ W - ST ≤ c - 1 ∧
      W = cfg.mem.written ∧ R = cfg.mem.consumed ∧
      cfg.mem.head = W % c ∧ cfg.mem.tail = R % c ∧
      cfg.mem.seenHead = SH % c ∧ cfg.mem.seenTail = ST % c) ∧
    (∀ told, cfg.prog .reader = .ret told → told ≤ cfg.mem.written - cfg.mem.consumed) ∧
    (∀ told, cfg.prog .writer = .ret told →
      told ≤ c - 1 - (cfg.mem.written - cfg.mem.consumed)) ∧
    ∀ t, (cfg.prog t).faulty = false := by
  obtain ⟨⟨hI, hcap⟩, hs⟩ := reach_inv hc h
  refine ⟨?_, fun told hp => ?_, fun told hp => ?_, fun t => (hs t).not_faulty (by cases t <;> exact id)⟩
  · obtain ⟨st, hst⟩ := hI.writer
    obtain ⟨sh, hsh⟩ := hI.reader
    have hlt := hst.lt
    rw [hcap] at hlt
    refine ⟨_, sh, _, st, hsh.ge, hsh.le, hst.le, by omega, rfl, rfl, ?_, ?_, ?_, ?_⟩
    · rw [hI.base.head, hcap]
    · rw [hI.base.tail, hcap]
    · rw [hsh.seen, hcap]
    · rw [hst.seen, hcap]
  · have hk : Avail cfg.mem told := (hs .reader).at_ret ⟨hI, hcap⟩ hp
    exact hk.le_items
  · have hk : Known .writer told cfg.mem := (hs .writer).at_ret ⟨hI, hcap⟩ hp
    rcases hk with rfl | ho
    · exact Nat.zero_le _
    · rw [← hcap]; exact ho.room.le_free hI

/-- A run that turns the ring of three slots: two items written and consumed, one more written. -/
theorem ring_counters_turn : ∃ cfg : RingCfg, Reach clients (start 3) cfg ∧
    cfg.mem.written = 3 ∧ cfg.mem.head = 0 ∧ cfg.mem.tail = 2 ∧
    (∃ R SH W ST, R ≤ SH ∧ SH ≤ W ∧ ST ≤ R ∧ W - ST ≤ 3 - 1 ∧
      W = cfg.mem.written ∧ R = cfg.mem.consumed ∧
      cfg.mem.head = W % 3 ∧ cfg.mem.tail = R % 3 ∧
      cfg.mem.seenHead = SH % 3 ∧ cfg.mem.seenTail = ST % 3) := by
  have h0 : Reach clients (start 3) (start 3) := .start
  have h1 := h0.call .writer (i := 0) .writeOff rfl trivial fun _ _ => trivial
  have h2 := h1.call .writer (i := 2) (.writeFinish 2) rfl ⟨by decide, by decide, by decide⟩
    fun _ _ => trivial
  have h3 := h2.call .reader (i := 0) .readOffNowrap rfl trivial fun _ _ => trivial
  have h4 := h3.call .reader (i := 2) (.consume 2) rfl ⟨by decide, by decide, by decide⟩
    fun _ _ => trivial
  have h5 := h4.call .writer (i := 0) .writeOffNowrap rfl trivial fun _ _ => trivial
  have h6 := h5.call .writer (i := 2) (.writeFinish 1) rfl ⟨by decide, by decide, by decide⟩
    fun _ _ => trivial
  exact ⟨_, h6, rfl, rfl, rfl, (ring_counters (by decide) h6).1⟩

end Ringbuf

end Vamos
