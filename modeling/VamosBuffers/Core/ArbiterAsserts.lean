import Mathlib.Tactic
import VamosBuffers.Core.ArbiterDrops

/-! The assertions in the binary search of `drop_older_than`. The search runs over one of the two
    segments that `peek` shows:

        first     e₀ … e_{m-1}        searched if id ≤ the id of e_{m-1}
        second    e_m … e_{n-1}       searched otherwise, if there is one

    With two events or more, `bot < top` holds at the head of the loop, and every assertion follows
    from the window of the search. With a single one `bot = pivot = top = 0`, and one of
    `assert(top == 1)` and `assert(top == bot + 1)` fails. The order of the ids plays no part in
    it. -/

namespace Vamos
open Schemes

namespace Queue

/-- The elements up to the end of the ring. -/
def firstSegment {ε : Type} (q : Queue ε) : List ε := q.content.take (q.ring.capacity - q.ring.tail)

/-- The elements that have wrapped. -/
def secondSegment {ε : Type} (q : Queue ε) : List ε :=
  q.content.drop (q.ring.capacity - q.ring.tail)

/-- The segment that the binary search for `id` runs over; nothing, where it is not needed. -/
def searchedSegment (id : ℕ) (q : Queue Event) : List Event :=
  if q.firstSegment.getLast?.any fun e => decide (id ≤ e.id) then q.firstSegment else q.secondSegment

/-! ### One look -/

section Search

variable {id events len bot top : ℕ} {q : Queue Event}

/-- The id that the search sees at index `i`. -/
def idAt (events : ℕ) (q : Queue Event) (i : ℕ) : ℕ := (q.data (events + i * q.elemSize)).id

/-- The load alone reads one slot, and its arithmetic does not wrap. -/
theorem eventAt_run {i : ℕ} (h : events + i * q.elemSize < 2 ^ 64) :
    (eventAt events q.elemSize i).run q = (q.data (events + i * q.elemSize), q) ∧
      (eventAt events q.elemSize i).runOk q = true := by
  unfold eventAt
  rw [Chk.mul_eq (by omega), Prog.ofChk_pure, Prog.ret_bind, Chk.add_eq h, Prog.ofChk_pure,
    Prog.ret_bind]
  exact ⟨rfl, rfl⟩

/-- With `bot < top` the assertions about the ends hold. -/
theorem Window.narrow_ok {ids : ℕ → ℕ} (h : Window id ids len bot top) (hlt : bot < top)
    (hlen : len < 2 ^ 64) :
    (Queue.narrow id (ids ((bot + top) / 2)) bot top ((bot + top) / 2)).ok = true := by
  have hin := h.inside
  have hprobe := h.probe hlt
  generalize hpv : (bot + top) / 2 = pivot
  unfold Queue.narrow
  by_cases hid : id < ids pivot
  · rw [if_pos hid]
    by_cases h0 : pivot = 0
    · rw [if_pos h0, Chk.require_eq (by omega), Chk.require_eq (by omega)]
      rfl
    · rw [if_neg h0, Chk.sub_eq (by omega) (by omega)]
      rfl
  · rw [if_neg hid]
    by_cases hbp : bot = pivot
    · rw [if_pos hbp, Chk.require_eq (by omega)]
      rfl
    · rw [if_neg hbp]
      rfl

/-- With a single event one of them fails. -/
theorem narrow_single (id evId : ℕ) : (narrow id evId 0 0 0).ok = false := by
  unfold narrow
  by_cases hid : id < evId
  · rw [if_pos hid, if_pos rfl]
    rfl
  · rw [if_neg hid, if_pos rfl]
    rfl

/-! ### The loop -/

/-- One turn of the search over the `len` events from `events` on. -/
theorem searchTurn_run (skip : ℕ) (hw : Window id (idAt events q) len bot top)
    (hlt : bot < top) (hlen : len + len < 2 ^ 64) (hp : ∀ i < len, events + i * q.elemSize < 2 ^ 64) :
    (searchTurn id events q.elemSize skip bot top).runOk q = true ∧
      ∃ r, (searchTurn id events q.elemSize skip bot top).run q = (r, q) ∧
        (∀ k, r = .inl k → k ≤ skip + len) ∧
        ∀ b t, r = .inr (b, t) → Window id (idAt events q) len b t ∧ b < t ∧ t - b < top - bot := by
  have hin := hw.inside
  obtain ⟨hrun, hok⟩ := eventAt_run (hp ((bot + top) / 2) (by omega))
  obtain ⟨hw', hspan⟩ := hw.narrow (.inr hlt) (by omega)
  have hchk := hw.narrow_ok hlt (by omega)
  unfold searchTurn
  rw [Chk.require_eq hw.order, Prog.ofChk_pure, Prog.ret_bind, Chk.add_eq (by omega),
    Prog.ofChk_pure, Prog.ret_bind, Prog.runOk_bind, Prog.run_bind, hrun, hok, Bool.true_and]
  dsimp only
  rw [Prog.runOk_bind, Prog.run_bind, Prog.runOk_ofChk, Prog.run_ofChk]
  have hid : (q.data (events + (bot + top) / 2 * q.elemSize)).id =
      idAt events q ((bot + top) / 2) := rfl
  rw [hid]
  generalize Queue.narrow id (idAt events q ((bot + top) / 2)) bot top ((bot + top) / 2) = c
    at hchk hw' hspan ⊢
  obtain ⟨⟨b, t⟩, ok⟩ := c
  dsimp only at hchk hw' hspan ⊢
  rw [hchk, Bool.true_and, Chk.require_eq hw'.order, Prog.ofChk_pure, Prog.ret_bind]
  by_cases htb : t = b
  · obtain ⟨hrun', hok'⟩ := eventAt_run (hp t hw'.inside)
    rw [if_pos htb, Prog.runOk_bind, Prog.run_bind, hrun', hok', Bool.true_and]
    dsimp only
    have hin' := hw'.inside
    split
    · exact ⟨rfl, _, rfl, fun k hk => by cases hk; omega, nofun⟩
    · exact ⟨rfl, _, rfl, fun k hk => by cases hk; omega, nofun⟩
  · have ho := hw'.order
    rw [if_neg htb]
    refine ⟨rfl, _, rfl, nofun, fun b' t' h => ?_⟩
    cases h
    exact ⟨hw', by omega, hspan htb⟩

/-- A search that begins with `bot < top` passes all its assertions. -/
theorem searchOlder_run (skip : ℕ) {steps : ℕ} (hw : Window id (idAt events q) len bot top)
    (hlt : bot < top) (hlen : len + len < 2 ^ 64)
    (hp : ∀ i < len, events + i * q.elemSize < 2 ^ 64) (hsteps : top - bot < steps) :
    (searchOlder id events q.elemSize skip steps bot top).runOk q = true ∧
      ∃ k ≤ skip + len, (searchOlder id events q.elemSize skip steps bot top).run q = (k, q) := by
  -- by induction on the steps: the window gets smaller in each
  induction steps generalizing bot top with
  | zero => omega
  | succ steps ih =>
    obtain ⟨hok, r, hrun, hfound, hgo⟩ := searchTurn_run skip hw hlt hlen hp
    rw [searchOlder_succ, Prog.runOk_bind, Prog.run_bind, hok, hrun, Bool.true_and]
    cases r with
    | inl k => exact ⟨rfl, k, hfound k rfl, rfl⟩
    | inr r =>
      obtain ⟨b, t⟩ := r
      obtain ⟨hw', hlt', hspan⟩ := hgo b t rfl
      exact ih hw' hlt' (by omega)

/-- A search that begins with `bot = top` passes not even the first turn. -/
theorem searchOlder_single (id skip steps : ℕ) (hp : events + 0 * q.elemSize < 2 ^ 64) :
    (searchOlder id events q.elemSize skip steps 0 0).runOk q = false := by
  cases steps with
  | zero => rfl
  | succ steps =>
    obtain ⟨hrun, hok⟩ := eventAt_run hp
    have hfail := narrow_single id (q.data (events + 0 * q.elemSize)).id
    rw [searchOlder_succ, Prog.runOk_bind, searchTurn, Chk.require_eq le_rfl, Prog.ofChk_pure,
      Prog.ret_bind, Chk.add_eq (by omega), Prog.ofChk_pure, Prog.ret_bind, Nat.zero_div,
      Prog.runOk_bind, hrun, hok, Prog.runOk_bind, Prog.runOk_ofChk, hfail]
    rfl

/-- The search of a segment, and `assert(k <= n)` after it. -/
theorem search_runOk {skip n : ℕ} (h0 : 0 < len) (hn : skip + len ≤ n) (hlen : len + len < 2 ^ 64)
    (hp : ∀ i < len, events + i * q.elemSize < 2 ^ 64) :
    (do let k ← searchOlder id events q.elemSize skip n 0 (len - 1)
        Prog.ofChk (Chk.require (k ≤ n))
        pure k : QueueProg Event ℕ).runOk q = true ↔ len ≠ 1 := by
  by_cases h1 : len = 1
  · subst h1
    rw [Prog.runOk_bind, searchOlder_single id skip n (hp 0 h0)]
    simp
  · have hw : Window id (idAt events q) len 0 (len - 1) := .all h0
    obtain ⟨hok, k, hk, hrun⟩ := searchOlder_run skip hw (by omega) hlen hp
      (show len - 1 - 0 < n by omega)
    rw [Prog.runOk_bind, hok, hrun, Bool.true_and, Chk.require_eq (by omega), Prog.ofChk_pure,
      Prog.ret_bind]
    exact iff_of_true rfl h1

end Search

/-! ### The segments -/

section Segments

variable {id : ℕ} {q : Queue Event}

/-- `peek` shows the two segments, the first of them from `p` on. -/
structure ShowsSegments (q : Queue Event) (p : ℕ) : Prop where
  nonempty : 0 < q.firstSegment.length
  first : ∀ i < q.firstSegment.length, q.SlotAt i (p + i * q.elemSize)
  second : ∀ i < q.secondSegment.length,
    q.SlotAt (q.firstSegment.length + i) (i * q.elemSize)

theorem segments_length (q : Queue Event) :
    q.firstSegment.length + q.secondSegment.length = q.content.length := by
  rw [firstSegment, secondSegment, ← List.length_append, List.take_append_drop]

/-- The runs that `peek` tells of are as long as the segments. -/
theorem Lies.segments {p len1 len2 : ℕ} (hq : QueueInv q)
    (h : Lies p len1 len2 q.content.length q) :
    len1 = q.firstSegment.length ∧ len2 = q.secondSegment.length := by
  obtain ⟨hsum, hpos, hfits, hwrap⟩ := h.runs
  have htail := hq.ring.base.tail
  have hcap := hq.slots
  rw [hcap] at htail
  rw [firstSegment, secondSegment, List.length_take, List.length_drop, htail, hcap]
  rcases Nat.eq_zero_or_pos len2 with h2 | h2
  · omega
  · have := (hwrap h2).1
    omega

/-- `peek`, run alone: it passes its checks, and shows the segments if there is anything. -/
theorem peek_segments (hq : QueueInv q) : (peek 0).runOk q = true ∧
    ∃ r q', (peek 0).run q = ((q.content.length, r), q') ∧ q'.elemSize = q.elemSize ∧
      q'.data = q.data ∧ (r = none → q.content = []) ∧
      ∀ p len1 len2, r = some (p, len1, len2) → ShowsSegments q p ∧
        len1 = q.firstSegment.length ∧ len2 = q.secondSegment.length := by
  have hs := peek_safe (N := 0) 0 hq hq.ring.avail_zero
  refine ⟨hs.runOk (fun _ _ => trivial) id hq, ?_⟩
  have hun := asks_untouched hq hs
  have hpk := (peek_run hq 0).1
  obtain ⟨hi, ⟨hrs, -, hall, hnone, hsome⟩, hm, hc⟩ :=
    asks_run hq (fun _ _ => trivial) (fun _ _ _ hg => hg) hs
  generalize (peek 0).run q = r at hun hpk hi hrs hall hnone hsome hm hc ⊢
  obtain ⟨⟨n, r⟩, q'⟩ := r
  dsimp only at hun hi hrs hall hnone hsome hm hc ⊢
  have hle := hrs.avail.le_items
  have hw : q'.ring.written = q.ring.written := hm.ring.written
  have hlen := hq.content_length
  have hmax := hi.lt_all hrs.avail
  have hn : n = q.content.length := by
    have := hall.resolve_left fun h => h.1 rfl
    omega
  refine ⟨r, q', by rw [hn], hrs.elemSize, hun.data, ?_, ?_⟩
  · rintro rfl
    exact hpk.2
  · rintro p len1 len2 rfl
    have hl := (hsome p len1 len2 rfl).congr hm.capacity.symm hm.elemSize.symm hc.symm
    rw [if_pos rfl, min_eq_right hmax.le, hn] at hl
    obtain ⟨rfl, rfl⟩ := hl.segments hq
    have hslots := hl.slots hq (by omega)
    exact ⟨⟨hl.runs.pos, hslots.1, hslots.2⟩, rfl, rfl⟩

/-- The last event of the first segment says which one is searched. -/
theorem ShowsSegments.searched {p : ℕ} (h : ShowsSegments q p) (id : ℕ) :
    q.searchedSegment id =
      if id ≤ (q.data (p + (q.firstSegment.length - 1) * q.elemSize)).id then q.firstSegment
      else q.secondSegment := by
  have hpos := h.nonempty
  obtain ⟨-, -, e, he, hdata⟩ := h.first (q.firstSegment.length - 1) (by omega)
  have hle : q.firstSegment.length ≤ q.ring.capacity - q.ring.tail := List.length_take_le _ _
  have hlast : q.firstSegment.getLast? = some e := by
    rw [List.getLast?_eq_getElem?, ← he]
    exact List.getElem?_take_of_lt (by omega)
  have hdata : e = q.data (p + (q.firstSegment.length - 1) * q.elemSize) := hdata
  rw [searchedSegment, hlast, ← hdata]
  simp only [Option.any_some, decide_eq_true_eq]

/-- The slots of the segments are addressed without a wrap. -/
theorem SlotAt.lt {i p : ℕ} (h : q.SlotAt i p) (hq : QueueInv q) : p < 2 ^ 64 := by
  have h1 := h.inside
  have h2 := hq.fits
  have h3 := hq.pos
  omega

/-- The search for `k`, run alone. -/
theorem olderNum_runOk (hq : QueueInv q) (hsize : 2 ≤ q.elemSize) (id : ℕ) :
    (olderNum id).runOk q = true ↔ (q.searchedSegment id).length ≠ 1 := by
  obtain ⟨hok, r, q', hrun, hes, hdata, hnone, hsome⟩ := peek_segments hq
  have hsum := segments_length q
  have hword := hq.add_lt hsize (hq.content_length ▸ hq.items_le)
  rw [olderNum, olderNumBy, Prog.runOk_bind, hok, hrun, Bool.true_and]
  cases r with
  | none =>
    have hnil : q.searchedSegment id = [] := by
      rw [searchedSegment, firstSegment, secondSegment, hnone rfl]
      simp
    rw [hnil]
    exact iff_of_true rfl (by simp)
  | some r =>
    obtain ⟨p, len1, len2⟩ := r
    obtain ⟨hseg, rfl, rfl⟩ := hsome p len1 len2 rfl
    have hpos := hseg.nonempty
    have hfirst : ∀ i < q.firstSegment.length, p + i * q'.elemSize < 2 ^ 64 := fun i hi => by
      rw [hes]
      exact (hseg.first i hi).lt hq
    have hsecond : ∀ i < q.secondSegment.length, 0 + i * q'.elemSize < 2 ^ 64 := fun i hi => by
      rw [hes, Nat.zero_add]
      exact (hseg.second i hi).lt hq
    obtain ⟨hev, hevok⟩ := eventAt_run (hfirst (q.firstSegment.length - 1) (by omega))
    dsimp only
    rw [Prog.runOk_bind, Prog.runOk_load, Prog.run_load, Bool.true_and, Chk.require_eq hpos,
      Prog.ofChk_pure, Prog.ret_bind, Chk.sub_eq hpos (by omega), Prog.ofChk_pure, Prog.ret_bind,
      Prog.runOk_bind, hev, hevok, Bool.true_and, hseg.searched id, hdata, hes]
    dsimp only
    rw [← hes]
    by_cases hid : id ≤ (q.data (p + (q.firstSegment.length - 1) * q'.elemSize)).id
    · rw [if_pos hid, if_pos hid, if_pos rfl]
      exact search_runOk hpos (by omega) (by omega) hfirst
    · rw [if_neg hid, if_neg hid]
      by_cases h2 : 0 < q.secondSegment.length
      · rw [if_pos h2, Chk.sub_eq h2 (by omega), Prog.ofChk_pure, Prog.ret_bind]
        -- the first segment is counted or not
        exact search_runOk h2 (by split <;> omega) (by omega) hsecond
      · rw [if_neg h2]
        exact iff_of_true rfl (by omega)

end Segments


end Queue

namespace StreamMem

/-- The assertions of `drop_older_than`, run alone, hold up to the call of `drop`. -/
def SearchAsserts (id : ℕ) (m : StreamMem) : Prop := (onArb (Queue.olderNum id)).runOk m = true

theorem dropOlderThan_searchAsserts {id : ℕ} {m : StreamMem}
    (h : (dropOlderThan id).runOk m = true) : SearchAsserts id m := by
  rw [dropOlderThan, Prog.runOk_bind, Bool.and_eq_true] at h
  exact h.1

/-- They hold for every content, split and id, unless the search is for a segment of one event. -/
theorem searchAsserts_iff {m : StreamMem} (hq : Queue.QueueInv m.arb)
    (hsize : 16 ≤ m.arb.elemSize) (id : ℕ) :
    SearchAsserts id m ↔ (m.arb.searchedSegment id).length ≠ 1 := by
  rw [SearchAsserts, onArb, Prog.runOk_zoom]
  exact Queue.olderNum_runOk hq (by omega) id

/-- A small buffer into which two items were pushed. -/
def twoItems : StreamMem := ((onArb (Queue.push ⟨9, 2, 0⟩)).run oneItem).2

theorem searchAsserts_two : twoItems.arb.content = [⟨9, 1, 0⟩, ⟨9, 2, 0⟩] ∧
    SearchAsserts 1 twoItems := by
  have hq : Queue.QueueInv twoItems.arb := withItem_inv oneItem_inv (x := ⟨9, 2, 0⟩) (by decide)
  exact ⟨rfl, (searchAsserts_iff hq (by decide) 1).mpr (by decide)⟩

/-- One item with the id 1: `assert(top == 1)` fails for the id 0, and `assert(top == bot + 1)` for
    the id 1. -/
theorem not_searchAsserts_one : Queue.QueueInv oneItem.arb ∧ oneItem.arb.content = [⟨9, 1, 0⟩] ∧
    ¬ SearchAsserts 0 oneItem ∧ ¬ SearchAsserts 1 oneItem :=
  ⟨oneItem_inv, rfl, nofun, nofun⟩

end StreamMem

end Vamos
