import Mathlib.Tactic
import VamosBuffers.Schemes.Operations
import VamosBuffers.Shmbuf.BufferAux

/-! Which ids does the table of dropped ranges cover? `vms_shm_buffer_notify_dropped` puts a report
    into the next of five places, or extends the range in the current place:

        begin = b            the report continues the range:  end := e
        end = begin - 1      the range is empty:              end := e, but begin stays

    The end of a stream reports an empty range when one event was dropped there, so the second case
    occurs; the range then reaches from the old begin on, whatever was reported in between. -/

namespace Vamos
open Schemes

/-- The shared fields, and every pair that was reported so far. -/
structure Reports where
  info : ShmInfo
  reported : List DroppedRange
  deriving DecidableEq, Repr

namespace Reports

def fresh : Reports := ⟨.fresh, []⟩

/-- A call of `vms_shm_buffer_notify_dropped`. -/
def notify (s : Reports) (r : DroppedRange) : Reports :=
  ⟨s.info.notifyDropped r.first r.last, s.reported ++ [r]⟩

/-- The range in the current place. -/
def current (s : Reports) : DroppedRange :=
  s.info.droppedRanges.getD s.info.droppedRangesNext ⟨0, 0⟩

/-- What the callers report: at least one event, or none. -/
def Reportable (_ : Reports) (r : DroppedRange) : Prop :=
  1 ≤ r.first ∧ r.first < 2 ^ 64 ∧ r.first ≤ r.last + 1 ∧ r.last < 2 ^ 64

instance (s : Reports) (r : DroppedRange) : Decidable (Reportable s r) :=
  inferInstanceAs (Decidable (_ ∧ _))

/-- The id lies in a pair that was reported. -/
def Reported (x : ℕ) (s : Reports) : Prop := ∃ r ∈ s.reported, r.first ≤ x ∧ x ≤ r.last

/-- Every id that a used place covers was reported. -/
def NothingExtra (s : Reports) : Prop :=
  ∀ r ∈ s.info.droppedRanges, r.last ≠ 0 → ∀ x, r.first ≤ x → x ≤ r.last → Reported x s

/-- If the range in the current place is empty, then every id from its begin up to the new report
    has been reported already. -/
def NoGap (s : Reports) (r : DroppedRange) : Prop :=
  s.current.last + 1 = s.current.first → ∀ x, s.current.first ≤ x → x < r.first → Reported x s

/-- The table has its five places, and a place that was used does not begin at 0. -/
structure TableOk (s : Reports) : Prop where
  length : s.info.droppedRanges.length = ShmInfo.droppedRangesNum
  next : s.info.droppedRangesNext < ShmInfo.droppedRangesNum
  used : ∀ r ∈ s.info.droppedRanges, r = ⟨0, 0⟩ ∨ 1 ≤ r.first ∧ r.first < 2 ^ 64

theorem fresh_ok : TableOk fresh :=
  ⟨rfl, by decide, fun _ hr => .inl (List.eq_of_mem_replicate hr)⟩

theorem fresh_nothingExtra : NothingExtra fresh := by
  intro r hr h0
  obtain rfl := List.eq_of_mem_replicate hr
  exact absurd rfl h0

variable {s : Reports} {r : DroppedRange}

theorem TableOk.current_used (h : TableOk s) :
    s.current = ⟨0, 0⟩ ∨ 1 ≤ s.current.first ∧ s.current.first < 2 ^ 64 := by
  have hlt : s.info.droppedRangesNext < s.info.droppedRanges.length := h.length ▸ h.next
  unfold current
  rw [List.getD_eq_getElem?_getD, List.getElem?_eq_getElem hlt]
  exact h.used _ (List.getElem_mem hlt)

/-- `r->end == r->begin - 1` says that the range is empty. -/
theorem TableOk.empty_iff (h : TableOk s) :
    s.current.last = (s.current.first + (2 ^ 64 - 1)) % 2 ^ 64 ↔
      s.current.last + 1 = s.current.first := by
  rcases h.current_used with h0 | ⟨h1, h2⟩
  · rw [h0]; decide
  · omega

/-- What a call can do: extend the range in the current place, or fill the next one. -/
theorem notify_cases (h : TableOk s) :
    ((s.current.first = r.first ∨ s.current.last + 1 = s.current.first) ∧
      (s.notify r).info.droppedRanges =
        s.info.droppedRanges.set s.info.droppedRangesNext { s.current with last := r.last } ∧
      (s.notify r).info.droppedRangesNext = s.info.droppedRangesNext) ∨
    (s.current.last + 1 ≠ s.current.first ∧ ∃ next < ShmInfo.droppedRangesNum,
      (s.notify r).info.droppedRanges = s.info.droppedRanges.set next r ∧
      (s.notify r).info.droppedRangesNext = next) := by
  have hcond : s.current.first = r.first ∨
      s.current.last = (s.current.first + (2 ^ 64 - 1)) % 2 ^ 64 ↔
      s.current.first = r.first ∨ s.current.last + 1 = s.current.first := or_congr_right h.empty_iff
  unfold notify ShmInfo.notifyDropped
  by_cases hc : s.current.first = r.first ∨ s.current.last + 1 = s.current.first
  · have hc' := hcond.mpr hc
    unfold current at hc'
    rw [if_pos hc']
    exact .inl ⟨hc, rfl, rfl⟩
  · have hc' := fun h' => hc (hcond.mp h')
    unfold current at hc'
    rw [if_neg hc']
    refine .inr ⟨fun he => hc (.inr he), _, ?_, rfl, rfl⟩
    have hn := h.next
    unfold ShmInfo.droppedRangesNum at *
    split <;> omega

theorem TableOk.notify (h : TableOk s) (hr : Reportable s r) : TableOk (s.notify r) := by
  have hnew : ∀ {i : ℕ} {y x : DroppedRange}, y = ⟨0, 0⟩ ∨ 1 ≤ y.first ∧ y.first < 2 ^ 64 →
      x ∈ s.info.droppedRanges.set i y → x = ⟨0, 0⟩ ∨ 1 ≤ x.first ∧ x.first < 2 ^ 64 := by
    intro i y x hy hx
    rcases List.mem_or_eq_of_mem_set hx with hx | rfl
    · exact h.used x hx
    · exact hy
  rcases notify_cases (r := r) h with ⟨hc, hd, hn⟩ | ⟨-, next, hlt, hd, hn⟩
  · refine ⟨by rw [hd, List.length_set]; exact h.length, by rw [hn]; exact h.next, fun x hx => ?_⟩
    rw [hd] at hx
    refine hnew (.inr ?_) hx
    -- the place was used: an unused one neither begins at `b` nor is it empty
    rcases h.current_used with h0 | h1
    · rw [h0] at hc
      obtain hc | hc := hc
      · have := hr.1
        rw [← hc] at this
        exact absurd this (by decide)
      · exact absurd hc (by decide)
    · exact h1
  · refine ⟨by rw [hd, List.length_set]; exact h.length, by rw [hn]; exact hlt, fun x hx => ?_⟩
    rw [hd] at hx
    exact hnew (.inr ⟨hr.1, hr.2.1⟩) hx

theorem Reported.notify {x : ℕ} (h : Reported x s) : Reported x (s.notify r) := by
  obtain ⟨y, hy, hx⟩ := h
  exact ⟨y, List.mem_append_left _ hy, hx⟩

theorem reported_notify {x : ℕ} (h1 : r.first ≤ x) (h2 : x ≤ r.last) : Reported x (s.notify r) :=
  ⟨r, List.mem_append_right _ (List.mem_singleton_self r), h1, h2⟩

/-- An id below the report was reported before or not at all. -/
theorem Reported.before {x : ℕ} (h : Reported x (s.notify r)) (hx : x < r.first) : Reported x s := by
  obtain ⟨y, hy, h1, h2⟩ := h
  rcases List.mem_append.mp hy with hy | hy
  · exact ⟨y, hy, h1, h2⟩
  · obtain rfl := List.mem_singleton.mp hy
    omega

/-- The table covers nothing extra if the place that changed does not. -/
theorem NothingExtra.set (h : NothingExtra s) {i : ℕ} {y : DroppedRange}
    (hd : (s.notify r).info.droppedRanges = s.info.droppedRanges.set i y)
    (hy : ∀ x, y.first ≤ x → x ≤ y.last → Reported x (s.notify r)) : NothingExtra (s.notify r) := by
  intro z hz h0 x h1 h2
  rw [hd] at hz
  rcases List.mem_or_eq_of_mem_set hz with hz | rfl
  · exact (h z hz h0 x h1 h2).notify
  · exact hy x h1 h2

/-- One report: the table covers nothing extra afterwards if and only if the report leaves no gap. -/
theorem notify_nothingExtra_iff (h : TableOk s) (hr : Reportable s r) (hs : NothingExtra s) :
    NothingExtra (s.notify r) ↔ NoGap s r := by
  obtain ⟨hr1, -, hr3, -⟩ := hr
  rcases notify_cases (r := r) h with ⟨hc, hd, -⟩ | ⟨hc, next, -, hd, -⟩
  · constructor
    · intro hn he x h1 h2
      have hpos : 1 ≤ s.current.first := by omega
      have hlt : s.info.droppedRangesNext < s.info.droppedRanges.length := h.length ▸ h.next
      have hmem : { s.current with last := r.last } ∈ (s.notify r).info.droppedRanges := by
        rw [hd]; exact List.mem_set hlt _
      have hrep : Reported x (s.notify r) :=
        hn _ hmem (show r.last ≠ 0 by omega) x h1 (show x ≤ r.last by omega)
      exact hrep.before h2
    · intro hg
      refine hs.set hd fun x h1 h2 => ?_
      rcases Nat.lt_or_ge x r.first with hx | hx
      · rcases hc with hc | hc
        · have h1 : s.current.first ≤ x := h1
          omega
        · exact (hg hc x h1 hx).notify
      · exact reported_notify hx h2
  · exact ⟨fun _ he => absurd he hc, fun _ => hs.set hd fun x => reported_notify⟩

/-- In every sequence of reports, with empty ones among them: the table covers only reported ids
    throughout if and only if no report leaves a gap. -/
theorem over_reports_nothing_iff (rs : List DroppedRange) (hrs : Meets notify Reportable fresh rs) :
    Always notify NothingExtra fresh rs ↔ Meets notify NoGap fresh rs :=
  always_iff_meets (J := TableOk) (A := Reportable) (fun _ _ => TableOk.notify)
    (fun _ _ => notify_nothingExtra_iff) fresh_ok fresh_nothingExtra hrs

/-- A range, an empty one, and a range that goes on where the empty one is. -/
theorem over_reports_nothing_three : Meets notify Reportable fresh [⟨1, 5⟩, ⟨7, 6⟩, ⟨7, 9⟩] ∧
    Always notify NothingExtra fresh [⟨1, 5⟩, ⟨7, 6⟩, ⟨7, 9⟩] := by
  have hrs : Meets notify Reportable fresh [⟨1, 5⟩, ⟨7, 6⟩, ⟨7, 9⟩] := by decide
  refine ⟨hrs, (over_reports_nothing_iff _ hrs).mpr ⟨nofun, nofun, ?_, trivial⟩⟩
  intro _ x (h1 : 7 ≤ x) (h2 : x < 7)
  omega

/-- After an empty report for 5, the report of 8 and 9 covers 5, 6 and 7 as well. -/
theorem over_reports_five : Meets notify Reportable fresh [⟨5, 4⟩, ⟨8, 9⟩] ∧
    ⟨5, 9⟩ ∈ (([⟨5, 4⟩, ⟨8, 9⟩] : List DroppedRange).foldl notify fresh).info.droppedRanges ∧
    ¬ Always notify NothingExtra fresh [⟨5, 4⟩, ⟨8, 9⟩] := by
  have hmem : (⟨5, 9⟩ : DroppedRange) ∈
      (([⟨5, 4⟩, ⟨8, 9⟩] : List DroppedRange).foldl notify fresh).info.droppedRanges := by decide
  refine ⟨by decide, hmem, fun h => ?_⟩
  obtain ⟨r, hr, h1, h2⟩ := h.last _ hmem (by decide) 5 le_rfl (by decide)
  revert h1 h2
  fin_cases hr <;> decide

end Reports

end Vamos
