import Mathlib.Tactic
import VamosBuffers.Core.ReportSteps

/-! Nothing is reclaimed too early. In every run of a stream, whatever the filters of the manager say
    and however many items the arbiter removes with `drop`:

        awaited      in the arbiter buffer, or behind the tail of the SHM ring

    an awaited event is younger than `last_processed_id` and lies in no dropped range of the table. An
    event is written to the arbiter buffer before it is consumed from the ring, so it may have been
    removed from the one while it is still in the other. -/

namespace Vamos
open Schemes

namespace StreamMem

/-- The arbiter has yet to see the event. -/
def Awaited (i : ℕ) (m : StreamMem) : Prop :=
  (∃ x ∈ m.arb.pushed.drop m.arb.ring.consumed, x.isHole = false ∧ x.id = i) ∨
    m.shm.ring.consumed < i ∧
      ∀ x ∈ m.arb.pushed.take m.arb.ring.consumed, x.isHole = false → x.id ≠ i

instance (i : ℕ) (m : StreamMem) : Decidable (Awaited i m) :=
  inferInstanceAs (Decidable ((∃ x ∈ _, _) ∨ _ ∧ ∀ x ∈ _, _ → _))

/-- The event is reported neither as processed nor as dropped. -/
def Unreported (i : ℕ) (m : StreamMem) : Prop :=
  m.info.lastProcessedId < i ∧
    ∀ r ∈ m.info.droppedRanges, r.last ≠ 0 → ¬ (r.first ≤ i ∧ i ≤ r.last)

section Inv

variable {i : ℕ} {m m' : StreamMem}

/-- A range that lies behind names no awaited event. -/
theorem Behind.not_awaited {r : DroppedRange} (h : Behind r m) (ha : Awaited i m) :
    ¬ (r.first ≤ i ∧ i ≤ r.last) := by
  rcases ha with ⟨x, hx, hn, rfl⟩ | ⟨hlt, -⟩
  · exact h.items x (List.drop_subset _ _ hx) hn
  · have := h.consumed
    omega

theorem ReportInv.unreported (h : ReportInv m) (ha : Awaited i m) : Unreported i m := by
  refine ⟨?_, fun r hr h0 => (h.2.table r hr h0).not_awaited ha⟩
  rcases h.2.processed with h0 | ⟨e, he, hle⟩
  · rw [h0]
    rcases ha with ⟨x, hx, hn, rfl⟩ | ⟨hlt, -⟩
    · exact (h.1.ahead x (List.drop_subset _ _ hx)).2.2 hn
    · omega
  · refine hle.trans_lt ?_
    rcases ha with ⟨x, hx, hn, rfl⟩ | ⟨hlt, hne⟩
    · exact h.1.lt_left he hx hn
    · -- the last event removed may be the one in hand, but no other behind the tail
      obtain ⟨h1, h2, -⟩ := h.1.ahead e (List.take_subset _ _ he)
      cases hx : e.isHole with
      | true => exact (h2 hx).trans_lt hlt
      | false =>
        have := hne e he hx
        omega

/-! ### The arbiter -/

theorem processor_removes : Removes ReportInv processorRole where
  queue _ h := ⟨h.1.arb, h.1.arbSize⟩
  rely _ _ h := h
  guar _ _ _ h hq hs := ⟨⟨⟨hs, rfl, rfl, rfl⟩, fun _ => rfl, rfl, le_rfl⟩,
    h.1.setArb hq hs.elemSize hs.capacity hs.pushed,
    h.2.mono le_rfl (.of_eq hs.pushed) hs.ring.consumed rfl⟩
  lenient := trivial

theorem LastRemoved.producer {e : Event} (h : LastRemoved e m)
    (hr : Queue.ProducerStep m.arb m'.arb) : LastRemoved e m' := by
  have hs : PusherStep m { m with arb := m'.arb } := ⟨hr, rfl⟩
  have hl : LastRemoved e { m with arb := m'.arb } := h.stable hs
  exact hl

/-- The id of the item removed last may be reported. -/
theorem processed_safe {e : Event} (hl : LastRemoved e m) :
    Safe ReportInv processorRole (fun _ _ => True) (setLastProcessedId e.id) m := by
  refine Safe.access_bind fun m1 h1 i1 => ⟨⟨.refl m1, fun _ => rfl, rfl, le_rfl⟩, i1, ?_⟩
  refine Safe.ofChk_bind trivial (Safe.access fun m2 h2 i2 => ?_)
  have hl2 := (hl.producer h1).producer h2
  have hmem : e ∈ m2.arb.pushed.take m2.arb.ring.consumed := by
    refine List.mem_iff_getElem?.mpr ⟨m2.arb.ring.consumed - 1, ?_⟩
    have h0 := hl2.1
    rw [List.getElem?_take_of_lt (by omega)]
    exact hl2.2
  have hle : m2.info.lastProcessedId ≤ e.id := by
    rcases i2.2.processed with h0 | ⟨a, ha, hle⟩
    · omega
    · exact hle.trans (i2.1.le_last hl2 ha)
  refine ⟨⟨⟨.refl _, rfl, rfl, rfl⟩, fun h => absurd rfl h, rfl, hle⟩, ⟨?_, ?_, ?_⟩,
    fun _ _ _ => trivial⟩
  · exact ⟨⟨i2.1.shm, i2.1.arb, i2.1.shmSize, i2.1.arbSize, i2.1.source, i2.1.few, i2.1.threshold⟩,
      i2.1.ordered, i2.1.ahead⟩
  · exact fun r hr h0 => (i2.2.table r hr h0).mono le_rfl (.of_eq rfl)
  · exact .inr ⟨e, hmem, le_rfl⟩

/-! ### Runs -/

/-- The reader of the arbiter buffer, calling `drop` only. -/
def dropReader : Client StreamMem StreamAcc Unit Removal where
  enabled _ x _ := match x with
    | .drop _ => True
    | .dropOlderThan _ => False
  body := readerClient.body

def reportClients : (t : Thread) → Client StreamMem StreamAcc (SpaceAt t) (SpaceCall t)
  | .source => sourceClient
  | .manager => stepClient False
  | .arbiter => dropReader

def reportRole : Thread → Role StreamMem StreamAcc
  | .source => supplierRole
  | .manager => droppingRole
  | .arbiter => processorRole

/-- What each thread knows between two calls. -/
def ReportKnown : (t : Thread) → SpaceAt t → StreamMem → Prop
  | .source, .active k, m => Active k m
  | .source, .closed, _ => True
  | .manager, i, m => StepReports i m
  | .arbiter, _, _ => True

theorem reportRole_compat {t u : Thread} (htu : t ≠ u) {l : StreamAcc}
    (hg : (reportRole t).guar l m m') : (reportRole u).rely m m' := by
  cases t with
  | source =>
    have hs : SilentSource m m' := hg
    cases u with
    | source => exact absurd rfl htu
    | manager =>
      refine ⟨spaceRole_compat (t := .source) (u := .manager) nofun (l := l) hs.toSourceStep, ?_⟩
      exact congrArg ShmInfo.droppedRanges hs.info
    | arbiter =>
      exact spaceRole_compat (t := .source) (u := .arbiter) nofun (l := l) hs.toSourceStep
  | manager =>
    have hs : ReportStep l m m' := hg
    cases u with
    | source => exact ⟨hs.shm, hs.destroyed⟩
    | manager => exact absurd rfl htu
    | arbiter => exact hs.arb
  | arbiter =>
    have hs : ProcessStep l m m' := hg
    cases u with
    | source => exact spaceRole_compat (t := .arbiter) (u := .source) nofun (l := l) hs.toArbiterStep
    | manager =>
      exact ⟨spaceRole_compat (t := .arbiter) (u := .manager) nofun (l := l) hs.toArbiterStep,
        hs.table⟩
    | arbiter => exact absurd rfl htu

theorem reportClients_safe (t : Thread) (i : SpaceAt t) (x : SpaceCall t) (m : StreamMem)
    (hm : ReportInv m) (hk : ReportKnown t i m) (he : (reportClients t).enabled i x m) :
    Safe ReportInv (reportRole t) (ReportKnown t) ((reportClients t).body i x) m := by
  cases t with
  | source =>
    cases i with
    | closed => exact he.elim
    | active k =>
      cases x with
      | push e =>
        obtain ⟨hid, hhole, hlt⟩ := he
        refine supplies_quietly ((silent_shmPush e).bind fun _ => Prog.each_ret _) (Safe.bind hm.1
          ((shmPush_safe hk hid hhole hlt).mono fun ok m1 _ ha => fun m2 h2 _ => ?_))
        exact ha.stable h2
      | destroy =>
        exact supplies_quietly (silent_shmDestroy.bind fun _ => Prog.each_ret _) (Safe.bind hm.1
          ((shmDestroy_safe hk).mono fun _ m1 _ _ => fun _ _ _ => trivial))
  | manager => exact stepBody_reports hm hk
  | arbiter =>
    cases x with
    | drop k =>
      exact Safe.bind hm ((bufferDrop_safe processor_removes hm fun e _ _ hl =>
        processed_safe hl).mono fun _ m1 _ _ => fun _ _ _ => trivial)
    | dropOlderThan id => exact he.elim

theorem Setup.reports (s : Setup) : ReportInv s.mem := by
  have hok : StreamOk s.mem := (s.inv : StreamInv (fun _ => true) False s.mem).ok
  have ha : s.mem.arb.pushed = [] := rfl
  refine ⟨⟨hok, ?_, ?_⟩, fun r hr h0 => ?_, .inl rfl⟩
  · rw [ha]; exact .nil
  · rw [ha]; exact nofun
  · obtain rfl := List.eq_of_mem_replicate hr
    exact absurd rfl h0

theorem Setup.begin_reports (s : Setup) (t : Thread) :
    Safe ReportInv (reportRole t) (ReportKnown t) (s.begin.prog t) s.begin.mem := by
  cases t with
  | source =>
    have h : Active 0 s.mem := ⟨rfl, rfl⟩
    exact fun m hr _ => h.stable hr
  | manager =>
    refine report_ret s.reports ⟨⟨fun r hr => ?_, nofun, fun h => ?_, fun h => ?_⟩, rfl⟩
    · exact .inl (List.eq_of_mem_replicate hr)
    · exact absurd h (Nat.lt_irrefl 0)
    · exact absurd h (Nat.lt_irrefl 0)
  | arbiter => exact fun _ _ _ => trivial

/-- Every configuration that a run reaches. -/
theorem reach_reports (s : Setup) {c : SpaceCfg} (h : Reach reportClients s.begin c) :
    ReportInv c.mem := by
  have hpre : ∀ t l m, (reportClients t).allowed l m → (reportRole t).pre l m := by
    intro t l m _
    cases t <;> trivial
  exact (reach_safe (ρ := reportRole) (Q := ReportKnown) hpre
    (fun _ _ htu _ _ _ _ _ hg => reportRole_compat htu hg) reportClients_safe s.reports
    s.begin_reports h).1

/-- The runs by moves are among them. -/
theorem reach_reports_moves {c₀ c : SpaceCfg} (h : Reach reportClients c₀ c) (mvs : List Move) :
    Reach reportClients c₀ (mvs.foldl moved c) := by
  induction mvs generalizing c with
  | nil => exact h
  | cons mv mvs ih =>
    refine ih ?_
    cases mv with
    | push =>
      simp only [moved]
      split
      case h_1 k hp =>
        split
        case isTrue hlt =>
          exact h.call .source (i := .active k) (.push ⟨9, k + 1, 0⟩) (Prog.done_eq_some.mp hp)
            ⟨rfl, rfl, hlt⟩ fun _ _ => trivial
        case isFalse => exact h
      case h_2 => exact h
    | step x =>
      simp only [moved]
      split
      case h_1 i hp =>
        exact h.call .manager (i := i) x (Prog.done_eq_some.mp hp) False.elim fun _ _ => trivial
      case h_2 => exact h
    | remove k =>
      simp only [moved]
      split
      case h_1 hp =>
        exact h.call .arbiter (i := ()) (.drop k) (Prog.done_eq_some.mp hp) trivial
          fun _ _ => trivial
      case h_2 => exact h

/-- In every run, whatever the filters say: an event that the arbiter has yet to see is reported to
    the source neither as processed nor as dropped. -/
theorem awaited_unreported (s : Setup) {c : SpaceCfg} (h : Reach reportClients s.begin c) {i : ℕ}
    (ha : Awaited i c.mem) : Unreported i c.mem :=
  (reach_reports s h).unreported ha

/-- Event 4 was dropped and reported, and the first four items were removed; event 5 is still there. -/
theorem awaited_unreported_five : ∃ c : SpaceCfg, Reach reportClients small.begin c ∧
    ⟨4, 4⟩ ∈ c.mem.info.droppedRanges ∧ Awaited 5 c.mem ∧ Unreported 5 c.mem := by
  have h : Reach reportClients small.begin (twoHoles.foldl moved small.begin) :=
    reach_reports_moves .start _
  have ha : Awaited 5 (twoHoles.foldl moved small.begin).mem := by decide +kernel
  exact ⟨_, h, by decide +kernel, ha, awaited_unreported small h ha⟩

end Inv

end StreamMem

end Vamos
