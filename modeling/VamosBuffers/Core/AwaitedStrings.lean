import Mathlib.Tactic
import VamosBuffers.Core.ReportRuns
import VamosBuffers.Shmbuf.AuxRuns

/-! Strings and the events they belong to, end to end. The source pushes events, and strings with the
    ids of events; the manager carries the events over and the arbiter removes them, and both report
    what may be reclaimed; when the writer of the strings looks for room, it goes by these reports:

        source    ──events──▶ SHM ring ──▶ manager ──▶ arbiter buffer ──▶ arbiter
             └────strings──▶ auxiliary buffers ◀──read───────────────────────┘
                                   ▲    dropped ranges (manager), last_processed_id (arbiter)
                                   └────────┘

    The two fields lie in the SHM buffer and are the same for both, so the memory of the strings hears
    of every store to them. The runs are those in which no report falls into a scan of the table: the
    lock around both does not exclude that, and a range read in the middle of a report could be one
    that was never reported. -/

namespace Vamos
open Schemes

namespace StreamMem

/-! ### Reclaiming -/

/-- Every place of the table that is in use is on record. -/
def TableRecorded (info : ShmInfo) (reported : List DroppedRange) : Prop :=
  ∀ r ∈ info.droppedRanges, r.last ≠ 0 → r ∈ reported

/-- What may be reclaimed is behind the last processed id, or lies in a range on record. -/
theorem TableRecorded.free_dead {b : StringBuffer} {ab : AuxBuffer} {i : ℕ}
    (h : TableRecorded b.info b.reported) (he : Encloses ab.firstEventId ab.lastEventId i)
    (hfree : ab.lastEventId ≤ b.info.lastProcessedId ∨ ab.wasDropped b.info.droppedRanges = true) :
    ¬ (b.info.lastProcessedId < i ∧ ∀ r ∈ b.reported, ¬ (r.first ≤ i ∧ i ≤ r.last)) := by
  obtain ⟨-, hf, hl⟩ := he
  rintro ⟨hproc, hdrop⟩
  rcases hfree with hp | hd
  · omega
  · obtain ⟨r, hr, hx⟩ := List.any_eq_true.mp hd
    simp only [Bool.and_eq_true, decide_eq_true_eq] at hx
    obtain ⟨⟨h0, h1⟩, h2⟩ := hx
    exact hdrop r (h r hr h0) ⟨h1.trans hf, hl.trans h2⟩

/-- Non-decreasing ids, and a table of dropped ranges with whatever in it. -/
def tabled : Discipline where
  may := ordered.may
  info := TableRecorded
  covers := Encloses
  free_dead := TableRecorded.free_dead
  older := Encloses.older
  newer := Encloses.newer

/-! ### One memory -/

/-- A stream and the strings of its SHM buffer. -/
abbrev PipeMem : Type := StreamMem × StringMem

/-- The strings with these reports. -/
def hear (info : ShmInfo) (reported : List DroppedRange) (q : StringMem) : StringMem :=
  { q with buff := { q.buff with info := info, reported := reported } }

/-- The two fields are the same; what is in the table after a report goes on record. -/
def tell : StreamAcc → StreamMem → StringMem → StringMem
  | .notify, m, q => hear m.info (m.info.droppedRanges ++ q.buff.reported) q
  | .setLastProcessedId, m, q => hear m.info q.buff.reported q
  | _, _, q => q

/-- A call on the stream. -/
def onStream {α : Type} (p : StreamProg α) : Prog PipeMem (StreamAcc ⊕ AuxAcc) α := p.along .inl tell

def stringsLens : Lens PipeMem StringMem where
  get m := m.2
  set q m := (m.1, q)
  get_set _ _ := rfl
  set_get _ := rfl

/-- A call on the strings. -/
def onStrings {α : Type} (p : StringProg α) : Prog PipeMem (StreamAcc ⊕ AuxAcc) α :=
  p.zoom stringsLens .inr

/-- Both invariants; and whatever was in the table at any time lies behind. -/
structure PipeInv (m : PipeMem) : Prop where
  stream : ReportInv m.1
  strings : StringMem.StringInv tabled m.2
  info : m.2.buff.info = m.1.info
  behind : ∀ r ∈ m.2.buff.reported, r.last ≠ 0 → Behind r m.1

/-- What every access to the stream does: what lies behind stays there, and only the two stores change
    the reports. -/
structure StreamMoves (l : StreamAcc) (m m' : StreamMem) : Prop where
  consumed : m.shm.ring.consumed ≤ m'.shm.ring.consumed
  items : NewItems m m'
  quiet : l ≠ .notify → l ≠ .setLastProcessedId → m'.info = m.info
  table : l ≠ .notify → SameTable m m'
  processed : m.info.lastProcessedId ≤ m'.info.lastProcessedId

theorem SilentSource.moves {l : StreamAcc} {m m' : StreamMem} (h : SilentSource m m') :
    StreamMoves l m m' :=
  ⟨h.shm.ring.consumed.ge, .of_eq (by rw [h.arb]), fun _ _ => h.info,
    fun _ => congrArg ShmInfo.droppedRanges h.info, by rw [h.info]⟩

theorem ReportStep.moves {l : StreamAcc} {m m' : StreamMem} (h : ReportStep l m m') :
    StreamMoves l m m' :=
  ⟨h.shm.ring.consumed, h.items, fun hn _ => h.quiet hn,
    fun hn => congrArg ShmInfo.droppedRanges (h.quiet hn), h.processed.ge⟩

theorem ProcessStep.moves {l : StreamAcc} {m m' : StreamMem} (h : ProcessStep l m m') :
    StreamMoves l m m' :=
  ⟨by rw [h.shm], .of_eq h.arb.pushed, fun _ hn => h.quiet hn, fun _ => h.table, h.processed⟩

/-- An access that reports nothing leaves the strings as they are. -/
theorem StreamMoves.tell_eq {l : StreamAcc} {m : PipeMem} {s : StreamMem} (h : StreamMoves l m.1 s)
    (hm : PipeInv m) : tell l s m.2 = hear s.info
      (if l = .notify then s.info.droppedRanges ++ m.2.buff.reported else m.2.buff.reported) m.2 := by
  by_cases hn : l = .notify
  · subst hn; rfl
  rw [if_neg hn]
  by_cases hp : l = .setLastProcessedId
  · subst hp; rfl
  have ht : tell l s m.2 = m.2 := by
    cases l <;> first | rfl | exact absurd rfl hn | exact absurd rfl hp
  rw [ht, h.quiet hn hp, ← hm.info]
  rfl

/-- What the strings hear of is a report, and keeps all invariants. -/
theorem PipeInv.told {l : StreamAcc} {m : PipeMem} {s : StreamMem} (hm : PipeInv m)
    (hs : ReportInv s) (h : StreamMoves l m.1 s) :
    StringMem.ReporterStep tabled m.2 (tell l s m.2) ∧ PipeInv (s, tell l s m.2) := by
  have hold : ∀ r ∈ m.2.buff.reported, r.last ≠ 0 → Behind r s := fun r hr h0 =>
    (hm.behind r hr h0).mono h.consumed h.items
  have hproc : m.2.buff.info.lastProcessedId ≤ s.info.lastProcessedId := hm.info ▸ h.processed
  rw [h.tell_eq hm]
  split
  case isTrue hn =>
    obtain ⟨hstep, hinv⟩ := hm.strings.report s.info (s.info.droppedRanges ++ m.2.buff.reported)
      (fun r hr _ => List.mem_append_left _ hr) fun i hl => ⟨hproc.trans_lt hl.1, fun r hr =>
        hl.2 r (List.mem_append_right _ hr)⟩
    refine ⟨hstep, hs, hinv, rfl, fun r hr h0 => ?_⟩
    rcases List.mem_append.mp hr with hr | hr
    · exact hs.2.table r hr h0
    · exact hold r hr h0
  case isFalse hn =>
    have htab : TableRecorded s.info m.2.buff.reported := by
      intro r hr h0
      rw [h.table hn, ← hm.info] at hr
      exact hm.strings.info r hr h0
    obtain ⟨hstep, hinv⟩ := hm.strings.report s.info m.2.buff.reported htab fun i hl =>
      ⟨hproc.trans_lt hl.1, hl.2⟩
    exact ⟨hstep, hs, hinv, rfl, hold⟩

/-- A string of an awaited event is to be kept. -/
theorem PipeInv.keeps {i : ℕ} {m : PipeMem} (hm : PipeInv m) (ha : Awaited i m.1) :
    tabled.Keeps i m.2.buff := by
  obtain ⟨hproc, -⟩ := hm.stream.unreported ha
  refine ⟨by rw [hm.info]; exact hproc, fun r hr => ?_⟩
  by_cases h0 : r.last = 0
  · omega
  · exact (hm.behind r hr h0).not_awaited ha

/-! ### Threads -/

/-- What the source does: it pushes an event or destroys the buffer, or pushes a string. -/
abbrev PipeAt : Thread → Type
  | .source => SourceAt × List Returned
  | .manager => StepAt
  | .arbiter => StringReader

/-- The arbiter removes items, or reads a string. -/
abbrev PipeCall : Thread → Type
  | .source => SourceCall ⊕ PushCall
  | .manager => Bool
  | .arbiter => ℕ ⊕ ℕ

abbrev PipeCfg : Type := Cfg PipeMem (StreamAcc ⊕ AuxAcc) PipeAt

/-- Fewer than `2 ^ 32` auxiliary buffers, and offsets below `2 ^ 32`. -/
def StringsInBounds : StreamAcc ⊕ AuxAcc → PipeMem → Prop
  | .inl _, _ => True
  | .inr l, m => StringMem.InBounds l m.2

instance : (l : StreamAcc ⊕ AuxAcc) → (m : PipeMem) → Decidable (StringsInBounds l m)
  | .inl _, _ => isTrue trivial
  | .inr l, m => inferInstanceAs (Decidable (StringMem.InBounds l m.2))

/-- The source, with the strings' ids not decreasing. -/
def pipeSource (pg : PageSize) :
    Client PipeMem (StreamAcc ⊕ AuxAcc) (SourceAt × List Returned) (SourceCall ⊕ PushCall) where
  enabled i x m := match x with
    | .inl x => sourceClient.enabled i.1 x m.1
    | .inr x => i.1 ≠ .closed ∧
      (StringMem.writerClient pg tabled.may StringMem.InBounds).enabled i.2 x m.2
  body i x := match x with
    | .inl x => do
      let a ← onStream (sourceClient.body i.1 x)
      pure (a, i.2)
    | .inr x => do
      let l ← onStrings ((StringMem.writerClient pg tabled.may StringMem.InBounds).body i.2 x)
      pure (i.1, l)
  allowed := StringsInBounds

/-- The manager, with any answers of its filters. -/
def pipeManager : Client PipeMem (StreamAcc ⊕ AuxAcc) StepAt Bool where
  enabled _ _ _ := True
  body i x := onStream (stepBody i x)

/-- The arbiter. -/
def pipeArbiter : Client PipeMem (StreamAcc ⊕ AuxAcc) StringReader (ℕ ⊕ ℕ) where
  enabled r x m := match x with
    | .inl _ => True
    | .inr h => StringMem.readerClient.enabled r h m.2
  body r x := match x with
    | .inl k => do
      let _ ← onStream (bufferDrop k)
      pure r
    | .inr h => onStrings (StringMem.readerClient.body r h)

def pipeClients (pg : PageSize) :
    (t : Thread) → Client PipeMem (StreamAcc ⊕ AuxAcc) (PipeAt t) (PipeCall t)
  | .source => pipeSource pg
  | .manager => pipeManager
  | .arbiter => pipeArbiter

/-- A new stream, before its first event and its first string; whatever files there were are still
    there. -/
def Setup.pipe (s : Setup) (files : ℕ → Option AuxBuffer) : PipeCfg :=
  ⟨(s.mem, ⟨files, .fresh⟩), fun
    | .source => .ret (.active 0, [])
    | .manager => .ret .top
    | .arbiter => .ret ⟨none, []⟩⟩

/-! ### Roles -/

/-- What a thread relies on, as to the strings. -/
def stringRely : Thread → StringMem → StringMem → Prop
  | .source => StringMem.ReporterStep tabled
  | .manager => fun _ _ => True
  | .arbiter => StringMem.GivenStep

/-- What a thread does to the strings. -/
def stringGuar : Thread → StringMem → StringMem → Prop
  | .source => StringMem.GivenStep
  | .manager => StringMem.ReporterStep tabled
  | .arbiter => StringMem.ReporterStep tabled

/-- Each thread plays its part in the stream, and one with the strings. -/
def pipeRole (t : Thread) : Role PipeMem (StreamAcc ⊕ AuxAcc) where
  rely m m' := (reportRole t).rely m.1 m'.1 ∧ stringRely t m.2 m'.2
  guar _ m m' := (m'.1 = m.1 ∨ ∃ l, (reportRole t).guar l m.1 m'.1) ∧ stringGuar t m.2 m'.2
  refl m := ⟨(reportRole t).refl m.1, by
    cases t with
    | source => exact StringMem.ReporterStep.refl m.2
    | manager => trivial
    | arbiter => exact StringMem.GivenStep.refl m.2⟩
  trans h h' := ⟨(reportRole t).trans h.1 h'.1, by
    cases t with
    | source => exact StringMem.ReporterStep.trans h.2 h'.2
    | manager => trivial
    | arbiter => exact StringMem.GivenStep.trans h.2 h'.2⟩
  pre l m := ∀ a, l = .inr a → t = .source → StringMem.InBounds a m.2
  lenient := (reportRole t).lenient

theorem pipeRole_compat {t u : Thread} (htu : t ≠ u) {l : StreamAcc ⊕ AuxAcc} {m m' : PipeMem}
    (hg : (pipeRole t).guar l m m') : (pipeRole u).rely m m' := by
  obtain ⟨h1, h2⟩ := hg
  refine ⟨?_, ?_⟩
  · rcases h1 with h1 | ⟨l', h1⟩
    · rw [h1]; exact (reportRole u).refl m.1
    · exact reportRole_compat htu h1
  · cases t with
    | source =>
      cases u with
      | source => exact absurd rfl htu
      | manager => trivial
      | arbiter => exact h2
    | manager =>
      cases u with
      | source => exact h2
      | manager => trivial
      | arbiter => exact StringMem.ReporterStep.givenStep h2
    | arbiter =>
      cases u with
      | source => exact h2
      | manager => trivial
      | arbiter => exact StringMem.ReporterStep.givenStep h2

theorem reportRole_moves {t : Thread} {l : StreamAcc} {m m' : StreamMem}
    (hg : (reportRole t).guar l m m') : StreamMoves l m m' := by
  cases t with
  | source => exact SilentSource.moves hg
  | manager => exact ReportStep.moves hg
  | arbiter => exact ProcessStep.moves hg

theorem stringGuar_of_report {t : Thread} {q q' : StringMem}
    (h : StringMem.ReporterStep tabled q q') : stringGuar t q q' := by
  cases t with
  | source => exact h.givenStep
  | manager => exact h
  | arbiter => exact h

/-- A call on the stream, and a fact about the strings that reports do not change. -/
theorem onStream_safe {α : Type} {t : Thread} {p : StreamProg α} {Q : α → StreamMem → Prop}
    {F : StringMem → Prop} {m : PipeMem} (hF : ∀ q q', F q → stringRely t q q' → F q')
    (hT : ∀ q q', F q → StringMem.ReporterStep tabled q q' → F q') (hf : F m.2)
    (h : Safe ReportInv (reportRole t) Q p m.1) :
    Safe PipeInv (pipeRole t) (fun a m' => Q a m'.1 ∧ F m'.2) (onStream p) m := by
  refine Safe.along (F := fun m => F m.2) (ρ := reportRole t) (π := pipeRole t) (fun m hm => hm.stream) (fun m m' hr => hr.1)
    (fun l m _ => ?_) (fun m m' hf hr => hF _ _ hf hr.2) (fun l m s hm hf hs hg => ?_) id hf h
  · cases t <;> trivial
  · obtain ⟨hr, hi⟩ := hm.told hs (reportRole_moves hg)
    exact ⟨⟨.inr ⟨l, hg⟩, stringGuar_of_report hr⟩, hi, hT _ _ hf hr⟩

/-! ### Runs -/

/-- What the source knows of its strings. -/
def WriterStands (l : List Returned) (q : StringMem) : Prop :=
  (∀ k, q.buff.cur = some k → k < q.buff.auxBufIdx) ∧ StringMem.WriterKnows l q

theorem WriterStands.stable {l : List Returned} {q q' : StringMem} (h : WriterStands l q)
    (hr : StringMem.ReporterStep tabled q q') : WriterStands l q' := by
  obtain ⟨hlt, hused, hl⟩ := h
  refine ⟨fun k hk => ?_, fun k hk => ?_, by rw [hr.given]; exact hl⟩
  · rw [hr.cur] at hk
    rw [hr.auxBufIdx]; exact hlt k hk
  · rw [hr.cur] at hk
    rw [hr.file (hlt k hk)]; exact hused k hk

/-- What each thread knows between two calls. -/
def PipeKnown : (t : Thread) → PipeAt t → PipeMem → Prop
  | .source, i, m => ReportKnown .source i.1 m.1 ∧ WriterStands i.2 m.2
  | .manager, i, m => StepReports i m.1
  | .arbiter, r, m => StringMem.Mapped r m.2

theorem ReportKnown.forSource {a : SourceAt} {m m' : StreamMem} (h : ReportKnown .source a m)
    (hr : ForSource m m') : ReportKnown .source a m' := by
  cases a with
  | active n => exact Active.stable h hr
  | closed => trivial

/-- The source's calls. -/
theorem pipeSource_safe {pg : PageSize} {i : SourceAt × List Returned} {x : SourceCall ⊕ PushCall}
    {m : PipeMem} (hm : PipeInv m) (hk : PipeKnown .source i m)
    (he : (pipeSource pg).enabled i x m) :
    Safe PipeInv (pipeRole .source) (PipeKnown .source) ((pipeSource pg).body i x) m := by
  obtain ⟨a, l⟩ := i
  obtain ⟨hka, hkl⟩ := hk
  cases x with
  | inl x =>
    have hs := reportClients_safe .source a x m.1 hm.stream hka he
    refine Safe.bind hm ((onStream_safe (t := .source) (F := WriterStands l) (fun q q' hf hr => hf.stable hr)
      (fun q q' hf hr => hf.stable hr) hkl hs).mono fun a' m1 _ ⟨h1, hw⟩ => fun m2 h2 _ => ?_)
    exact ⟨ReportKnown.forSource h1 h2.1, hw.stable h2.2⟩
  | inr x =>
    have hw := StringMem.writerBody_safe (D := tabled) hm.strings hkl.2 he.2
      fun _ _ _ _ _ => trivial
    have hz := Safe.zoom (I := PipeInv) (ρ := pipeRole .source) (L := stringsLens)
      (φ := (Sum.inr : AuxAcc → StreamAcc ⊕ AuxAcc)) (s := m) (fun m => ReportKnown .source a m.1)
      (fun m hm => hm.strings) (fun m m' _ hr _ => hr.2) (fun l m hp => hp l rfl rfl)
      (fun m m' hf hr _ => hf.forSource hr.1) ?_ False.elim hka hw
    · refine Safe.bind hm (hz.mono fun l' m1 i1 ⟨⟨hw1, _⟩, ha1⟩ => fun m2 h2 _ => ?_)
      have hs1 : WriterStands l' m1.2 := ⟨fun k hk => i1.strings.cur_lt hk, hw1⟩
      exact ⟨ha1.forSource h2.1, hs1.stable h2.2⟩
    · intro l m q _ hf hi hq hg
      have hg : StringMem.WriterStep l m.2 q := hg
      refine ⟨⟨.inl rfl, hg.givenStep⟩, ⟨hi.stream, hq, hg.info.trans hi.info, ?_⟩, hf⟩
      show ∀ r ∈ q.buff.reported, _
      rw [hg.reported]; exact hi.behind

/-- The arbiter's calls. -/
theorem pipeArbiter_safe {r : StringReader} {x : ℕ ⊕ ℕ} {m : PipeMem} (hm : PipeInv m)
    (hk : StringMem.Mapped r m.2) (he : pipeArbiter.enabled r x m) :
    Safe PipeInv (pipeRole .arbiter) (PipeKnown .arbiter) (pipeArbiter.body r x) m := by
  cases x with
  | inl k =>
    have hs : Safe ReportInv (reportRole .arbiter) (fun _ _ => True) (bufferDrop k) m.1 :=
      bufferDrop_safe processor_removes hm.stream fun e _ _ hl => processed_safe hl
    refine Safe.bind hm ((onStream_safe (F := StringMem.Mapped r) (fun q q' hf hr => ?_)
      (fun q q' hf hr => ?_) hk hs).mono fun _ m1 _ ⟨_, h1⟩ => fun m2 h2 _ => ?_)
    · exact hf.mono (StringMem.GivenStep.auxBufIdx hr)
    · exact hf.mono hr.auxBufIdx.ge
    · exact h1.mono (StringMem.GivenStep.auxBufIdx h2.2)
  | inr h =>
    have hz := Safe.zoom (I := PipeInv) (ρ := pipeRole .arbiter) (L := stringsLens)
      (φ := (Sum.inr : AuxAcc → StreamAcc ⊕ AuxAcc)) (s := m) (fun _ => True)
      (fun m hm => hm.strings) (fun m m' _ hr _ => hr.2) (fun _ _ _ => trivial)
      (fun _ _ _ _ _ => trivial) ?_ False.elim trivial
      (StringMem.readerBody_safe (D := tabled) hk he)
    · exact hz.mono fun r' m1 _ h1 => h1.1
    · rintro l m q - - hi - (rfl : q = m.2)
      exact ⟨⟨.inl rfl, .refl _⟩, hi, trivial⟩

theorem pipeClients_safe (pg : PageSize) (t : Thread) (i : PipeAt t) (x : PipeCall t) (m : PipeMem)
    (hm : PipeInv m) (hk : PipeKnown t i m) (he : (pipeClients pg t).enabled i x m) :
    Safe PipeInv (pipeRole t) (PipeKnown t) ((pipeClients pg t).body i x) m := by
  cases t with
  | source => exact pipeSource_safe hm hk he
  | manager =>
    have hs := stepBody_reports (x := x) hm.stream hk
    exact (onStream_safe (t := .manager) (F := fun _ => True) (fun _ _ _ _ => trivial)
      (fun _ _ _ _ => trivial) trivial hs).mono fun i' m1 _ h1 => h1.1
  | arbiter => exact pipeArbiter_safe hm hk he

theorem Setup.pipe_inv (s : Setup) (files : ℕ → Option AuxBuffer) : PipeInv (s.pipe files).mem :=
  ⟨s.reports, StringMem.stringFresh_inv files fun r hr h0 => by
    obtain rfl := List.eq_of_mem_replicate hr
    exact absurd rfl h0, rfl, nofun⟩

theorem Setup.pipe_known (s : Setup) (files : ℕ → Option AuxBuffer) (t : Thread) :
    Safe PipeInv (pipeRole t) (PipeKnown t) ((s.pipe files).prog t) (s.pipe files).mem := by
  cases t with
  | source =>
    intro m hr _
    have h : Active 0 s.mem := ⟨rfl, rfl⟩
    refine ⟨h.stable hr.1, WriterStands.stable ⟨?_, ?_, rfl⟩ hr.2⟩
    · exact fun k hk => by cases hk
    · exact fun k hk => by cases hk
  | manager =>
    intro m hr hi
    exact s.begin_reports .manager m.1 hr.1 hi.stream
  | arbiter => exact fun m _ _ k hk => by rcases hk with hk | hk <;> cases hk

/-- Every configuration that a run reaches, from where all is in order. -/
theorem reach_pipe {pg : PageSize} {c c' : PipeCfg} (hm : PipeInv c.mem)
    (hs : ∀ t, Safe PipeInv (pipeRole t) (PipeKnown t) (c.prog t) c.mem)
    (h : Reach (pipeClients pg) c c') :
    PipeInv c'.mem ∧ (∀ t, Safe PipeInv (pipeRole t) (PipeKnown t) (c'.prog t) c'.mem) ∧
      StringMem.GivenStep c.mem.2 c'.mem.2 := by
  have hpre : ∀ t l m, (pipeClients pg t).allowed l m → (pipeRole t).pre l m := by
    intro t l m ha a hl ht
    subst hl ht
    exact ha
  have hcompat : ∀ t u, t ≠ u → ∀ l m m', PipeInv m → PipeInv m' → (pipeRole t).guar l m m' →
      (pipeRole u).rely m m' := fun _ _ htu _ _ _ _ _ hg => pipeRole_compat htu hg
  obtain ⟨hm', hs'⟩ := reach_safe hpre hcompat (pipeClients_safe pg) hm hs h
  refine ⟨hm', hs', reach_related (R := fun m m' => StringMem.GivenStep m.2 m'.2) hpre hcompat
    (pipeClients_safe pg) (fun m => .refl m.2) StringMem.GivenStep.trans (fun t l m m' hg => ?_)
    hm hs h⟩
  cases t with
  | source => exact hg.2
  | manager => exact StringMem.ReporterStep.givenStep hg.2
  | arbiter => exact StringMem.ReporterStep.givenStep hg.2

/-- The strings of events that the arbiter has yet to see are there. Take what the pushes have
    returned at any point of any run, whatever the filters of the manager say, and any later point:
    the handle of a string whose event is awaited reads back the pushed bytes. Reports and scans of
    the table are steps here, so none overlaps another. -/
theorem awaited_strings_kept {pg : PageSize} {files : ℕ → Option AuxBuffer} (s : Setup)
    {c c' : PipeCfg} {a : SourceAt} {l : List Returned}
    (h : Reach (pipeClients pg) (s.pipe files) c) (hl : c.prog .source = .ret (a, l))
    (h' : Reach (pipeClients pg) c c') :
    ∀ p ∈ l, Awaited p.evid c'.mem.1 → ∀ r, c'.prog .arbiter = .ret r →
      ∃ rest r', r.readStr c'.mem.2.files p.handle = some (p.bytes ++ rest, r') := by
  intro p hp ha r hr
  obtain ⟨hm, hs, -⟩ := reach_pipe (s.pipe_inv files) (s.pipe_known files) h
  obtain ⟨hm', hs', hgiven⟩ := reach_pipe hm hs h'
  have hk : PipeKnown .source (a, l) c.mem := (hs .source).at_ret hm hl
  obtain ⟨-, -, -, hlist⟩ := hk
  have hlist : l = c.mem.2.buff.given.map Given.returned := hlist
  rw [hlist] at hp
  obtain ⟨g, hg, rfl⟩ := List.mem_map.mp hp
  have hmap : StringMem.Mapped r c'.mem.2 := (hs' .arbiter).at_ret hm' hr
  exact hm'.strings.reads hmap (hgiven.given.subset hg) (hm'.keeps ha)

/-- A string of event 1 is pushed, then the event; the event is read when it lies in the arbiter
    buffer. -/
theorem awaited_strings_kept_one : ∃ c : PipeCfg,
    Reach (pipeClients ⟨4096, by decide, by decide⟩) (small.pipe fun _ => none) c ∧
    c.mem.1.arb.pushed = [⟨9, 1, 0⟩] ∧ Awaited 1 c.mem.1 ∧ c.prog .arbiter = .ret ⟨none, []⟩ ∧
    ∃ rest r', StringReader.readStr c.mem.2.files ⟨none, []⟩ 0 = some ([97, 0] ++ rest, r') := by
  have h0 : Reach (pipeClients ⟨4096, by decide, by decide⟩) (small.pipe fun _ => none) _ := .start
  have h1 := h0.callIn .source (i := (.active 0, [])) (.inr (.pushStr 1 [97])) rfl
    ⟨nofun, by decide, Nat.zero_le _, le_rfl, by decide⟩
    (by show Prog.within StringsInBounds _ _; decide)
  have h2 := h1.callIn .source (i := (.active 0, [⟨0, 1, [97, 0]⟩])) (.inl (.push ⟨9, 1, 0⟩)) rfl
    ⟨rfl, rfl, by decide⟩ (by show Prog.within StringsInBounds _ _; decide)
  have h3 := h2.call .manager (i := .top) true rfl trivial fun _ _ => trivial
  have h4 := h3.call .manager (i := .got 0 ⟨9, 1, 0⟩) true rfl trivial fun _ _ => trivial
  have h5 := h4.call .manager (i := .fetched 0) true rfl trivial fun _ _ => trivial
  have h6 := h5.call .manager (i := .slot 0 (some 0)) true rfl trivial fun _ _ => trivial
  exact ⟨_, h6, by decide +kernel, by decide +kernel, rfl,
    awaited_strings_kept small h6 (a := .active 1) (l := [⟨0, 1, [97, 0]⟩]) rfl .start _
      (List.mem_singleton_self _) (by decide +kernel) _ rfl⟩

end StreamMem

end Vamos
