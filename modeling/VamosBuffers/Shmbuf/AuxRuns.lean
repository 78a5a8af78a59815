import Mathlib.Tactic
import VamosBuffers.Shmbuf.AuxStrings

/-! Runs of one buffer with strings. Three threads share it: the writer pushes strings, the
    reporter says which events are processed or dropped, and the reader looks up handles.

        writer      push_str / push_strn  evid s      returns a handle
        reporter    last_processed_id := id           notify_dropped b e
        reader      read_str handle                   gives the memory from the string on

    The ids of the writer's pushes do not decrease, nor does the reported `last_processed_id`; the
    rest is arbitrary, and the accesses of the writer interleave with everything else. -/

namespace Vamos
open Schemes

/-! ### Ids that do not decrease -/

/-- The table of dropped ranges holds ranges that were reported. -/
def RangesReported (info : ShmInfo) (reported : List DroppedRange) : Prop :=
  ∀ r ∈ info.droppedRanges, r = ⟨0, 0⟩ ∨
    r ∈ reported ∧ 1 ≤ r.first ∧ r.first ≤ r.last ∧ r.last < 2 ^ 64

/-- The two ids of a buffer enclose the ids of its strings. -/
def Encloses (first last i : ℕ) : Prop := first ≠ 0 ∧ first ≤ i ∧ i ≤ last

theorem RangesReported.of_wasDropped {info : ShmInfo} {reported : List DroppedRange}
    (h : RangesReported info reported) {ab : AuxBuffer}
    (hd : ab.wasDropped info.droppedRanges = true) :
    ∃ r ∈ reported, r.first ≤ ab.firstEventId ∧ ab.lastEventId ≤ r.last := by
  obtain ⟨r, hr, hx⟩ := List.any_eq_true.mp hd
  simp only [Bool.and_eq_true, decide_eq_true_eq] at hx
  obtain ⟨⟨h0, h1⟩, h2⟩ := hx
  rcases h r hr with rfl | ⟨hm, -⟩
  · exact absurd rfl h0
  · exact ⟨r, hm, h1, h2⟩

/-- A string of a later event leaves the earlier ones enclosed. -/
theorem Encloses.older {lastEvid evid first last i : ℕ}
    (hmay : lastEvid ≤ evid ∧ 1 ≤ evid ∧ evid < 2 ^ 64 - 1) (_ : True) (hi : i ≤ lastEvid)
    (h : Encloses first last i) : Encloses (if first = 0 then evid else first) evid i := by
  obtain ⟨h0, h1, -⟩ := h
  rw [if_neg h0]
  exact ⟨h0, h1, hi.trans hmay.1⟩

theorem Encloses.newer {lastEvid evid first : ℕ}
    (hmay : lastEvid ≤ evid ∧ 1 ≤ evid ∧ evid < 2 ^ 64 - 1) (hf : first ≤ lastEvid) :
    Encloses (if first = 0 then evid else first) evid evid := by
  obtain ⟨hle, hpos, -⟩ := hmay
  unfold Encloses
  split <;> omega

/-- Non-decreasing ids: a buffer whose last id is processed, or that lies in one dropped range,
    holds only dead strings. -/
def ordered : Discipline where
  may lastEvid evid := lastEvid ≤ evid ∧ 1 ≤ evid ∧ evid < 2 ^ 64 - 1
  info := RangesReported
  covers := Encloses
  free_dead := by
    rintro b ab i hinfo ⟨-, hf, hl⟩ hfree ⟨hproc, hdrop⟩
    rcases hfree with hp | hd
    · omega
    · obtain ⟨r, hr, h1, h2⟩ := hinfo.of_wasDropped hd
      exact hdrop r hr ⟨h1.trans hf, hl.trans h2⟩
  older := Encloses.older
  newer := Encloses.newer

/-- A range is extended only by a report that begins where it does. -/
theorem RangesReported.notifyDropped {info : ShmInfo} {reported : List DroppedRange}
    (h : RangesReported info reported) {b e : ℕ} (hb : 1 ≤ b) (hbe : b ≤ e) (he : e < 2 ^ 64) :
    RangesReported (info.notifyDropped b e) (⟨b, e⟩ :: reported) := by
  have hnew : ∀ {idx : ℕ} {r : DroppedRange}, r ∈ info.droppedRanges.set idx ⟨b, e⟩ →
      r = ⟨0, 0⟩ ∨ r ∈ (⟨b, e⟩ : DroppedRange) :: reported ∧
        1 ≤ r.first ∧ r.first ≤ r.last ∧ r.last < 2 ^ 64 := by
    intro idx r hr
    rcases List.mem_or_eq_of_mem_set hr with hr | rfl
    · exact (h r hr).imp_right fun hx => ⟨List.mem_cons_of_mem _ hx.1, hx.2⟩
    · exact .inr ⟨List.mem_cons_self .., hb, hbe, he⟩
  dsimp only [ShmInfo.notifyDropped]
  split
  · rename_i hext
    set r := info.droppedRanges.getD info.droppedRangesNext ⟨0, 0⟩ with hr
    -- an entry with `last = first - 1` is never in the table
    have hrange : r = ⟨0, 0⟩ ∨ 1 ≤ r.first ∧ r.first ≤ r.last ∧ r.last < 2 ^ 64 := by
      rw [hr, List.getD_eq_getElem?_getD]
      cases hx : info.droppedRanges[info.droppedRangesNext]? with
      | none => exact .inl rfl
      | some y => exact (h y (List.mem_of_getElem? hx)).imp_right And.right
    have hfirst : r.first = b := by
      rcases hext with hf | hl
      · exact hf
      · rcases hrange with h0 | ⟨h1, h2, h3⟩
        · rw [h0] at hl; exact absurd hl (by decide)
        · omega
    intro x hx
    have hx' : x ∈ info.droppedRanges.set info.droppedRangesNext ⟨b, e⟩ := by
      rw [← hfirst]; exact hx
    exact hnew hx'
  · exact fun x hx => hnew hx

/-! ### Threads -/

/-- What a push returned, and what was pushed. -/
structure Returned where
  handle : ℕ
  evid : ℕ
  bytes : Bytes
  deriving DecidableEq, Repr

/-- What a string's record says its push returned. -/
def Given.returned (g : Given) : Returned := ⟨StringMem.handle g.off g.idx, g.evid, g.bytes⟩

/-- A call of `vms_shm_buffer_partial_push_str` or `vms_shm_buffer_partial_push_str_n`; `str` is a
    string without its terminator. -/
inductive PushCall where
  | pushStr (evid : ℕ) (str : Bytes)
  | pushStrn (evid : ℕ) (s : Bytes)

namespace PushCall

def evid : PushCall → ℕ
  | pushStr evid _ => evid
  | pushStrn evid _ => evid

/-- The bytes that are copied. -/
def bytes : PushCall → Bytes
  | pushStr _ str => str ++ [0]
  | pushStrn _ s => s

def body (pg : PageSize) : PushCall → StringProg ℕ
  | pushStr evid str => StringMem.bufferPushStr pg evid str
  | pushStrn evid s => StringMem.bufferPushStrn pg evid s

end PushCall

/-- What the reader's side reports. -/
inductive ReportCall where
  | processed (id : ℕ)
  | dropped (beginId endId : ℕ)

namespace StringMem

/-- The writer pushes strings with ids that `may` admits and keeps what the pushes return. No object
    is as large as half the address space. -/
def writerClient (pg : PageSize) (may : ℕ → ℕ → Prop) (allowed : AuxAcc → StringMem → Prop) :
    Client StringMem AuxAcc (List Returned) PushCall where
  enabled _ x m := x.bytes.length < 2 ^ 63 ∧ may m.buff.lastEvid x.evid
  body l x := do
    let h ← x.body pg
    pure (l ++ [⟨h, x.evid, x.bytes⟩])
  allowed := allowed

/-- The reporter. -/
def reporterClient : Client StringMem AuxAcc Unit ReportCall where
  enabled _ x m := match x with
    | .processed id => m.buff.info.lastProcessedId ≤ id ∧ id < 2 ^ 64
    | .dropped b e => 1 ≤ b ∧ b ≤ e ∧ e < 2 ^ 64
  body _ x := match x with
    | .processed id => setLastProcessedId id
    | .dropped b e => notifyDropped b e

/-- The reader looks up handles that pushes have returned. -/
def readerClient : Client StringMem AuxAcc StringReader ℕ where
  enabled _ h m := ∃ g ∈ m.buff.given, h = handle g.off g.idx
  body r h := Prog.access .read (fun m => ((r.readStr m.files h).map (·.2)).getD r) id

/-- Pushing keeps the writer's list of what it was returned. -/
def WriterKnows (l : List Returned) (m : StringMem) : Prop :=
  CurUsed m ∧ l = m.buff.given.map Given.returned

theorem writerBody_safe {D : Discipline} {pg : PageSize} {A : AuxAcc → StringMem → Prop}
    {l : List Returned} {x : PushCall} {m : StringMem} (hm : StringInv D m)
    (hk : WriterKnows l m) (he : (writerClient pg D.may A).enabled l x m)
    (hb : GoesBehind D x.evid x.bytes.length m) :
    Safe (StringInv D) (writerRole D) (fun l' m' => WriterKnows l' m' ∧ ∃ y : Returned,
      l' = l ++ [y] ∧ y.evid = x.evid) ((writerClient pg D.may A).body l x) m := by
  have hbody : Safe (StringInv D) (writerRole D) (fun h m' => ∃ k off, h = handle off k ∧
      Pushed m ⟨k, off, x.evid, x.bytes⟩ m') (x.body pg) m := by
    cases x with
    | pushStr evid str => exact bufferPushStr_safe pg he.1 hm hk.1 he.2 hb
    | pushStrn evid s => exact bufferPushStrn_safe pg he.1 hm hk.1 he.2 hb
  refine Safe.bind hm (hbody.mono fun h m1 _ hp => fun m2 h2 _ => ?_)
  obtain ⟨k, off, rfl, hp⟩ := hp
  have hp2 := hp.stable h2
  refine ⟨⟨hp2.curUsed, ?_⟩, _, rfl, rfl⟩
  rw [hp2.given, List.map_append, hk.2]
  rfl

/-! ### One buffer -/

/-- The threads of one buffer. -/
inductive StringThread where
  | writer | reporter | reader
  deriving DecidableEq, Repr

/-- Where a thread is between two calls. -/
abbrev StringAt : StringThread → Type
  | .writer => List Returned
  | .reporter => Unit
  | .reader => StringReader

abbrev StringCall : StringThread → Type
  | .writer => PushCall
  | .reporter => ReportCall
  | .reader => ℕ

abbrev StringCfg : Type := Cfg StringMem AuxAcc StringAt

/-- The threads, in runs with fewer than `2 ^ 32` auxiliary buffers and offsets below `2 ^ 32`. -/
def stringClients (pg : PageSize) :
    (t : StringThread) → Client StringMem AuxAcc (StringAt t) (StringCall t)
  | .writer => writerClient pg ordered.may InBounds
  | .reporter => reporterClient
  | .reader => readerClient

/-- A new buffer; whatever files there were are still there. -/
def stringStart (files : ℕ → Option AuxBuffer) : StringCfg where
  mem := ⟨files, .fresh⟩
  prog
    | .writer => .ret []
    | .reporter => .ret ()
    | .reader => .ret ⟨none, []⟩

/-- What the reader relies on. -/
structure GivenStep (m m' : StringMem) : Prop where
  auxBufIdx : m.buff.auxBufIdx ≤ m'.buff.auxBufIdx
  given : m.buff.given <+: m'.buff.given

theorem GivenStep.refl (m : StringMem) : GivenStep m m := ⟨le_rfl, List.prefix_rfl⟩

theorem GivenStep.trans {m m' m'' : StringMem} (h : GivenStep m m') (h' : GivenStep m' m'') :
    GivenStep m m'' := ⟨h.1.trans h'.1, h.2.trans h'.2⟩

theorem ReporterStep.givenStep {D : Discipline} {m m' : StringMem} (h : ReporterStep D m m') :
    GivenStep m m' :=
  ⟨h.auxBufIdx.ge, by rw [h.given]⟩

theorem WriterStep.givenStep {l : AuxAcc} {m m' : StringMem} (h : WriterStep l m m') :
    GivenStep m m' := ⟨h.grow, h.given⟩

/-- What is reported changes only by the reporter. -/
structure SameReports (m m' : StringMem) : Prop where
  info : m'.buff.info = m.buff.info
  reported : m'.buff.reported = m.buff.reported

/-- The reporter; where it says so, also in a build without assertions. -/
def reporterRole (D : Discipline) (lenient : Prop) : Role StringMem AuxAcc where
  rely := SameReports
  guar _ := ReporterStep D
  refl _ := ⟨rfl, rfl⟩
  trans h h' := ⟨h'.1.trans h.1, h'.2.trans h.2⟩
  lenient := lenient

def readerRole : Role StringMem AuxAcc where
  rely := GivenStep
  guar _ m m' := m' = m
  refl := GivenStep.refl
  trans := GivenStep.trans

/-- A report: only what is live changes. -/
theorem StringInv.report {D : Discipline} {m : StringMem} (h : StringInv D m) (info : ShmInfo)
    (reported : List DroppedRange) (hi : D.info info reported)
    (hlive : ∀ i, D.live i info reported → D.Keeps i m.buff) :
    ReporterStep D m { m with buff := { m.buff with info := info, reported := reported } } ∧
      StringInv D { m with buff := { m.buff with info := info, reported := reported } } :=
  ⟨⟨rfl, rfl, rfl, rfl, rfl, fun _ => rfl, hlive⟩,
    h.age, h.cur, h.few, h.files, h.sound, h.given, fun g hg hl => h.kept g hg (hlive _ hl), hi⟩

theorem notifyDropped_lastProcessedId (info : ShmInfo) (b e : ℕ) :
    (info.notifyDropped b e).lastProcessedId = info.lastProcessedId := by
  dsimp only [ShmInfo.notifyDropped]
  split <;> rfl

theorem reporterBody_safe {x : ReportCall} {m : StringMem}
    (he : reporterClient.enabled () x m) :
    Safe (StringInv ordered) (reporterRole ordered False) (fun _ _ => True)
      (reporterClient.body () x) m := by
  cases x with
  | processed id =>
    refine Safe.access_bind fun m1 h1 i1 => ⟨.refl _, i1, ?_⟩
    have hle : m1.buff.info.lastProcessedId ≤ id := by rw [h1.info]; exact he.1
    rw [Chk.require_eq hle, Prog.ofChk_pure, Prog.ret_bind]
    refine Safe.access fun m2 h2 i2 => ?_
    rw [← h2.info] at hle
    obtain ⟨hs, hi⟩ := i2.report { m2.buff.info with lastProcessedId := id }
      m2.buff.reported i2.info fun i hl => ⟨hle.trans_lt hl.1, hl.2⟩
    exact ⟨hs, hi, fun _ _ _ => trivial⟩
  | dropped b e =>
    refine Safe.access fun m1 h1 i1 => ?_
    have hproc := notifyDropped_lastProcessedId m1.buff.info b e
    obtain ⟨hs, hi⟩ := i1.report _ _ (RangesReported.notifyDropped i1.info he.1 he.2.1 he.2.2)
      fun i hl => ⟨hproc.ge.trans_lt hl.1, fun r hr => hl.2 r (List.mem_cons_of_mem _ hr)⟩
    exact ⟨hs, hi, fun _ _ _ => trivial⟩

theorem readerBody_safe {D : Discipline} {r : StringReader} {h : ℕ} {m : StringMem}
    (hr : Mapped r m) (he : readerClient.enabled r h m) :
    Safe (StringInv D) readerRole Mapped (readerClient.body r h) m := by
  obtain ⟨g, hg, rfl⟩ := he
  refine Safe.access fun m1 h1 i1 => ⟨rfl, i1, fun m2 h2 _ => ?_⟩
  obtain ⟨r', hread, hr'⟩ := i1.readStr (hr.mono h1.auxBufIdx) (h1.given.subset hg)
  rw [hread]
  exact hr'.mono h2.auxBufIdx

def stringRole (D : Discipline) (lenient : Prop) : StringThread → Role StringMem AuxAcc
  | .writer => writerRole D
  | .reporter => reporterRole D lenient
  | .reader => readerRole

def StringKnown : (t : StringThread) → StringAt t → StringMem → Prop
  | .writer => WriterKnows
  | .reporter => fun _ _ => True
  | .reader => Mapped

theorem stringFresh_inv {D : Discipline} (files : ℕ → Option AuxBuffer) (hi : D.info .fresh []) :
    StringInv D ⟨files, .fresh⟩ :=
  ⟨nofun, rfl, Nat.zero_le _, nofun, nofun, nofun, nofun, hi⟩

theorem string_compat {D : Discipline} {lenient : Prop} : ∀ t u, t ≠ u → ∀ l m m',
    StringInv D m → StringInv D m' → (stringRole D lenient t).guar l m m' →
    (stringRole D lenient u).rely m m' := by
  intro t u htu l m m' _ _ hg
  cases t with
  | writer =>
    have hg : WriterStep l m m' := hg
    cases u with
    | writer => exact absurd rfl htu
    | reporter => exact ⟨hg.info, hg.reported⟩
    | reader => exact hg.givenStep
  | reporter =>
    have hg : ReporterStep D m m' := hg
    cases u with
    | writer => exact hg
    | reporter => exact absurd rfl htu
    | reader => exact hg.givenStep
  | reader =>
    obtain rfl : m' = m := hg
    exact (stringRole D lenient u).refl m'

theorem stringStart_safe {D : Discipline} {lenient : Prop} (files : ℕ → Option AuxBuffer)
    (t : StringThread) : Safe (StringInv D) (stringRole D lenient t) (StringKnown t)
      ((stringStart files).prog t) (stringStart files).mem := by
  cases t with
  | writer =>
    intro m (hr : ReporterStep D _ m) _
    refine ⟨fun k hk => ?_, ?_⟩
    · exact absurd (hr.cur.symm.trans hk) (by simp [stringStart, StringBuffer.fresh])
    · rw [hr.given]; rfl
  | reporter => exact fun _ _ _ => trivial
  | reader => exact fun m _ _ k hk => by rcases hk with hk | hk <;> cases hk

/-- Threads that keep to a discipline. -/
structure Keeping (D : Discipline) (lenient : Prop)
    (C : (t : StringThread) → Client StringMem AuxAcc (StringAt t) (StringCall t)) : Prop where
  fresh : D.info .fresh []
  pre : ∀ t l m, (C t).allowed l m → (stringRole D lenient t).pre l m
  body : ∀ t i x m, StringInv D m → StringKnown t i m → (C t).enabled i x m →
    Safe (StringInv D) (stringRole D lenient t) (StringKnown t) ((C t).body i x) m

/-- What the pushes have returned at any point of a run is on record at any later point, where all
    is in order. -/
theorem Keeping.later {D : Discipline} {lenient : Prop}
    {C : (t : StringThread) → Client StringMem AuxAcc (StringAt t) (StringCall t)}
    (hC : Keeping D lenient C) {files : ℕ → Option AuxBuffer} {c c' : StringCfg}
    {l : List Returned} (h : Reach C (stringStart files) c) (hl : c.prog .writer = .ret l)
    (h' : Reach C c c') :
    (StringInv D c'.mem ∧
      ∀ t, Safe (StringInv D) (stringRole D lenient t) (StringKnown t) (c'.prog t) c'.mem) ∧
    ∀ p ∈ l, ∃ g ∈ c'.mem.buff.given, p = g.returned := by
  obtain ⟨hm, hs⟩ := reach_safe hC.pre string_compat hC.body (stringFresh_inv files hC.fresh)
    (stringStart_safe files) h
  have hgiven : GivenStep c.mem c'.mem := by
    refine reach_related (R := GivenStep) hC.pre string_compat hC.body GivenStep.refl
      GivenStep.trans (fun t l m m' hg => ?_) hm hs h'
    cases t with
    | writer => exact WriterStep.givenStep hg
    | reporter => exact ReporterStep.givenStep hg
    | reader => obtain rfl : m' = m := hg; exact .refl m'
  have hk : WriterKnows l c.mem := (hs .writer).at_ret hm hl
  refine ⟨reach_safe hC.pre string_compat hC.body hm hs h', fun p hp => ?_⟩
  rw [hk.2] at hp
  obtain ⟨g, hg, rfl⟩ := List.mem_map.mp hp
  exact ⟨g, hgiven.given.subset hg, rfl⟩

/-- The threads of a buffer with ids that do not decrease. -/
theorem stringClients_keeping (pg : PageSize) : Keeping ordered False (stringClients pg) where
  fresh := fun _ hr => .inl (List.eq_of_mem_replicate hr)
  pre
    | .writer, _, _, ha => ha
    | .reporter, _, _, _ => trivial
    | .reader, _, _, _ => trivial
  body
    | .writer, _, _, _, hm, hk, he =>
      (writerBody_safe hm hk he fun _ _ _ _ _ => trivial).mono fun _ _ _ h => h.1
    | .reporter, _, _, _, _, _, he => reporterBody_safe he
    | .reader, _, _, _, _, hk, he => readerBody_safe hk he

/-- Strings are not reused too early. Take what the pushes have returned at any point of any run,
    and any later point: a handle whose event is still live reads back the pushed bytes. The handle
    decodes to the place of the string, the current buffer is the last of the list, a copy stays
    within its buffer, and no assertion fails. -/
theorem strings_kept {pg : PageSize} {files : ℕ → Option AuxBuffer} {c c' : StringCfg}
    {l : List Returned} (h : Reach (stringClients pg) (stringStart files) c)
    (hl : c.prog .writer = .ret l) (h' : Reach (stringClients pg) c c') :
    (∀ p ∈ l, Live p.evid c'.mem.buff → ∀ r, c'.prog .reader = .ret r →
      ∃ rest r', r.readStr c'.mem.files p.handle = some (p.bytes ++ rest, r')) ∧
    (∀ p ∈ l, ∃ g ∈ c'.mem.buff.given, p = g.returned ∧ p.handle >>> 32 = g.idx ∧
      p.handle &&& 0xffffffff = g.off) ∧
    c'.mem.buff.age.getLast? = c'.mem.buff.cur ∧
    (∀ k n, (c'.prog .writer).next = some (.copy k n) →
      (c'.mem.file k).head + n ≤ (c'.mem.file k).size) ∧
    ∀ t, (c'.prog t).faulty = false := by
  obtain ⟨⟨hm', hs'⟩, hmem⟩ := (stringClients_keeping pg).later h hl h'
  refine ⟨fun p hp hlive r hr => ?_, fun p hp => ?_, hm'.cur, fun k n hn => ?_, fun t => ?_⟩
  · obtain ⟨g, hg, rfl⟩ := hmem p hp
    have hmap : Mapped r c'.mem := (hs' .reader).at_ret hm' hr
    exact hm'.reads hmap hg hlive
  · obtain ⟨g, hg, rfl⟩ := hmem p hp
    obtain ⟨hlt, hoff, -⟩ := hm'.given g hg
    have hidx : g.idx < 2 ^ 32 := hlt.trans_le hm'.few
    exact ⟨g, hg, rfl, handle_idx hoff hidx, handle_off hoff hidx⟩
  · obtain ⟨m'', hg⟩ := (hs' .writer).at_act hm' hn ⟨nofun, nofun⟩
    exact WriterStep.room hg k n rfl
  · exact (hs' t).not_faulty (by cases t <;> exact id)

/-- Pages of 64 bytes; `"a"` of event 1 lies in one buffer, and a string of event 2 that did not fit
    behind it in another. -/
def holdsTwo : StringCfg :=
  let body l x := ((stringClients ⟨64, by decide, by decide⟩) .writer).body l x
  let c := ((stringStart fun _ => none).begin .writer (body [] (.pushStr 1 [97]))).finish .writer
  (c.begin .writer (body [⟨0, 1, [97, 0]⟩] (.pushStrn 2 (List.replicate 79 98)))).finish .writer

theorem reach_holdsTwo :
    Reach (stringClients ⟨64, by decide, by decide⟩) (stringStart fun _ => none) holdsTwo := by
  have h0 : Reach (stringClients ⟨64, by decide, by decide⟩) (stringStart fun _ => none) _ := .start
  have h1 := h0.callIn .writer (i := []) (.pushStr 1 [97]) rfl
    ⟨by decide, Nat.zero_le _, le_rfl, by decide⟩ (by show Prog.within InBounds _ _; decide)
  exact h1.callIn .writer (i := [⟨0, 1, [97, 0]⟩]) (.pushStrn 2 (List.replicate 79 98)) rfl
    ⟨by decide, by decide +kernel, by decide, by decide⟩
    (by show Prog.within InBounds _ _; decide +kernel)

/-- Event 1 is dropped, and the next string that does not fit is written over `"a"`; the string of
    event 2 is read. -/
theorem strings_kept_two : ∃ c : StringCfg,
    Reach (stringClients ⟨64, by decide, by decide⟩) holdsTwo c ∧
    c.mem.buff.given.map (fun g => (g.evid, g.idx)) = [(1, 0), (2, 1), (3, 0)] ∧
    Live 2 c.mem.buff ∧ ∃ rest r', StringReader.readStr c.mem.files ⟨none, []⟩ (2 ^ 32) =
      some (List.replicate 79 98 ++ rest, r') := by
  have h0 : Reach (stringClients ⟨64, by decide, by decide⟩) holdsTwo holdsTwo := .start
  have hl : holdsTwo.prog .writer = .ret [⟨0, 1, [97, 0]⟩, ⟨2 ^ 32, 2, List.replicate 79 98⟩] :=
    Prog.done_eq_some.mp (by decide +kernel)
  have h1 := h0.call .reporter (i := ()) (.dropped 1 1) rfl ⟨le_rfl, le_rfl, by decide⟩
    fun _ _ => trivial
  obtain ⟨c, h2, hg, hlive, hr⟩ : ∃ c, Reach (stringClients ⟨64, by decide, by decide⟩) holdsTwo c ∧
      c.mem.buff.given.map (fun g => (g.evid, g.idx)) = [(1, 0), (2, 1), (3, 0)] ∧
      Live 2 c.mem.buff ∧ c.prog .reader = .ret ⟨none, []⟩ :=
    ⟨_, h1.callIn .writer (.pushStrn 3 (List.replicate 66 99)) hl
      ⟨by decide, by decide +kernel, by decide, by decide⟩
      (by show Prog.within InBounds _ _; decide +kernel),
      by decide +kernel, ⟨by decide +kernel, by decide +kernel⟩, rfl⟩
  exact ⟨c, h2, hg, hlive, (strings_kept reach_holdsTwo hl h2).1
    ⟨2 ^ 32, 2, List.replicate 79 98⟩ (List.mem_cons_of_mem _ (List.mem_singleton_self _)) hlive _ hr⟩

end StringMem

end Vamos
