import Mathlib.Tactic
import VamosBuffers.Shmbuf.AuxRuns

/-! Strings that are never to be given up: `evid may be ~(0LL), but then there's no garbage
    collection`. A buffer whose last id is `~0` is never found free, for no processed id and no
    dropped range reaches that far. But a buffer shows only its last id:

        push ~0 "a"       | a |        last = ~0      kept for good
        push  1 "b"       | a | b |    last = 1       free as soon as event 1 is processed

    So the promise is kept exactly as long as no other id is pushed behind such a string. The ids of
    the pushes are arbitrary here, and so are the reports. -/

namespace Vamos
open Schemes

/-- What is reported lies below `~0`. -/
def ReportsBelow (info : ShmInfo) : Prop :=
  info.lastProcessedId < AuxBuffer.noId ∧ ∀ r ∈ info.droppedRanges, r.last < AuxBuffer.noId

theorem ReportsBelow.not_free {info : ShmInfo} (h : ReportsBelow info) {ab : AuxBuffer}
    (hl : ab.lastEventId = AuxBuffer.noId) :
    ¬ (ab.lastEventId ≤ info.lastProcessedId ∨ ab.wasDropped info.droppedRanges = true) := by
  rintro (hp | hd)
  · have hlt := h.1
    omega
  · obtain ⟨r, hr, hx⟩ := List.any_eq_true.mp hd
    have hlt := h.2 r hr
    simp only [Bool.and_eq_true, decide_eq_true_eq] at hx
    omega

theorem ReportsBelow.notifyDropped {info : ShmInfo} (h : ReportsBelow info) {b e : ℕ}
    (he : e < AuxBuffer.noId) : ReportsBelow (info.notifyDropped b e) := by
  have hset : ∀ (idx : ℕ) (x : DroppedRange), x.last = e →
      ∀ r ∈ info.droppedRanges.set idx x, r.last < AuxBuffer.noId := by
    rintro idx x hx r hr
    rcases List.mem_or_eq_of_mem_set hr with hr | rfl
    · exact h.2 r hr
    · rw [hx]; exact he
  refine ⟨?_, ?_⟩
  · rw [StringMem.notifyDropped_lastProcessedId]
    exact h.1
  · dsimp only [ShmInfo.notifyDropped]
    split
    · exact hset _ _ rfl
    · exact hset _ _ rfl

/-- The strings with the id `~0` are kept; no other id may go behind one of them. -/
def pinned : Discipline where
  may _ evid := evid < 2 ^ 64
  behind evid i := i = AuxBuffer.noId → evid = AuxBuffer.noId
  live i _ _ := i = AuxBuffer.noId
  info info _ := ReportsBelow info
  covers _ last i := i = AuxBuffer.noId → last = AuxBuffer.noId
  free_dead := fun hinfo hcov hfree hi => hinfo.not_free (hcov hi) hfree
  older := fun _ hb _ _ => hb
  newer := fun _ _ h => h

namespace StringMem

/-! ### Threads -/

/-- A string with another id is not put behind one with the id `~0`: if it fits into the current
    buffer, that buffer holds no such string. -/
def Apart (x : PushCall) (m : StringMem) : Prop :=
  x.evid ≠ AuxBuffer.noId → ∀ k ∈ m.buff.cur,
    (m.file k).head + x.bytes.length ≤ (m.file k).size →
    ∀ g ∈ m.buff.given, g.idx = k → g.evid ≠ AuxBuffer.noId

instance (x : PushCall) (m : StringMem) : Decidable (Apart x m) :=
  inferInstanceAs (Decidable (_ → ∀ k ∈ m.buff.cur, _ → _))

/-- The writer pushes strings with any ids, or only such that are kept `apart`. -/
def pinWriter (pg : PageSize) (apart : Prop) :
    Client StringMem AuxAcc (List Returned) PushCall where
  enabled _ x m := x.bytes.length < 2 ^ 63 ∧ x.evid < 2 ^ 64 ∧ (apart → Apart x m)
  body := (writerClient pg (fun _ evid => evid < 2 ^ 64) InBounds).body
  allowed := InBounds

/-- The reporter may report anything below `~0`, in any order. -/
def pinReporter : Client StringMem AuxAcc Unit ReportCall where
  enabled _ x _ := match x with
    | .processed id => id < AuxBuffer.noId
    | .dropped b e => b ≤ e ∧ e < AuxBuffer.noId
  body := reporterClient.body

/-- The threads, in runs with fewer than `2 ^ 32` auxiliary buffers and offsets below `2 ^ 32`. -/
def pinClients (pg : PageSize) (apart : Prop) :
    (t : StringThread) → Client StringMem AuxAcc (StringAt t) (StringCall t)
  | .writer => pinWriter pg apart
  | .reporter => pinReporter
  | .reader => readerClient

theorem Apart.goesBehind {x : PushCall} {m : StringMem} (h : Apart x m) :
    GoesBehind pinned x.evid x.bytes.length m := by
  rintro k ⟨hcur, hroom⟩ g hg hgk hi
  by_contra hne
  exact h hne k hcur hroom g hg hgk hi

/-- A report changes nothing for the strings with the id `~0`. -/
theorem pinReporter_safe {x : ReportCall} {m : StringMem} (he : pinReporter.enabled () x m) :
    Safe (StringInv pinned) (reporterRole pinned True) (fun _ _ => True)
      (pinReporter.body () x) m := by
  cases x with
  | processed id =>
    refine Safe.access_bind fun m1 h1 i1 => ⟨.refl _, i1, Safe.ofChk_bind trivial ?_⟩
    refine Safe.access fun m2 h2 i2 => ?_
    obtain ⟨hs, hi⟩ := i2.report { m2.buff.info with lastProcessedId := id } m2.buff.reported
      ⟨he, i2.info.2⟩ fun _ hl => hl
    exact ⟨hs, hi, fun _ _ _ => trivial⟩
  | dropped b e =>
    refine Safe.access fun m1 h1 i1 => ?_
    obtain ⟨hs, hi⟩ := i1.report _ _ (ReportsBelow.notifyDropped i1.info he.2) fun _ hl => hl
    exact ⟨hs, hi, fun _ _ _ => trivial⟩

theorem pinClients_keeping (pg : PageSize) : Keeping pinned True (pinClients pg True) where
  fresh := ⟨by decide, by decide⟩
  pre
    | .writer, _, _, ha => ha
    | .reporter, _, _, _ => trivial
    | .reader, _, _, _ => trivial
  body
    | .writer, _, x, _, hm, hk, he =>
      (writerBody_safe (D := pinned) (A := InBounds) hm hk ⟨he.1, he.2.1⟩
        (he.2.2 trivial).goesBehind).mono fun _ _ _ h => h.1
    | .reporter, _, _, _, _, _, he => pinReporter_safe he
    | .reader, _, _, _, _, hk, he => readerBody_safe hk he

/-! ### Runs -/

/-- In the runs in which no other id is put behind a string with the id `~0`, whatever else is
    pushed and reported: a handle that was returned for such a string at any point of the run reads
    back the pushed bytes at any later point. -/
theorem pinned_kept {pg : PageSize} {files : ℕ → Option AuxBuffer} {c c' : StringCfg}
    {l : List Returned} (h : Reach (pinClients pg True) (stringStart files) c)
    (hl : c.prog .writer = .ret l) (h' : Reach (pinClients pg True) c c') :
    ∀ p ∈ l, p.evid = 2 ^ 64 - 1 → ∀ r, c'.prog .reader = .ret r →
      ∃ rest r', r.readStr c'.mem.files p.handle = some (p.bytes ++ rest, r') := by
  obtain ⟨⟨hm, hs⟩, hmem⟩ := (pinClients_keeping pg).later h hl h'
  intro p hp hid r hr
  obtain ⟨g, hg, rfl⟩ := hmem p hp
  have hmap : Mapped r c'.mem := (hs .reader).at_ret hm hr
  exact hm.reads hmap hg hid

section Calls

variable {pg : PageSize} {apart : Prop} {c₀ c : StringCfg}

/-- A push made alone. -/
theorem reach_push (h : Reach (pinClients pg apart) c₀ c) {l : List Returned} (x : PushCall)
    (hp : c.prog .writer = .ret l) (hlen : x.bytes.length < 2 ^ 63) (hid : x.evid < 2 ^ 64)
    (ha : apart → Apart x c.mem) (hw : ((pinWriter pg True).body l x).within InBounds c.mem) :
    Reach (pinClients pg apart) c₀
      ((c.begin .writer ((pinWriter pg True).body l x)).finish .writer) :=
  h.callIn .writer (i := l) x hp ⟨hlen, hid, ha⟩ hw

/-- A report made alone. -/
theorem reach_processed (h : Reach (pinClients pg apart) c₀ c) (id : ℕ)
    (hp : c.prog .reporter = .ret ()) (hid : id < AuxBuffer.noId) :
    Reach (pinClients pg apart) c₀
      ((c.begin .reporter (setLastProcessedId id)).finish .reporter) :=
  h.call .reporter (i := ()) (.processed id) hp hid fun _ _ => trivial

end Calls

/-- Pages of 4096 bytes; `"a"` has been pushed with the id `~0`, into a buffer of 8144 bytes. -/
def holdsA : StringCfg :=
  ((stringStart fun _ => none).begin .writer ((pinWriter ⟨4096, by decide, by decide⟩ True).body []
    (.pushStr (2 ^ 64 - 1) [97]))).finish .writer

theorem reach_holdsA (apart : Prop) :
    Reach (pinClients ⟨4096, by decide, by decide⟩ apart) (stringStart fun _ => none) holdsA :=
  reach_push .start (.pushStr (2 ^ 64 - 1) [97]) rfl (by decide) (by decide)
    (fun _ hne => absurd rfl hne) (by decide)

theorem holdsA_returned : holdsA.prog .writer = .ret [⟨0, 2 ^ 64 - 1, [97, 0]⟩] :=
  Prog.done_eq_some.mp (by decide +kernel)

/-- Everything is processed up to event 5, and a string comes that does not fit behind `"a"`: it and
    the next one go to a new buffer, and `"a"` can still be read. -/
theorem pinned_kept_a : ∃ c : StringCfg,
    Reach (pinClients ⟨4096, by decide, by decide⟩ True) holdsA c ∧
    c.mem.buff.given.map (fun g => (g.evid, g.idx)) = [(2 ^ 64 - 1, 0), (1, 1), (2, 1)] ∧
    ∃ rest r', StringReader.readStr c.mem.files ⟨none, []⟩ 0 = some ([97, 0] ++ rest, r') := by
  have h0 : Reach (pinClients ⟨4096, by decide, by decide⟩ True) holdsA holdsA := .start
  have h1 := reach_processed h0 5 rfl (by decide)
  have h2 := reach_push h1 (.pushStrn 1 (List.replicate 8143 98)) rfl
    (by rw [PushCall.bytes, List.length_replicate]; decide) (by decide) (fun _ => by decide +kernel)
    (by decide +kernel)
  have h3 := reach_push h2 (.pushStr 2 [99]) rfl (by decide) (by decide)
    (fun _ => by decide +kernel) (by decide +kernel)
  exact ⟨_, h3, by decide +kernel, pinned_kept (reach_holdsA True) holdsA_returned h3 _
    (List.mem_singleton_self _) rfl ⟨none, []⟩ rfl⟩

/-- A string of event 1 is put behind `"a"`; when event 1 has been processed, the next string that
    does not fit behind the two is written over them. -/
theorem pinned_lost : ¬ ∀ (c c' : StringCfg) (l : List Returned),
    Reach (pinClients ⟨4096, by decide, by decide⟩ False) (stringStart fun _ => none) c →
    c.prog .writer = .ret l → Reach (pinClients ⟨4096, by decide, by decide⟩ False) c c' →
    ∀ p ∈ l, p.evid = 2 ^ 64 - 1 → ∀ r, c'.prog .reader = .ret r →
      ∃ rest r', r.readStr c'.mem.files p.handle = some (p.bytes ++ rest, r') := by
  intro hall
  have h0 : Reach (pinClients ⟨4096, by decide, by decide⟩ False) holdsA holdsA := .start
  have h1 := reach_push h0 (.pushStr 1 [98]) rfl (by decide) (by decide) False.elim
    (by decide +kernel)
  have h2 := reach_processed h1 1 rfl (by decide)
  have h3 := reach_push h2 (.pushStrn 2 (List.replicate 8144 99)) rfl
    (by rw [PushCall.bytes, List.length_replicate]; decide) (by decide) False.elim
    (by decide +kernel)
  obtain ⟨rest, r', hr⟩ := hall _ _ _ (reach_holdsA False) holdsA_returned h3 _
    (List.mem_singleton_self _) rfl ⟨none, []⟩ rfl
  -- the memory begins with the third string
  have hhead := congrArg (Option.map fun y : Bytes × StringReader => y.1.head?) hr
  simp only [List.cons_append, Option.map_some, List.head?_cons] at hhead
  revert hhead
  decide +kernel

end StringMem

end Vamos
