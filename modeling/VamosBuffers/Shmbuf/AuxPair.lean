import Mathlib.Tactic
import VamosBuffers.Shmbuf.AuxRuns

/-! Two buffers with strings at once. Each counts its own auxiliary buffers from zero, and the name
    of a file is the number alone, so both buffers use the same files:

        buffer left    aux_buf_idx = 0 ──▶ "/aux.0" ◀── aux_buf_idx = 0    buffer right

    The first buffer that creates `/aux.<k>` after the other overwrites the other's header and
    strings. Nothing is reported here, so every pushed string has to stay; this is what happens in
    the runs in which only one of the two creates auxiliary buffers. -/

namespace Vamos
open Schemes

/-- One of the two buffers. -/
inductive Side where
  | left | right
  deriving DecidableEq, Repr

def Side.other : Side → Side
  | left => right
  | right => left

theorem Side.eq_other {x y : Side} (h : y ≠ x) : y = x.other := by
  cases x <;> cases y <;> first | rfl | exact absurd rfl h

/-- The two buffers, and the files they share. -/
structure PairMem where
  files : ℕ → Option AuxBuffer
  buff : Side → StringBuffer

namespace PairMem

/-- One buffer with the files. -/
def side (x : Side) : Lens PairMem StringMem where
  get m := ⟨m.files, m.buff x⟩
  set t m := ⟨t.files, Function.update m.buff x t.buff⟩
  get_set t m := by simp
  set_get m := by simp

theorem side_get_set_ne {x y : Side} (h : y ≠ x) (t : StringMem) (m : PairMem) :
    (side y).get ((side x).set t m) = ⟨t.files, m.buff y⟩ := by
  simp [side, Function.update_of_ne h]

/-! ### Threads -/

/-- Each buffer has a writer and a reader. -/
inductive PairThread where
  | writer (x : Side)
  | reader (x : Side)
  deriving DecidableEq, Repr

abbrev PairAt : PairThread → Type
  | .writer _ => List Returned
  | .reader _ => StringReader

abbrev PairCall : PairThread → Type
  | .writer _ => PushCall
  | .reader _ => ℕ

abbrev PairAcc : Type := Side × AuxAcc

abbrev PairCfg : Type := Cfg PairMem PairAcc PairAt

/-- A client of one buffer, next to the other buffer. -/
def onSide {ι κ : Type} (x : Side) (C : Client StringMem AuxAcc ι κ)
    (A : PairAcc → PairMem → Prop) : Client PairMem PairAcc ι κ where
  enabled i c m := C.enabled i c ((side x).get m)
  body i c := (C.body i c).zoom (side x) (Prod.mk x)
  allowed := A

/-- The threads, in runs whose pushes carry ids that `may` admits and whose writers keep to `A`. -/
def pairClients (pg : PageSize) (may : ℕ → ℕ → Prop) (A : PairAcc → PairMem → Prop) :
    (t : PairThread) → Client PairMem PairAcc (PairAt t) (PairCall t)
  | .writer x => onSide x (StringMem.writerClient pg may fun _ _ => True) A
  | .reader x => onSide x StringMem.readerClient fun _ _ => True

def pairStart (files : ℕ → Option AuxBuffer) : PairCfg where
  mem := ⟨files, fun _ => .fresh⟩
  prog
    | .writer _ => .ret []
    | .reader _ => .ret ⟨none, []⟩

/-- Fewer than `2 ^ 32` auxiliary buffers and offsets below `2 ^ 32`, for either buffer. -/
def PairInBounds (l : PairAcc) (m : PairMem) : Prop :=
  StringMem.InBounds l.2 ((side l.1).get m)

instance (l : PairAcc) (m : PairMem) : Decidable (PairInBounds l m) :=
  inferInstanceAs (Decidable (StringMem.InBounds _ _))

/-- An auxiliary buffer is created only while the other buffer has none. -/
def CreatesAlone (l : PairAcc) (m : PairMem) : Prop :=
  PairInBounds l m ∧ (l.2 = .create → (m.buff l.1.other).auxBufIdx = 0)

instance (l : PairAcc) (m : PairMem) : Decidable (CreatesAlone l m) :=
  inferInstanceAs (Decidable (_ ∧ _))

/-! ### Nothing is reported -/

/-- Without reports nothing is free, except a buffer of strings of event 0. -/
def quiet : Discipline where
  may _ evid := 1 ≤ evid ∧ evid < 2 ^ 64
  info info reported := info.lastProcessedId = 0 ∧ (∀ r ∈ info.droppedRanges, r.last = 0) ∧
    reported = []
  covers _ last _ := last ≠ 0
  free_dead := by
    rintro b ab i ⟨hproc, hranges, -⟩ hlast hfree -
    rcases hfree with hp | hd
    · omega
    · obtain ⟨r, hr, hx⟩ := List.any_eq_true.mp hd
      simp [hranges r hr] at hx
  older := by
    rintro lastEvid evid first last i ⟨hpos, -⟩ - - -
    omega
  newer := by
    rintro lastEvid evid first ⟨hpos, -⟩ -
    omega

/-- Both buffers are in order, and at most one of them has auxiliary buffers. -/
structure PairInv (m : PairMem) : Prop where
  sides : ∀ x, StringMem.StringInv quiet ((side x).get m)
  alone : ∀ x y, x ≠ y → (m.buff x).auxBufIdx = 0 ∨ (m.buff y).auxBufIdx = 0

/-- A buffer without auxiliary buffers does not depend on the files. -/
theorem stringInv_of_none {files files' : ℕ → Option AuxBuffer} {b : StringBuffer}
    (h : StringMem.StringInv quiet ⟨files, b⟩) (h0 : b.auxBufIdx = 0) :
    StringMem.StringInv quiet ⟨files', b⟩ := by
  have hno : ∀ k, ¬ k < b.auxBufIdx := by rw [h0]; exact Nat.not_lt_zero
  exact ⟨h.age, h.cur, h.few, fun k hk => absurd hk (hno k), fun k hk => absurd hk (hno k),
    h.given, fun g hg _ => absurd (h.given g hg).1 (hno _), h.info⟩

/-- What a writer does: a step of its own buffer, the other's record untouched. -/
structure PairWriterStep (x : Side) (l : PairAcc) (m m' : PairMem) : Prop where
  own : StringMem.WriterStep l.2 ((side x).get m) ((side x).get m')
  other : ∀ y, y ≠ x → m'.buff y = m.buff y

def writerRole (x : Side) : Role PairMem PairAcc where
  rely m m' := StringMem.ReporterStep quiet ((side x).get m) ((side x).get m')
  guar := PairWriterStep x
  refl _ := .refl _
  trans h h' := h.trans h'
  pre l m := l.1 = x → CreatesAlone l m

def readerRole (x : Side) : Role PairMem PairAcc where
  rely m m' := StringMem.GivenStep ((side x).get m) ((side x).get m')
  guar _ m m' := m' = m
  refl _ := .refl _
  trans h h' := h.trans h'

/-- A step of one writer keeps the other buffer: it changes files only when the other has none. -/
theorem PairInv.set {m : PairMem} (h : PairInv m) {x : Side} {l : AuxAcc} {t : StringMem}
    (hp : CreatesAlone (x, l) m) (ht : StringMem.StringInv quiet t)
    (hg : StringMem.WriterStep l ((side x).get m) t) : PairInv ((side x).set t m) := by
  have halone : t.buff.auxBufIdx = 0 ∨ ∀ y, y ≠ x → (m.buff y).auxBufIdx = 0 := by
    by_cases hl : l = .create
    · exact .inr fun y hy => Side.eq_other hy ▸ hp.2 hl
    · rcases Nat.eq_zero_or_pos t.buff.auxBufIdx with h0 | h0
      · exact .inl h0
      · have hx : (m.buff x).auxBufIdx ≠ 0 := by
          have := hg.auxBufIdx hl
          simp only [side] at this
          omega
        exact .inr fun y hy => (h.alone x y (Ne.symm hy)).resolve_left hx
  have hbuff : ∀ {y}, y ≠ x → ((side x).set t m).buff y = m.buff y :=
    fun hy => Function.update_of_ne hy _ _
  have hself : ((side x).set t m).buff x = t.buff := Function.update_self ..
  refine ⟨fun y => ?_, fun y z hyz => ?_⟩
  · by_cases hy : y = x
    · subst hy; rw [(side y).get_set]; exact ht
    · rw [side_get_set_ne hy]
      rcases halone with h0 | h0
      · rw [hg.files h0]; exact h.sides y
      · exact stringInv_of_none (h.sides y) (h0 y hy)
  · by_cases hy : y = x
    · subst hy
      rw [hself, hbuff (Ne.symm hyz)]
      exact halone.imp_right fun h0 => h0 z (Ne.symm hyz)
    · by_cases hz : z = x
      · subst hz
        rw [hself, hbuff hy]
        exact (halone.imp_right fun h0 => h0 y hy).symm
      · rw [hbuff hy, hbuff hz]; exact h.alone y z hyz

/-- What the writer of a buffer was returned, and that no string has id 0. -/
def PairKnown : (t : PairThread) → PairAt t → PairMem → Prop
  | .writer x => fun l m => StringMem.WriterKnows l ((side x).get m) ∧ ∀ p ∈ l, 1 ≤ p.evid
  | .reader x => fun r m => StringMem.Mapped r ((side x).get m)

theorem writerBody_safe {pg : PageSize} {x : Side} {l : List Returned} {c : PushCall} {m : PairMem}
    (hm : PairInv m) (hk : PairKnown (.writer x) l m)
    (he : (pairClients pg quiet.may CreatesAlone (.writer x)).enabled l c m) :
    Safe PairInv (writerRole x) (PairKnown (.writer x))
      ((pairClients pg quiet.may CreatesAlone (.writer x)).body l c) m := by
  have he' : (StringMem.writerClient pg quiet.may fun _ _ => True).enabled l c ((side x).get m) := he
  have hb := StringMem.writerBody_safe (hm.sides x) hk.1 he' fun _ _ _ _ _ => trivial
  have hz := Safe.zoom (I := PairInv) (ρ := writerRole x) (L := side x) (φ := Prod.mk x)
    (s := m) (fun _ => True) (fun m' i => i.sides x) (fun m' m'' _ hr _ => hr)
    (fun l' m' hp => (hp rfl).1) (fun _ _ _ _ _ => trivial) ?_ id trivial hb
  · refine hz.mono fun l' m' _ hq => ?_
    obtain ⟨⟨hw, y, rfl, hy⟩, -⟩ := hq
    refine ⟨hw, fun p hp => ?_⟩
    rcases List.mem_append.mp hp with hp | hp
    · exact hk.2 p hp
    · rw [List.mem_singleton.mp hp, hy]; exact he'.2.1
  · intro l' m' t hp _ hi ht hg
    refine ⟨⟨?_, fun y hy => Function.update_of_ne hy _ _⟩, hi.set (hp rfl) ht hg, trivial⟩
    rw [(side x).get_set]; exact hg

theorem readerBody_safe {pg : PageSize} {x : Side} {r : StringReader} {h : ℕ} {m : PairMem}
    (hk : PairKnown (.reader x) r m)
    (he : (pairClients pg quiet.may CreatesAlone (.reader x)).enabled r h m) :
    Safe PairInv (readerRole x) (PairKnown (.reader x))
      ((pairClients pg quiet.may CreatesAlone (.reader x)).body r h) m := by
  have hb := StringMem.readerBody_safe (D := quiet) hk he
  have hz := Safe.zoom (I := PairInv) (ρ := readerRole x) (L := side x) (φ := Prod.mk x)
    (s := m) (fun _ => True) (fun m' i => i.sides x) (fun m' m'' _ hr _ => hr)
    (fun _ _ _ => trivial) (fun _ _ _ _ _ => trivial) ?_ id trivial hb
  · exact hz.mono fun _ _ _ hq => hq.1
  · intro l' m' t _ _ hi _ hg
    obtain rfl : t = (side x).get m' := hg
    rw [(side x).set_get]
    exact ⟨rfl, hi, trivial⟩

/-! ### Runs -/

def role : PairThread → Role PairMem PairAcc
  | .writer x => writerRole x
  | .reader x => readerRole x

theorem pair_pre {pg : PageSize} : ∀ t l m,
    (pairClients pg quiet.may CreatesAlone t).allowed l m → (role t).pre l m
  | .writer _, _, _, ha => fun _ => ha
  | .reader _, _, _, _ => trivial

theorem pair_compat : ∀ t u, t ≠ u → ∀ l m m', PairInv m → PairInv m' →
    (role t).guar l m m' → (role u).rely m m' := by
  intro t u htu l m m' hm hm' hg
  cases t with
  | reader x =>
    obtain rfl : m' = m := hg
    exact (role u).refl m'
  | writer x =>
    have hg : PairWriterStep x l m m' := hg
    cases u with
    | writer y =>
      have hy : y ≠ x := fun h => htu (by rw [h])
      have hb : m'.buff y = m.buff y := hg.other y hy
      refine ⟨congrArg _ hb, congrArg _ hb, congrArg _ hb, congrArg _ hb, congrArg _ hb,
        fun h0 => ?_, fun i hl => ?_⟩
      -- if the other buffer uses the files, this one has none and leaves them alone
      · have hpos : (m'.buff y).auxBufIdx ≠ 0 := by rw [hb]; exact h0.ne'
        exact hg.own.files ((hm'.alone x y (Ne.symm hy)).resolve_right hpos)
      · have hl : quiet.Keeps i (m'.buff y) := hl
        rw [hb] at hl
        exact hl
    | reader y =>
      by_cases hy : y = x
      · subst hy; exact hg.own.givenStep
      · have hb : m'.buff y = m.buff y := hg.other y hy
        exact ⟨(congrArg StringBuffer.auxBufIdx hb).ge, (congrArg StringBuffer.given hb) ▸
          List.prefix_rfl⟩

theorem pair_body {pg : PageSize} : ∀ t i x m, PairInv m → PairKnown t i m →
    (pairClients pg quiet.may CreatesAlone t).enabled i x m →
    Safe PairInv (role t) (PairKnown t) ((pairClients pg quiet.may CreatesAlone t).body i x) m
  | .writer _, _, _, _, hm, hk, he => writerBody_safe hm hk he
  | .reader _, _, _, _, _, hk, he => readerBody_safe hk he

theorem pairStart_inv (files : ℕ → Option AuxBuffer) : PairInv (pairStart files).mem :=
  ⟨fun _ => ⟨nofun, rfl, Nat.zero_le _, nofun, nofun, nofun, nofun, rfl,
    fun _ hr => by rw [List.eq_of_mem_replicate hr], rfl⟩, fun _ _ _ => .inl rfl⟩

theorem pairStart_safe (files : ℕ → Option AuxBuffer) (t : PairThread) :
    Safe PairInv (role t) (PairKnown t) ((pairStart files).prog t) (pairStart files).mem := by
  cases t with
  | writer x =>
    intro m (hr : StringMem.ReporterStep quiet _ ((side x).get m)) _
    refine ⟨⟨fun k hk => ?_, ?_⟩, nofun⟩
    · exact absurd (hr.cur.symm.trans hk) (by simp [pairStart, side, StringBuffer.fresh])
    · rw [hr.given]; rfl
  | reader x => exact fun m _ _ k hk => by rcases hk with hk | hk <;> cases hk

/-- Strings of two buffers stay apart when only one of the buffers creates auxiliary buffers: what
    the pushes on a buffer have returned at any point of the run reads back at any later point. -/
theorem strings_apart {pg : PageSize} {files : ℕ → Option AuxBuffer} {c c' : PairCfg} {x : Side}
    {l : List Returned}
    (h : Reach (pairClients pg quiet.may CreatesAlone) (pairStart files) c)
    (hl : c.prog (.writer x) = .ret l)
    (h' : Reach (pairClients pg quiet.may CreatesAlone) c c') :
    ∀ p ∈ l, ∀ r, c'.prog (.reader x) = .ret r →
      ∃ rest r', r.readStr c'.mem.files p.handle = some (p.bytes ++ rest, r') := by
  obtain ⟨hm, hs⟩ := reach_safe (I := PairInv) (ρ := role) (Q := PairKnown)
    pair_pre pair_compat pair_body (pairStart_inv files) (pairStart_safe files) h
  obtain ⟨hm', hs'⟩ := reach_safe pair_pre pair_compat pair_body hm hs h'
  have hgiven : (c.mem.buff x).given <+: (c'.mem.buff x).given := by
    refine reach_related (R := fun m m' => (m.buff x).given <+: (m'.buff x).given) pair_pre
      pair_compat pair_body (fun _ => List.prefix_rfl) List.IsPrefix.trans
      (fun t l m m' hg => ?_) hm hs h'
    cases t with
    | writer y =>
      have hg : PairWriterStep y l m m' := hg
      by_cases hy : x = y
      · subst hy; exact hg.own.given
      · rw [hg.other x hy]
    | reader y => obtain rfl : m' = m := hg; exact List.prefix_rfl
  have hk : PairKnown (.writer x) l c.mem := (hs (.writer x)).at_ret hm hl
  intro p hp r hr
  have hpos := hk.2 p hp
  rw [hk.1.2] at hp
  obtain ⟨g, hg, rfl⟩ := List.mem_map.mp hp
  have hmap : StringMem.Mapped r ((side x).get c'.mem) := (hs' (.reader x)).at_ret hm' hr
  have hi := hm'.sides x
  refine hi.reads hmap (hgiven.subset hg) ⟨?_, ?_⟩
  · rw [hi.info.1]; exact hpos
  · rw [hi.info.2.2]; exact nofun

/-- The left buffer has a string, the right one has none. -/
theorem strings_apart_one : ∃ c : PairCfg,
    Reach (pairClients ⟨4096, by decide, by decide⟩ quiet.may CreatesAlone)
      (pairStart fun _ => none) c ∧
    c.prog (.writer .left) = .ret [⟨0, 1, [97, 0]⟩] ∧ c.prog (.reader .left) = .ret ⟨none, []⟩ ∧
    ∃ rest r', StringReader.readStr c.mem.files ⟨none, []⟩ 0 = some ([97, 0] ++ rest, r') := by
  have h0 : Reach (pairClients ⟨4096, by decide, by decide⟩ quiet.may CreatesAlone)
    (pairStart fun _ => none) _ := .start
  have h1 := h0.callIn (.writer .left) (i := []) (.pushStr 1 [97]) rfl
    ⟨by decide, le_rfl, by decide⟩ (by show Prog.within CreatesAlone _ _; decide)
  exact ⟨_, h1, rfl, rfl, strings_apart h1 (x := .left) (l := [⟨0, 1, [97, 0]⟩]) rfl .start _
    (List.mem_singleton_self _) ⟨none, []⟩ rfl⟩

/-- Both buffers push a string: the second overwrites the first. -/
theorem strings_clash : ¬ ∀ c : PairCfg,
    Reach (pairClients ⟨4096, by decide, by decide⟩ quiet.may PairInBounds)
      (pairStart fun _ => none) c →
    ∀ x l, c.prog (.writer x) = .ret l → ∀ p ∈ l, ∀ r, c.prog (.reader x) = .ret r →
      ∃ rest r', r.readStr c.mem.files p.handle = some (p.bytes ++ rest, r') := by
  intro hall
  have h0 : Reach (pairClients ⟨4096, by decide, by decide⟩ quiet.may PairInBounds)
    (pairStart fun _ => none) _ := .start
  have h1 := h0.callIn (.writer .left) (i := []) (.pushStr 1 [97]) rfl
    ⟨by decide, le_rfl, by decide⟩ (by show Prog.within PairInBounds _ _; decide)
  have h2 := h1.callIn (.writer .right) (i := []) (.pushStr 1 [98]) rfl
    ⟨by decide, le_rfl, by decide⟩ (by show Prog.within PairInBounds _ _; decide)
  obtain ⟨rest, r', hr⟩ := hall _ h2 .left [⟨0, 1, [97, 0]⟩] rfl _ (List.mem_singleton_self _)
    ⟨none, []⟩ rfl
  have hhead := congrArg (Option.map fun y : Bytes × StringReader => y.1.head?) hr
  have h97 : some (some (98 : UInt8)) = some (some 97) := hhead
  exact absurd h97 (by decide)

end PairMem

end Vamos
