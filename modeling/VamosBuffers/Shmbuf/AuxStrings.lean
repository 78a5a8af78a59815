import Mathlib.Tactic
import VamosBuffers.Shmbuf.BufferAux

/-! Strings stay readable while they are live. A string of event `i` is live until `i` has been
    processed or reported dropped, and both are for good, so it is enough that a buffer is emptied
    only when every string in it is dead. The buffer's two ids stand for all its strings:

        covers first last i      while the buffer shows these ids and is found free, `i` is dead

    What the ids cover depends on which ids the pushes carry, and which of them share a buffer; a
    `Discipline` says so, and everything else is proved once. -/

namespace Vamos
open Schemes

/-- An event whose strings must stay readable. -/
def Live (i : ℕ) (b : StringBuffer) : Prop :=
  b.info.lastProcessedId < i ∧ ∀ r ∈ b.reported, ¬ (r.first ≤ i ∧ i ≤ r.last)

/-- The ids a run's pushes carry, which strings they go behind, what is reported, and which strings
    are to be kept; and what a buffer's ids then cover. -/
structure Discipline where
  may : (lastEvid evid : ℕ) → Prop
  behind : (evid i : ℕ) → Prop := fun _ _ => True
  live : ℕ → ShmInfo → List DroppedRange → Prop := fun i info reported =>
    info.lastProcessedId < i ∧ ∀ r ∈ reported, ¬ (r.first ≤ i ∧ i ≤ r.last)
  info : ShmInfo → List DroppedRange → Prop
  covers : (first last i : ℕ) → Prop
  free_dead : ∀ {b : StringBuffer} {ab : AuxBuffer} {i : ℕ}, info b.info b.reported →
    covers ab.firstEventId ab.lastEventId i →
    ab.lastEventId ≤ b.info.lastProcessedId ∨ ab.wasDropped b.info.droppedRanges = true →
    ¬ live i b.info b.reported
  older : ∀ {lastEvid evid first last i : ℕ}, may lastEvid evid → behind evid i → i ≤ lastEvid →
    covers first last i → covers (if first = 0 then evid else first) evid i
  newer : ∀ {lastEvid evid first : ℕ}, may lastEvid evid → first ≤ lastEvid →
    covers (if first = 0 then evid else first) evid evid

/-- A string of event `i` is to be kept. -/
def Discipline.Keeps (D : Discipline) (i : ℕ) (b : StringBuffer) : Prop :=
  D.live i b.info b.reported

/-! ### Bytes and handles -/

/-- The bytes `s` lie at `off`. -/
def Reads (data : Bytes) (off : ℕ) (s : Bytes) : Prop := (data.drop off).take s.length = s

theorem memcpy_length {data s : Bytes} {off : ℕ} (h : off + s.length ≤ data.length) :
    (AuxBuffer.memcpy data off s).length = data.length := by
  simp only [AuxBuffer.memcpy, List.length_append, List.length_take, List.length_drop]
  omega

/-- What was copied can be read back. -/
theorem reads_memcpy {data s : Bytes} {off : ℕ} (h : off + s.length ≤ data.length) :
    Reads (AuxBuffer.memcpy data off s) off s := by
  have hl : (data.take off).length = off := by rw [List.length_take]; omega
  unfold Reads AuxBuffer.memcpy
  rw [List.append_assoc, List.drop_append_of_le_length hl.ge, List.drop_of_length_le hl.le,
    List.nil_append, List.take_append_of_le_length le_rfl, List.take_length]

/-- Copying further on leaves a string as it is. -/
theorem Reads.memcpy {data s t : Bytes} {off off' : ℕ} (h : Reads data off s)
    (hle : off + s.length ≤ off') (hlen : off' ≤ data.length) :
    Reads (AuxBuffer.memcpy data off' t) off s := by
  have hl : (data.take off').length = off' := by rw [List.length_take]; omega
  unfold Reads AuxBuffer.memcpy at *
  rw [List.append_assoc, List.drop_append_of_le_length (by omega),
    List.take_append_of_le_length (by rw [List.length_drop]; omega), List.drop_take,
    List.take_take, min_eq_left (by omega)]
  exact h

/-- The handle is the two halves of a word. -/
theorem handle_eq {off idx : ℕ} (ho : off < 2 ^ 32) (hi : idx < 2 ^ 32) :
    StringMem.handle off idx = idx * 2 ^ 32 + off := by
  have hs : idx <<< 32 = idx * 2 ^ 32 := Nat.shiftLeft_eq _ _
  have hm : idx <<< 32 % 2 ^ 64 = idx <<< 32 := Nat.mod_eq_of_lt (by rw [hs]; omega)
  unfold StringMem.handle
  rw [hm, Nat.or_comm, ← Nat.shiftLeft_add_eq_or_of_lt ho, hs]

theorem handle_idx {off idx : ℕ} (ho : off < 2 ^ 32) (hi : idx < 2 ^ 32) :
    StringMem.handle off idx >>> 32 = idx := by
  rw [handle_eq ho hi, Nat.shiftRight_eq_div_pow]
  omega

theorem handle_off {off idx : ℕ} (ho : off < 2 ^ 32) (hi : idx < 2 ^ 32) :
    StringMem.handle off idx &&& 0xffffffff = off := by
  have hm : (0xffffffff : ℕ) = 2 ^ 32 - 1 := by norm_num
  rw [handle_eq ho hi, hm, Nat.and_two_pow_sub_one_eq_mod]
  omega

/-- Putting the index in twice changes nothing. -/
theorem handle_twice {off idx : ℕ} :
    StringMem.handle (StringMem.handle off idx) idx = StringMem.handle off idx := by
  unfold StringMem.handle
  rw [Nat.or_assoc, Nat.or_self]

/-- A new file has room for the string it is made for. -/
theorem fileSize_room (pg : PageSize) {size : ℕ} (hs : size < 2 ^ 63) :
    size ≤ AuxBuffer.fileSize pg size - AuxBuffer.headerSize ∧ AuxBuffer.fileSize pg size < 2 ^ 64 := by
  have hp := pg.pos
  have hle := pg.le
  have hx : (size + AuxBuffer.headerSize) % 2 ^ 64 = size + AuxBuffer.headerSize :=
    Nat.mod_eq_of_lt (by unfold AuxBuffer.headerSize; omega)
  have hd := Nat.div_add_mod (size + AuxBuffer.headerSize) pg.bytes
  have hm := Nat.mod_lt (size + AuxBuffer.headerSize) hp
  have he : ((size + AuxBuffer.headerSize) / pg.bytes + 2) * pg.bytes =
      pg.bytes * ((size + AuxBuffer.headerSize) / pg.bytes) + 2 * pg.bytes := by ring
  unfold AuxBuffer.fileSize
  rw [hx, he]
  unfold AuxBuffer.headerSize at *
  generalize pg.bytes * ((size + 48) / pg.bytes) = q at *
  rw [Nat.mod_eq_of_lt (by omega)]
  omega

theorem truncate_length (data : Bytes) (n : ℕ) : (AuxBuffer.truncate data n).length = n := by
  simp only [AuxBuffer.truncate, List.length_append, List.length_take, List.length_replicate]
  omega

/-! ### The invariant -/

/-- What is always true of the memory of buffer `k`. -/
structure Sound (k lastEvid : ℕ) (ab : AuxBuffer) : Prop where
  idx : ab.idx = k
  head : ab.head ≤ ab.size
  data : ab.data.length = ab.size
  max : ab.size < 2 ^ 64
  first : ab.firstEventId ≤ lastEvid
  empty : ab.reusable = true → ab.head = 0

theorem Sound.mono {k n n' : ℕ} {ab : AuxBuffer} (h : Sound k n ab) (hle : n ≤ n') :
    Sound k n' ab := ⟨h.idx, h.head, h.data, h.max, h.first.trans hle, h.empty⟩

namespace StringMem

variable (D : Discipline)

/-- A pushed string is where its handle says. -/
structure Kept (g : Given) (ab : AuxBuffer) : Prop where
  covers : D.covers ab.firstEventId ab.lastEventId g.evid
  below : g.off + g.bytes.length ≤ ab.head
  reads : Reads ab.data g.off g.bytes
  used : ab.reusable = false

/-- Every pushed string that is live is kept, and the writer's bookkeeping is in order. -/
structure StringInv (m : StringMem) : Prop where
  age : ∀ k ∈ m.buff.age, k < m.buff.auxBufIdx
  cur : m.buff.age.getLast? = m.buff.cur
  few : m.buff.auxBufIdx ≤ 2 ^ 32
  files : ∀ k < m.buff.auxBufIdx, (m.files k).isSome = true
  sound : ∀ k < m.buff.auxBufIdx, Sound k m.buff.lastEvid (m.file k)
  given : ∀ g ∈ m.buff.given, g.idx < m.buff.auxBufIdx ∧ g.off < 2 ^ 32 ∧ g.evid ≤ m.buff.lastEvid
  kept : ∀ g ∈ m.buff.given, D.Keeps g.evid m.buff → Kept D g (m.file g.idx)
  info : D.info m.buff.info m.buff.reported

/-- What the writer relies on: its own part stays, and what is reported stays reported. Another
    writer may use the files until the first buffer is created. -/
structure ReporterStep (m m' : StringMem) : Prop where
  age : m'.buff.age = m.buff.age
  cur : m'.buff.cur = m.buff.cur
  auxBufIdx : m'.buff.auxBufIdx = m.buff.auxBufIdx
  given : m'.buff.given = m.buff.given
  lastEvid : m'.buff.lastEvid = m.buff.lastEvid
  files : 0 < m.buff.auxBufIdx → m'.files = m.files
  live : ∀ i, D.Keeps i m'.buff → D.Keeps i m.buff

/-- What a step of the writer may change: the files, once a buffer has been created, and its own
    part; the counter of buffers only at a creation. A string is copied only where there is room. -/
structure WriterStep (l : AuxAcc) (m m' : StringMem) : Prop where
  info : m'.buff.info = m.buff.info
  reported : m'.buff.reported = m.buff.reported
  files : m'.buff.auxBufIdx = 0 → m'.files = m.files
  auxBufIdx : l ≠ .create → m'.buff.auxBufIdx = m.buff.auxBufIdx
  grow : m.buff.auxBufIdx ≤ m'.buff.auxBufIdx
  given : m.buff.given <+: m'.buff.given
  room : ∀ k n, l = .copy k n → (m.file k).head + n ≤ (m.file k).size

variable {D}

theorem ReporterStep.refl (m : StringMem) : ReporterStep D m m :=
  ⟨rfl, rfl, rfl, rfl, rfl, fun _ => rfl, fun _ h => h⟩

theorem ReporterStep.trans {m m' m'' : StringMem} (h : ReporterStep D m m')
    (h' : ReporterStep D m' m'') : ReporterStep D m m'' :=
  ⟨h'.1.trans h.1, h'.2.trans h.2, h'.3.trans h.3, h'.4.trans h.4, h'.5.trans h.5,
    fun h0 => (h'.files (by rw [h.auxBufIdx]; exact h0)).trans (h.files h0),
    fun i hi => h.live i (h'.live i hi)⟩

/-- Fewer than `2 ^ 32` buffers, and no string beyond `2 ^ 32` bytes of a buffer. -/
def InBounds (l : AuxAcc) (m : StringMem) : Prop :=
  (l = .create → m.buff.auxBufIdx < 2 ^ 32) ∧
    (l = .offset → ∀ k ∈ m.buff.cur, (m.file k).head < 2 ^ 32)

instance (l : AuxAcc) (m : StringMem) : Decidable (InBounds l m) :=
  inferInstanceAs (Decidable (_ ∧ _))

/-- The writer. -/
def writerRole (D : Discipline) : Role StringMem AuxAcc where
  rely := ReporterStep D
  guar := WriterStep
  refl := ReporterStep.refl
  trans := ReporterStep.trans
  pre := InBounds

theorem ReporterStep.file {m m' : StringMem} (h : ReporterStep D m m') {k : ℕ}
    (hk : k < m.buff.auxBufIdx) : m'.file k = m.file k := by
  unfold StringMem.file
  rw [h.files (by omega)]

theorem WriterStep.refl {l : AuxAcc} (hl : ∀ k n, l ≠ .copy k n) (m : StringMem) :
    WriterStep l m m :=
  ⟨rfl, rfl, fun _ => rfl, fun _ => rfl, le_rfl, List.prefix_rfl, fun k n h => absurd h (hl k n)⟩

@[simp] theorem setFile_buff (m : StringMem) (k : ℕ) (ab : AuxBuffer) :
    (m.setFile k ab).buff = m.buff := rfl

@[simp] theorem setFile_file_self (m : StringMem) (k : ℕ) (ab : AuxBuffer) :
    (m.setFile k ab).file k = ab := by
  simp [StringMem.file, setFile]

theorem setFile_file_ne (m : StringMem) {k j : ℕ} (ab : AuxBuffer) (h : j ≠ k) :
    (m.setFile k ab).file j = m.file j := by
  simp [StringMem.file, setFile, Function.update_of_ne h]

/-- The memory of one buffer is replaced, and the writer's own part moves on: the other buffers are
    as they were. -/
theorem StringInv.replace {m : StringMem} (h : StringInv D m) {k : ℕ} {ab : AuxBuffer}
    {b : StringBuffer} (hinfo : b.info = m.buff.info) (hrep : b.reported = m.buff.reported)
    (hage : ∀ j ∈ b.age, j < b.auxBufIdx) (hcur : b.age.getLast? = b.cur)
    (hfew : b.auxBufIdx ≤ 2 ^ 32) (hidx : ∀ j < b.auxBufIdx, j ≠ k → j < m.buff.auxBufIdx)
    (hle : m.buff.lastEvid ≤ b.lastEvid) (hs : Sound k b.lastEvid ab)
    (hgiven : ∀ g ∈ b.given, g.idx < b.auxBufIdx ∧ g.off < 2 ^ 32 ∧ g.evid ≤ b.lastEvid)
    (hold : ∀ g ∈ b.given, g.idx ≠ k → g ∈ m.buff.given)
    (hkept : ∀ g ∈ b.given, g.idx = k → D.Keeps g.evid m.buff → Kept D g ab) :
    StringInv D { m.setFile k ab with buff := b } := by
  have hself : StringMem.file { m.setFile k ab with buff := b } k = ab := setFile_file_self m k ab
  have hne : ∀ {j : ℕ}, j ≠ k → StringMem.file { m.setFile k ab with buff := b } j = m.file j :=
    setFile_file_ne m ab
  refine ⟨hage, hcur, hfew, fun j hj => ?_, fun j hj => ?_, hgiven, fun g hg hl => ?_, ?_⟩
  · by_cases hjk : j = k
    · subst hjk; simp [StringMem.setFile]
    · simp only [StringMem.setFile, Function.update_of_ne hjk]
      exact h.files j (hidx j hj hjk)
  · by_cases hjk : j = k
    · subst hjk; rw [hself]; exact hs
    · rw [hne hjk]; exact (h.sound j (hidx j hj hjk)).mono hle
  · have hl' : D.Keeps g.evid m.buff := by
      unfold Discipline.Keeps at hl ⊢
      rw [← hinfo, ← hrep]; exact hl
    by_cases hgk : g.idx = k
    · rw [hgk, hself]; exact hkept g hg hgk hl'
    · rw [hne hgk]; exact h.kept g (hold g hg hgk) hl'
  · rw [hinfo, hrep]; exact h.info

/-- A change to the memory of one buffer: sound, and its live strings are kept. -/
theorem StringInv.setFile {m : StringMem} (h : StringInv D m) {k : ℕ} {ab : AuxBuffer}
    (hs : Sound k m.buff.lastEvid ab)
    (hg : ∀ g ∈ m.buff.given, g.idx = k → D.Keeps g.evid m.buff → Kept D g ab) :
    StringInv D (m.setFile k ab) :=
  h.replace (b := m.buff) rfl rfl h.age h.cur h.few (fun _ hj _ => hj) le_rfl hs h.given
    (fun _ hm _ => hm) hg

theorem setFile_step {m : StringMem} {k : ℕ} {ab : AuxBuffer} {l : AuxAcc}
    (hk : k < m.buff.auxBufIdx) (hr : ∀ j n, l = .copy j n → (m.file j).head + n ≤ (m.file j).size) :
    WriterStep l m (m.setFile k ab) :=
  ⟨rfl, rfl, fun h0 => absurd (h0 ▸ hk) (Nat.not_lt_zero k), fun _ => rfl, le_rfl,
    List.prefix_rfl, hr⟩

/-! ### Choosing a buffer -/

/-- `assert(last of the list == cur_aux_buff)` always holds. -/
theorem checkCur_safe (m : StringMem) :
    Safe (StringInv D) (writerRole D) (fun _ m' => ReporterStep D m m') checkCur m := by
  refine Safe.access_bind fun m1 h1 i1 => ⟨.refl (by simp) _, i1, ?_⟩
  rw [Chk.require_eq (by simp [curIsLast, i1.cur]), Prog.ofChk_pure]
  exact fun m2 h2 _ => h1.trans h2

/-- Every string in the buffer is dead. -/
def Dead (D : Discipline) (k : ℕ) (m : StringMem) : Prop :=
  ∀ g ∈ m.buff.given, g.idx = k → ¬ D.Keeps g.evid m.buff

theorem Dead.stable {k : ℕ} {m m' : StringMem} (h : Dead D k m) (hr : ReporterStep D m m') :
    Dead D k m' := fun g hg hk hl => h g (hr.given ▸ hg) hk (hr.live _ hl)

theorem StringInv.dead {m : StringMem} (h : StringInv D m) {k : ℕ}
    (hf : (m.file k).lastEventId ≤ m.buff.info.lastProcessedId ∨
      (m.file k).wasDropped m.buff.info.droppedRanges = true) : Dead D k m := by
  intro g hg hk hl
  subst hk
  exact D.free_dead h.info (h.kept g hg hl).covers hf hl

/-- A buffer found free holds no live string. -/
theorem isFree_safe {m : StringMem} (k : ℕ) :
    Safe (StringInv D) (writerRole D)
      (fun free m' => ReporterStep D m m' ∧ (free = true → Dead D k m')) (isFree k) m := by
  refine Safe.access_bind fun m1 h1 i1 => ⟨.refl (by simp) _, i1, ?_⟩
  split
  · rename_i hp
    have hd : Dead D k m1 := i1.dead (.inl (of_decide_eq_true hp))
    exact fun m2 h2 _ => ⟨h1.trans h2, fun _ => hd.stable h2⟩
  · refine Safe.access fun m2 h2 i2 => ⟨.refl (by simp) _, i2, fun m3 h3 _ => ?_⟩
    exact ⟨(h1.trans h2).trans h3, fun hw => (i2.dead (.inr hw)).stable h3⟩

/-- Where the writer stands in its own part: the list, the current buffer and the counter. -/
structure SamePlace (m m' : StringMem) : Prop where
  age : m'.buff.age = m.buff.age
  cur : m'.buff.cur = m.buff.cur
  auxBufIdx : m'.buff.auxBufIdx = m.buff.auxBufIdx
  given : m'.buff.given = m.buff.given
  lastEvid : m'.buff.lastEvid = m.buff.lastEvid

theorem ReporterStep.samePlace {m m' : StringMem} (h : ReporterStep D m m') : SamePlace m m' :=
  ⟨h.age, h.cur, h.auxBufIdx, h.given, h.lastEvid⟩

theorem SamePlace.trans {m m' m'' : StringMem} (h : SamePlace m m') (h' : SamePlace m' m'') :
    SamePlace m m'' :=
  ⟨h'.1.trans h.1, h'.2.trans h.2, h'.3.trans h.3, h'.4.trans h.4, h'.5.trans h.5⟩

/-- Emptying a buffer of dead strings. -/
theorem resetIf_safe {m : StringMem} {free : Bool} {k : ℕ} (hk : k < m.buff.auxBufIdx)
    (hd : free = true → Dead D k m) :
    Safe (StringInv D) (writerRole D) (fun _ m' => SamePlace m m') (resetIf free k) m := by
  unfold resetIf
  cases free with
  | false => exact fun m1 h1 _ => h1.samePlace
  | true =>
    refine Safe.access fun m1 h1 i1 => ?_
    have hk1 : k < m1.buff.auxBufIdx := by rw [h1.auxBufIdx]; exact hk
    have hs := i1.sound k hk1
    have hd1 := (hd rfl).stable h1
    refine ⟨setFile_step hk1 (by simp), i1.setFile ⟨hs.idx, Nat.zero_le _, hs.data, hs.max,
      Nat.zero_le _, fun _ => rfl⟩ fun g hg hgk hl => absurd hl (hd1 g hg hgk), fun m2 h2 _ => ?_⟩
    exact ⟨h2.age.trans h1.age, h2.cur.trans h1.cur, h2.auxBufIdx.trans h1.auxBufIdx,
      h2.given.trans h1.given, h2.lastEvid.trans h1.lastEvid⟩

/-- The current buffer has room for `n` more bytes. -/
def Fits (k n : ℕ) (m : StringMem) : Prop :=
  m.buff.cur = some k ∧ (m.file k).head + n ≤ (m.file k).size

/-- The writer's current buffer has room for `n` bytes: it is the one from before the call, or its
    strings are dead. -/
structure Chosen (D : Discipline) (m₀ : StringMem) (k n : ℕ) (m : StringMem) : Prop where
  cur : m.buff.cur = some k
  lt : k < m.buff.auxBufIdx
  room : (m.file k).head + n ≤ (m.file k).size
  used : (m.file k).reusable = false
  given : m.buff.given = m₀.buff.given
  lastEvid : m.buff.lastEvid = m₀.buff.lastEvid
  strings : Fits k n m₀ ∨ Dead D k m

theorem Chosen.stable {m₀ m m' : StringMem} {k n : ℕ} (h : Chosen D m₀ k n m)
    (hr : ReporterStep D m m') : Chosen D m₀ k n m' := by
  have hf := hr.file h.lt
  exact ⟨hr.cur.trans h.cur, by rw [hr.auxBufIdx]; exact h.lt, by rw [hf]; exact h.room,
    by rw [hf]; exact h.used, hr.given.trans h.given, hr.lastEvid.trans h.lastEvid,
    h.strings.imp_right fun hd => hd.stable hr⟩

/-- A new buffer: no string is in it, and the one it is made for fits. -/
theorem newAuxBuffer_safe {m₀ m : StringMem} (pg : PageSize) {size : ℕ} (hs : size < 2 ^ 63)
    (hm : SamePlace m₀ m) :
    Safe (StringInv D) (writerRole D) (fun k m' => Chosen D m₀ k size m')
      (newAuxBuffer pg size) m := by
  intro m1 h1 i1 hpre
  have hfew : m1.buff.auxBufIdx < 2 ^ 32 := hpre.1 rfl
  obtain ⟨hroom, hmax⟩ := fileSize_room pg hs
  set idx := m1.buff.auxBufIdx with hidx
  set ab := AuxBuffer.create pg size idx (m1.file idx).data with hab
  have hsound : Sound idx m1.buff.lastEvid ab :=
    ⟨rfl, Nat.zero_le _, truncate_length _ _, lt_of_le_of_lt (Nat.sub_le _ _) hmax, Nat.zero_le _,
      fun _ => rfl⟩
  have hinv : StringInv D { m1.setFile idx ab with buff := { m1.buff with
      auxBufIdx := idx + 1, age := m1.buff.age ++ [idx], cur := some idx } } := by
    refine i1.replace rfl rfl (fun k hk => ?_) (by simp) hfew (fun k hk hne => ?_) le_rfl hsound
      (fun g hg => ?_) (fun _ hg _ => hg) fun g hg hgk => absurd hgk (i1.given g hg).1.ne
    · rcases List.mem_append.mp hk with hk | hk
      · exact Nat.lt_succ_of_lt (i1.age k hk)
      · rw [List.mem_singleton.mp hk]; exact Nat.lt_succ_self _
    · exact lt_of_le_of_ne (Nat.lt_succ_iff.mp hk) hne
    · obtain ⟨hlt, hrest⟩ := i1.given g hg
      exact ⟨Nat.lt_succ_of_lt hlt, hrest⟩
  refine ⟨⟨rfl, rfl, fun h => ?_, fun h => absurd rfl h, Nat.le_succ _, List.prefix_rfl, nofun⟩,
    hinv, fun m2 h2 _ => ?_⟩
  · exact absurd h (Nat.succ_ne_zero idx)
  · refine Chosen.stable (m := { m1.setFile idx ab with
      buff := { m1.buff with auxBufIdx := idx + 1, age := m1.buff.age ++ [idx], cur := some idx } })
      ⟨rfl, Nat.lt_succ_self _, ?_, ?_, h1.given.trans hm.given, h1.lastEvid.trans hm.lastEvid,
        .inr fun g hg hgk => absurd hgk (i1.given g hg).1.ne⟩ h2
    · show ((m1.setFile idx ab).file idx).head + size ≤ ((m1.setFile idx ab).file idx).size
      rw [setFile_file_self]
      simpa [hab, AuxBuffer.create] using hroom
    · show ((m1.setFile idx ab).file idx).reusable = false
      rw [setFile_file_self]; rfl

/-- An emptied buffer becomes the current one. -/
theorem reuse_safe {m₀ m : StringMem} {k size : ℕ} (hm : SamePlace m₀ m)
    (hk : k < m.buff.auxBufIdx) (hhead : (m.file k).head = 0) (hsize : size ≤ (m.file k).size)
    (hd : Dead D k m) :
    Safe (StringInv D) (writerRole D) (fun _ m' => Chosen D m₀ k size m') (reuse k) m := by
  refine Safe.access fun m1 h1 i1 => ?_
  have hk1 : k < m1.buff.auxBufIdx := by rw [h1.auxBufIdx]; exact hk
  have hf1 : m1.file k = m.file k := h1.file hk
  have hs := i1.sound k hk1
  have hd1 := hd.stable h1
  refine ⟨⟨rfl, rfl, fun h => ?_, fun _ => rfl, le_rfl, List.prefix_rfl, nofun⟩,
    i1.replace rfl rfl (fun j hj => ?_) (by simp) i1.few (fun _ hj _ => hj) le_rfl
      ⟨hs.idx, hs.head, hs.data, hs.max, hs.first, fun h => by cases h⟩ i1.given (fun _ hg _ => hg)
      fun g hg hgk hl => absurd hl (hd1 g hg hgk), fun m2 h2 _ => ?_⟩
  · exact absurd h (by simp only [setFile_buff]; omega)
  · rcases List.mem_append.mp hj with hj | hj
    · exact i1.age j (List.mem_of_mem_erase hj)
    · rw [List.mem_singleton.mp hj]; exact hk1
  · refine Chosen.stable (m := { m1.setFile k { m1.file k with reusable := false } with
      buff := { m1.buff with age := m1.buff.age.erase k ++ [k], cur := some k } })
      ⟨rfl, hk1, ?_, ?_, h1.given.trans hm.given, h1.lastEvid.trans hm.lastEvid, .inr hd1⟩ h2
    · show ((m1.setFile k _).file k).head + size ≤ ((m1.setFile k _).file k).size
      rw [setFile_file_self, hf1]
      simp only
      omega
    · show ((m1.setFile k _).file k).reusable = false
      rw [setFile_file_self]

/-- The search ends with a buffer that has room. By induction on the rest of the list; nothing of
    the writer's own part moves before the choice. -/
theorem scan_safe (pg : PageSize) {size : ℕ} (hs : size < 2 ^ 63) {m₀ : StringMem} :
    ∀ (ks : List ℕ) {m : StringMem}, StringInv D m → SamePlace m₀ m →
      (∀ k ∈ ks, k < m.buff.auxBufIdx) →
      Safe (StringInv D) (writerRole D) (fun k m' => Chosen D m₀ k size m') (scan pg size ks) m
  | [], m, _, hm, _ => newAuxBuffer_safe pg hs hm
  | k :: ks, m, hi, hm, hks => by
    have hk := hks k (List.mem_cons_self ..)
    unfold scan
    refine Safe.bind hi ((isFree_safe k).mono fun free m1 i1 ⟨h1, hd⟩ => ?_)
    have hk1 : k < m1.buff.auxBufIdx := by rw [h1.auxBufIdx]; exact hk
    refine Safe.bind i1 ((resetIf_safe hk1 hd).mono fun _ m2 i2 h2 => ?_)
    refine Safe.access_bind fun m3 h3 i3 => ⟨.refl (by simp) _, i3, ?_⟩
    have hp3 : SamePlace m m3 := (h1.samePlace.trans h2).trans h3.samePlace
    have hk3 : k < m3.buff.auxBufIdx := by rw [hp3.auxBufIdx]; exact hk
    split
    · rename_i hfits
      obtain ⟨hre, hsz⟩ := Bool.and_eq_true_iff.mp hfits
      refine Safe.bind i3 ((checkCur_safe m3).mono fun _ m4 i4 h4 => ?_)
      have hf4 := h4.file hk3
      have hd3 : Dead D k m3 := by
        rintro g hg rfl hl
        exact absurd (hre.symm.trans (i3.kept g hg hl).used) (by decide)
      have hhead : (m4.file k).head = 0 := by rw [hf4]; exact (i3.sound k hk3).empty hre
      have hsize : size ≤ (m4.file k).size := by rw [hf4]; exact of_decide_eq_true hsz
      refine Safe.bind i4 ((reuse_safe (hm.trans (hp3.trans h4.samePlace))
        (by rw [h4.auxBufIdx]; exact hk3) hhead hsize (hd3.stable h4)).mono fun _ m5 _ h5 => ?_)
      exact fun m6 h6 _ => h5.stable h6
    · refine scan_safe pg hs ks i3 (hm.trans hp3) fun j hj => ?_
      show j < m3.buff.auxBufIdx
      rw [hp3.auxBufIdx]
      exact hks j (List.mem_cons_of_mem _ hj)

theorem search_safe (pg : PageSize) {size : ℕ} (hs : size < 2 ^ 63) {m₀ m : StringMem}
    (hm : SamePlace m₀ m) :
    Safe (StringInv D) (writerRole D) (fun k m' => Chosen D m₀ k size m') (search pg size) m := by
  refine Safe.access_bind fun m1 h1 i1 => ⟨.refl (by simp) _, i1, ?_⟩
  exact scan_safe pg hs _ i1 (hm.trans h1.samePlace) i1.age

/-- The current buffer, if there is one, is in use. -/
def CurUsed (m : StringMem) : Prop := ∀ k, m.buff.cur = some k → (m.file k).reusable = false

theorem StringInv.cur_lt {m : StringMem} (h : StringInv D m) {k : ℕ} (hc : m.buff.cur = some k) :
    k < m.buff.auxBufIdx :=
  h.age k (List.mem_of_getLast? (h.cur.trans hc))

/-- `writer_get_aux_buffer` gives the current buffer, with room for the string. -/
theorem writerGetAuxBuffer_safe (pg : PageSize) {size : ℕ} (hs : size < 2 ^ 63) {m : StringMem}
    (hi : StringInv D m) (hu : CurUsed m) :
    Safe (StringInv D) (writerRole D) (fun k m' => Chosen D m k size m')
      (writerGetAuxBuffer pg size) m := by
  refine Safe.access_bind fun m1 h1 i1 => ⟨.refl (by simp) _, i1, ?_⟩
  cases hc : m1.buff.cur with
  | none => exact search_safe pg hs h1.samePlace
  | some k =>
    have hc0 : m.buff.cur = some k := h1.cur.symm.trans hc
    have hk := hi.cur_lt hc0
    have hk1 := i1.cur_lt hc
    have hsound := i1.sound k hk1
    simp only [Option.map_some]
    rw [Chk.sub_eq hsound.head hsound.max, Prog.ofChk_pure, Prog.ret_bind]
    split
    · exact search_safe pg hs h1.samePlace
    · rename_i hfree
      refine Safe.bind i1 ((checkCur_safe m1).mono fun _ m2 _ h2 => fun m3 h3 _ => ?_)
      have hroom : (m1.file k).head + size ≤ (m1.file k).size := by
        have := hsound.head
        omega
      have hch : Chosen D m k size m1 :=
        ⟨hc, hk1, hroom, by rw [h1.file hk]; exact hu k hc0, h1.given, h1.lastEvid,
          .inl ⟨hc0, by rw [← h1.file hk]; exact hroom⟩⟩
      exact (hch.stable h2).stable h3

/-! ### Pushing -/

/-- The string has been copied to `off` of the current buffer. -/
structure Copied (D : Discipline) (m₀ : StringMem) (k off : ℕ) (s : Bytes) (m : StringMem) :
    Prop where
  cur : m.buff.cur = some k
  lt : k < m.buff.auxBufIdx
  small : off < 2 ^ 32
  head : (m.file k).head = off + s.length
  reads : Reads (m.file k).data off s
  used : (m.file k).reusable = false
  given : m.buff.given = m₀.buff.given
  lastEvid : m.buff.lastEvid = m₀.buff.lastEvid
  strings : Fits k s.length m₀ ∨ Dead D k m

theorem Copied.stable {m₀ m m' : StringMem} {k off : ℕ} {s : Bytes} (h : Copied D m₀ k off s m)
    (hr : ReporterStep D m m') : Copied D m₀ k off s m' := by
  have hf := hr.file h.lt
  exact ⟨hr.cur.trans h.cur, by rw [hr.auxBufIdx]; exact h.lt, h.small, by rw [hf]; exact h.head,
    by rw [hf]; exact h.reads, by rw [hf]; exact h.used, hr.given.trans h.given,
    hr.lastEvid.trans h.lastEvid, h.strings.imp_right fun hd => hd.stable hr⟩

/-- The copy leaves the strings below the head as they are. -/
theorem copy_safe {m₀ m : StringMem} {k : ℕ} {s : Bytes} (hch : Chosen D m₀ k s.length m)
    (hsmall : (m.file k).head < 2 ^ 32) :
    Safe (StringInv D) (writerRole D) (fun _ m' => Copied D m₀ k (m.file k).head s m')
      (Prog.access (.copy k s.length) (fun _ => ()) fun m' =>
        m'.setFile k ((m'.file k).append (m.file k).head s)) m := by
  refine Safe.access fun m1 h1 i1 => ?_
  have hc1 := hch.stable h1
  have hs := i1.sound k hc1.lt
  rw [← h1.file hch.lt] at hsmall ⊢
  have hroom := hc1.room
  have hmod : ((m1.file k).head + s.length) % 2 ^ 64 = (m1.file k).head + s.length :=
    Nat.mod_eq_of_lt (by have := hs.max; omega)
  have hlen : (m1.file k).head + s.length ≤ (m1.file k).data.length := by rw [hs.data]; exact hroom
  refine ⟨setFile_step hc1.lt ?_, i1.setFile ⟨hs.idx, ?_, ?_, hs.max, hs.first, ?_⟩ ?_,
    fun m2 h2 _ => ?_⟩
  · intro j n hl
    cases hl
    exact hroom
  · simp only [AuxBuffer.append]
    rw [hmod]; exact hroom
  · simp only [AuxBuffer.append]
    rw [memcpy_length hlen]; exact hs.data
  · intro hre
    exact absurd (hre.symm.trans hc1.used) (by decide)
  · intro g hg hgk hl
    obtain ⟨hcov, hbelow, hreads, hused⟩ := i1.kept g hg hl
    rw [hgk] at hcov hbelow hreads hused
    refine ⟨hcov, ?_, hreads.memcpy hbelow (by omega), hused⟩
    simp only [AuxBuffer.append]
    rw [hmod]; omega
  · refine Copied.stable (m := m1.setFile k ((m1.file k).append (m1.file k).head s))
      ⟨hc1.cur, hc1.lt, hsmall, ?_, ?_, ?_, hc1.given, hc1.lastEvid, hc1.strings⟩ h2
    · rw [setFile_file_self]; exact hmod
    · rw [setFile_file_self]; exact reads_memcpy hlen
    · rw [setFile_file_self]; exact hc1.used

/-- The push of `g` is complete. -/
structure Pushed (m₀ : StringMem) (g : Given) (m : StringMem) : Prop where
  given : m.buff.given = m₀.buff.given ++ [g]
  cur : m.buff.cur = some g.idx
  lt : g.idx < m.buff.auxBufIdx
  used : (m.file g.idx).reusable = false

theorem Pushed.stable {m₀ m m' : StringMem} {g : Given} (h : Pushed m₀ g m)
    (hr : ReporterStep D m m') : Pushed m₀ g m' :=
  ⟨hr.given.trans h.given, hr.cur.trans h.cur, by rw [hr.auxBufIdx]; exact h.lt,
    by rw [hr.file h.lt]; exact h.used⟩

theorem Pushed.curUsed {m₀ m : StringMem} {g : Given} (h : Pushed m₀ g m) : CurUsed m := by
  intro k hk
  obtain rfl : g.idx = k := Option.some.inj (h.cur.symm.trans hk)
  exact h.used

/-- If a string of `n` bytes fits, it may go behind the strings that are there. -/
def GoesBehind (D : Discipline) (evid n : ℕ) (m : StringMem) : Prop :=
  ∀ k, Fits k n m → ∀ g ∈ m.buff.given, g.idx = k → D.behind evid g.evid

/-- The last step of a push: the buffer's ids now cover the new string too. -/
theorem ids_safe {m₀ m : StringMem} {k off evid : ℕ} {s : Bytes}
    (hmay : D.may m₀.buff.lastEvid evid) (hb : GoesBehind D evid s.length m₀)
    (hc : Copied D m₀ k off s m) :
    Safe (StringInv D) (writerRole D) (fun idx m' => idx = k ∧ Pushed m₀ ⟨k, off, evid, s⟩ m')
      (Prog.access .ids (fun m => (m.file k).idx) fun m =>
        { m.setFile k ((m.file k).noteId evid) with
          buff := { m.buff with given := m.buff.given ++ [⟨k, off, evid, s⟩],
                                lastEvid := max m.buff.lastEvid evid } }) m := by
  refine Safe.access fun m1 h1 i1 => ?_
  have hc1 := hc.stable h1
  have hs := i1.sound k hc1.lt
  have hmay1 : D.may m1.buff.lastEvid evid := by rw [hc1.lastEvid]; exact hmay
  set ab := (m1.file k).noteId evid with hab
  have hle : m1.buff.lastEvid ≤ max m1.buff.lastEvid evid := le_max_left _ _
  have hnew : (m1.setFile k ab).file k = ab := setFile_file_self m1 k ab
  have hsound : Sound k (max m1.buff.lastEvid evid) ab := by
    refine ⟨hs.idx, hs.head, hs.data, hs.max, ?_, hs.empty⟩
    simp only [hab, AuxBuffer.noteId]
    split
    · exact le_max_right _ _
    · exact hs.first.trans hle
  have hinv : StringInv D { m1.setFile k ab with
      buff := { m1.buff with given := m1.buff.given ++ [⟨k, off, evid, s⟩],
                             lastEvid := max m1.buff.lastEvid evid } } := by
    refine i1.replace rfl rfl i1.age i1.cur i1.few (fun _ hj _ => hj) hle hsound (fun g hg => ?_)
      (fun g hg hne => ?_) fun g hg hgk hl => ?_
    · rcases List.mem_append.mp hg with hg | hg
      · obtain ⟨h1, h2, h3⟩ := i1.given g hg
        exact ⟨h1, h2, h3.trans hle⟩
      · rw [List.mem_singleton.mp hg]
        exact ⟨hc1.lt, hc1.small, le_max_right _ _⟩
    · rcases List.mem_append.mp hg with hg | hg
      · exact hg
      · exact absurd (congrArg Given.idx (List.mem_singleton.mp hg)) hne
    · rcases List.mem_append.mp hg with hg | hg
      · have hk := i1.kept g hg hl
        rw [hgk] at hk
        refine ⟨D.older hmay1 ?_ (i1.given g hg).2.2 hk.covers, hk.below, hk.reads, hk.used⟩
        rcases hc1.strings with hfit | hdead
        · exact hb k hfit g (by rw [← hc1.given]; exact hg) hgk
        · exact absurd hl (hdead g hg hgk)
      · rw [List.mem_singleton.mp hg]
        exact ⟨D.newer hmay1 hs.first, hc1.head.ge, hc1.reads, hc1.used⟩
  refine ⟨⟨rfl, rfl, fun h => ?_, fun _ => rfl, le_rfl, List.prefix_append _ _, nofun⟩, hinv,
    fun m2 h2 _ => ⟨hs.idx, ?_⟩⟩
  · exact absurd h (by simp only; have := hc1.lt; omega)
  · refine Pushed.stable (m := { m1.setFile k ab with
      buff := { m1.buff with given := m1.buff.given ++ [⟨k, off, evid, s⟩],
                             lastEvid := max m1.buff.lastEvid evid } })
      ⟨?_, hc1.cur, hc1.lt, ?_⟩ h2
    · show m1.buff.given ++ _ = _
      rw [hc1.given]
    · show ((m1.setFile k ab).file k).reusable = false
      rw [hnew]; exact hc1.used

/-- `buffer_push_strn` returns the handle of the string it pushed. -/
theorem bufferPushStrn_safe (pg : PageSize) {evid : ℕ} {s : Bytes} (hs : s.length < 2 ^ 63)
    {m : StringMem} (hi : StringInv D m) (hu : CurUsed m) (hmay : D.may m.buff.lastEvid evid)
    (hb : GoesBehind D evid s.length m) :
    Safe (StringInv D) (writerRole D)
      (fun h m' => ∃ k off, h = handle off k ∧ Pushed m ⟨k, off, evid, s⟩ m')
      (bufferPushStrn pg evid s) m := by
  refine Safe.bind hi ((writerGetAuxBuffer_safe pg hs hi hu).mono fun k m1 i1 h1 => ?_)
  refine Safe.access_bind fun m2 h2 i2 => ⟨.refl (by simp) _, i2, ?_⟩
  have hc2 := h1.stable h2
  rw [Chk.require_eq hc2.cur, Prog.ofChk_pure, Prog.ret_bind]
  refine Safe.bind i2 ((checkCur_safe m2).mono fun _ m3 i3 h3 => ?_)
  have hc3 := hc2.stable h3
  intro m4 h4 i4 hpre
  have hc4 := hc3.stable h4
  have hsmall : (m4.file k).head < 2 ^ 32 := hpre.2 rfl k hc4.cur
  refine ⟨.refl (by simp) _, i4, ?_⟩
  show Safe _ _ _ (Prog.ofChk (Chk.require ((m4.file k).head < 2 ^ 32)) >>= _) m4
  rw [Chk.require_eq hsmall, Prog.ofChk_pure, Prog.ret_bind]
  refine Safe.bind i4 ((copy_safe hc4 hsmall).mono fun _ m5 i5 h5 => ?_)
  refine Safe.bind i5 ((ids_safe hmay hb h5).mono fun idx m6 _ h6 => ?_)
  obtain ⟨rfl, h6⟩ := h6
  exact fun m7 h7 _ => ⟨_, _, rfl, h6.stable h7⟩

/-- `buffer_push_str` too: putting the index into the handle again does no harm. -/
theorem bufferPushStr_safe (pg : PageSize) {evid : ℕ} {str : Bytes}
    (hs : (str ++ [0]).length < 2 ^ 63) {m : StringMem} (hi : StringInv D m) (hu : CurUsed m)
    (hmay : D.may m.buff.lastEvid evid) (hb : GoesBehind D evid (str ++ [0]).length m) :
    Safe (StringInv D) (writerRole D)
      (fun h m' => ∃ k off, h = handle off k ∧ Pushed m ⟨k, off, evid, str ++ [0]⟩ m')
      (bufferPushStr pg evid str) m := by
  refine Safe.bind hi ((bufferPushStrn_safe pg hs hi hu hmay hb).mono fun h m1 i1 hp => ?_)
  obtain ⟨k, off, rfl, hp⟩ := hp
  refine Safe.access_bind fun m2 h2 i2 => ⟨.refl (by simp) _, i2, fun m3 h3 _ => ?_⟩
  have hp2 := hp.stable h2
  have hidx : (m2.file k).idx = k := (i2.sound k hp2.lt).idx
  refine ⟨k, off, ?_, hp2.stable h3⟩
  rw [hp2.cur, Option.map_some, Option.getD_some, hidx]
  exact handle_twice

/-! ### Reading -/

/-- A reader maps only buffers that the writer has created. -/
def Mapped (r : StringReader) (m : StringMem) : Prop :=
  ∀ k, r.cur = some k ∨ k ∈ r.auxBuffers → k < m.buff.auxBufIdx

theorem Mapped.mono {r : StringReader} {m m' : StringMem} (h : Mapped r m)
    (hle : m.buff.auxBufIdx ≤ m'.buff.auxBufIdx) : Mapped r m' :=
  fun k hk => (h k hk).trans_le hle

/-- Buffers are told apart by their index. -/
theorem StringInv.hasIdx {m : StringMem} (h : StringInv D m) {k idx : ℕ}
    (hk : k < m.buff.auxBufIdx) (hx : StringReader.hasIdx m.files idx k = true) : k = idx := by
  obtain ⟨ab, hab⟩ := Option.isSome_iff_exists.mp (h.files k hk)
  have hs := (h.sound k hk).idx
  rw [StringMem.file, hab] at hs
  rw [StringReader.hasIdx, hab] at hx
  simp only [Option.map_some, beq_iff_eq, Option.some.injEq, Option.getD_some] at hx hs
  exact hs.symm.trans hx

/-- `reader_get_aux_buffer` finds the buffer with the index. -/
theorem StringInv.getAuxBuffer {m : StringMem} (h : StringInv D m) {r : StringReader}
    (hr : Mapped r m) {idx : ℕ} (hi : idx < m.buff.auxBufIdx) :
    ∃ r', r.getAuxBuffer m.files idx = some (idx, r') ∧ Mapped r' m := by
  unfold StringReader.getAuxBuffer
  split
  · rename_i k hk
    obtain ⟨hc, hx⟩ := Option.filter_eq_some_iff.mp hk
    obtain rfl := h.hasIdx (hr k (.inl hc)) hx
    exact ⟨r, rfl, hr⟩
  · split
    · rename_i k hk
      have hmem := List.mem_of_find?_eq_some hk
      obtain rfl := h.hasIdx (hr k (.inr hmem)) (List.find?_some hk)
      refine ⟨_, rfl, fun j hj => ?_⟩
      rcases hj with hj | hj
      · rw [← Option.some.inj hj]; exact hi
      · exact hr j (.inr hj)
    · rw [if_pos (h.files idx hi)]
      refine ⟨_, rfl, fun j hj => ?_⟩
      rcases hj with hj | hj
      · rw [← Option.some.inj hj]; exact hi
      · rcases List.mem_append.mp hj with hj | hj
        · exact hr j (.inr hj)
        · rw [List.mem_singleton.mp hj]; exact hi

/-- `vms_shm_buffer_read_str` of a handle that was returned gives memory of the right buffer. -/
theorem StringInv.readStr {m : StringMem} (h : StringInv D m) {r : StringReader} (hr : Mapped r m)
    {g : Given} (hg : g ∈ m.buff.given) :
    ∃ r', r.readStr m.files (handle g.off g.idx) =
        some ((m.file g.idx).data.drop g.off, r') ∧ Mapped r' m := by
  obtain ⟨hlt, hoff, -⟩ := h.given g hg
  have hidx : g.idx < 2 ^ 32 := hlt.trans_le h.few
  obtain ⟨r', hget, hr'⟩ := h.getAuxBuffer hr hlt
  obtain ⟨ab, hab⟩ := Option.isSome_iff_exists.mp (h.files g.idx hlt)
  refine ⟨r', ?_, hr'⟩
  rw [StringReader.readStr, handle_idx hoff hidx, handle_off hoff hidx, hget, StringMem.file]
  simp [hab]

/-- A live string is what its handle reads. -/
theorem StringInv.reads {m : StringMem} (h : StringInv D m) {r : StringReader} (hr : Mapped r m)
    {g : Given} (hg : g ∈ m.buff.given) (hl : D.Keeps g.evid m.buff) :
    ∃ rest r', r.readStr m.files (handle g.off g.idx) = some (g.bytes ++ rest, r') := by
  obtain ⟨r', hread, -⟩ := h.readStr hr hg
  have hk := (h.kept g hg hl).reads
  unfold Reads at hk
  have hsplit := List.take_append_drop g.bytes.length ((m.file g.idx).data.drop g.off)
  rw [hk] at hsplit
  exact ⟨_, r', hread.trans (by rw [hsplit])⟩

end StringMem

end Vamos
