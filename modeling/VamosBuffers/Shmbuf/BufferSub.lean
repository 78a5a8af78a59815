import Mathlib.Tactic
import VamosBuffers.Schemes.RelyGuarantee

/-! `src/shmbuf/buffer-sub.c`: sub-buffers and how a reader learns of them. A creator draws a number
    from the writer's own counter, creates the files under that number, and then announces *one more*
    sub-buffer in the shared counter; a reader that sees a larger count connects to the next number.

        no = ++last_subbufer_no ── files of "<key>.sub.<no>" ── ++subbuffers_no
        reader:  subbuffers_no > substreams_no ── connect "<key>.sub.<++substreams_no>"

    The two counters agree only if the numbers announced are exactly the numbers drawn: a creator
    that fails before the announcement leaves a gap, one that fails and announces all the same
    announces nothing, and one that overtakes another announces the other's number. The system calls
    may fail at will: each call of a creator carries what fails in it. -/

namespace Vamos
open Schemes

/-- The names under `/dev/shm` that belong to the sub-buffers of one buffer: `"<key>.sub.<idx>"`,
    the name of its control buffer, and the name either has while it is being made. -/
inductive ShmName where
  | sub (idx : ℕ)
  | ctrl (n : ShmName)
  | tmp (n : ShmName)
  deriving DecidableEq, Repr

/-- What a creator shares with the reader, and the writer's own counter. -/
structure SubBuffers where
  lastSubbuferNo : ℕ
  subbuffersNo : ℕ
  files : List ShmName
  /-- false once some thread of the writer has called `abort` -/
  alive : Bool
  /-- auxiliary: which thread drew a number -/
  drawer : ℕ → Option ℕ
  /-- auxiliary: the numbers whose creators have announced -/
  announced : List ℕ

/-- The accesses: the two counters, the names, and the reader's two loads. -/
inductive SubAcc where
  | number
  | file (n : ShmName)
  | announce (no : ℕ)
  | count
  | open (n : ShmName)
  deriving DecidableEq, Repr

abbrev SubProg (α : Type) : Type := Prog SubBuffers SubAcc α

/-- The steps of a creation that can fail. -/
inductive Sys where
  | ctrlTmpKey | ctrlOpen | ctrlFtruncate | ctrlMmap | ctrlRename
  | tmpKey | open | ftruncate | mmap | rename
  deriving DecidableEq, Repr

namespace SubBuffers

/-- `vms_shm_buffer_compute_sub_buffer_key`: there is room for ten digits, else `abort`. -/
def computeSubBufferKey (idx : ℕ) : Option ShmName :=
  if idx < 10 ^ 10 then some (.sub idx) else none

/-! ### Files -/

/-- `vms_shm_open` with `O_CREAT`. -/
def shmOpen (n : ShmName) (fails : Bool) : SubProg Bool :=
  Prog.access (.file n) (fun _ => !fails) fun m =>
    if fails then m else { m with files := n :: m.files }

/-- `vms_shm_rename`. -/
def shmRename (old new : ShmName) (fails : Bool) : SubProg Bool :=
  Prog.access (.file new) (fun _ => !fails) fun m =>
    if fails then m else { m with files := new :: m.files.filter (· ≠ old) }

/-- `vms_shm_unlink`. -/
def shmUnlink (n : ShmName) : SubProg Unit :=
  Prog.access (.file n) (fun _ => ()) fun m => { m with files := m.files.filter (· ≠ n) }

/-- `create_shared_control_buffer`: was it created? -/
def createSharedControlBuffer (fails : Sys → Bool) (key : ShmName) : SubProg Bool :=
  if fails .ctrlTmpKey then pure false else do
    let opened ← shmOpen (.tmp (.ctrl key)) (fails .ctrlOpen)
    if !opened then pure false
    else if fails .ctrlFtruncate then pure false
    else if fails .ctrlMmap then do
      shmUnlink (.ctrl key)
      pure false
    else do
      let renamed ← shmRename (.tmp (.ctrl key)) (.ctrl key) (fails .ctrlRename)
      if renamed then pure true
      else do
        shmUnlink (.tmp (.ctrl key))
        pure false

/-- `_vms_shm_buffer_initialize`: the buffer is made under a temporary name, then renamed. -/
def shmBufferInitialize (fails : Sys → Bool) (key : ShmName) : SubProg (Option ShmName) :=
  if fails .tmpKey then pure none else do
    let opened ← shmOpen (.tmp key) (fails .open)
    if !opened then pure none
    else if fails .ftruncate then pure none
    else if fails .mmap then do
      shmUnlink (.tmp key)
      pure none
    else do
      let renamed ← shmRename (.tmp key) key (fails .rename)
      if renamed then pure (some key)
      else do
        shmUnlink (.tmp key)
        pure none

/-! ### Creators and the reader -/

/-- What a creator's last call returned. -/
inductive CreatorAt where
  | ready
  | created (key : ShmName)
  | failed
  | aborted
  deriving DecidableEq, Repr

/-- `++buffer->last_subbufer_no` by thread `t`. A number without room for its digits is the end of the
    process. -/
def drawNumber (t : ℕ) : SubProg ℕ :=
  Prog.access .number (fun m => (m.lastSubbuferNo + 1) % 2 ^ 64) fun m =>
    let no := (m.lastSubbuferNo + 1) % 2 ^ 64
    { m with lastSubbuferNo := no,
             alive := m.alive && (computeSubBufferKey no).isSome,
             drawer := Function.update m.drawer no (some t) }

/-- `++buffer->shmbuffer->info.subbuffers_no`. -/
def announce (no : ℕ) : SubProg Unit :=
  Prog.access (.announce no) (fun _ => ()) fun m =>
    { m with subbuffersNo := (m.subbuffersNo + 1) % 2 ^ 64, announced := no :: m.announced }

/-- `vms_shm_buffer_create_sub_buffer`. -/
def createSubBuffer (t : ℕ) (fails : Sys → Bool) : SubProg CreatorAt := do
  let no ← drawNumber t
  match computeSubBufferKey no with
  | none => pure .aborted
  | some key => do
    let ctrl ← createSharedControlBuffer fails key
    if !ctrl then pure .failed
    else do
      let sbuf ← shmBufferInitialize fails key
      announce no
      pure (match sbuf with | some k => .created k | none => .failed)

/-- `vms_shm_buffer_try_connect`: up to `retry + 1` attempts to open the file. -/
def tryConnect (key : ShmName) : ℕ → SubProg Bool
  | 0 => Prog.access (.open key) (fun m => decide (key ∈ m.files)) id
  | retry + 1 => do
    let found ← Prog.access (.open key) (fun m => decide (key ∈ m.files)) id
    if found then pure true else tryConnect key retry

/-- `vms_stream_create_substream` by a reader that has connected to `substreamsNo` sub-buffers; the
    result is that number afterwards. -/
def createSubstream (substreamsNo : ℕ) : SubProg ℕ := do
  let n ← Prog.access .count (·.subbuffersNo) id
  if substreamsNo < n then
    let no := (substreamsNo + 1) % 2 ^ 64
    match computeSubBufferKey no with
    | none => pure substreamsNo
    | some key => do
      let found ← tryConnect key 10
      Prog.ofChk (Chk.require (found = true))
      pure no
  else pure substreamsNo

/-- Any number of creators, and one reader. -/
inductive Thread where
  | creator (t : ℕ)
  | reader
  deriving DecidableEq, Repr

abbrev At : Thread → Type
  | .creator _ => CreatorAt
  | .reader => ℕ

/-- A creator's call carries what fails in it. -/
abbrev Call : Thread → Type
  | .creator _ => Sys → Bool
  | .reader => Unit

/-- The threads, in runs that announce only where `allowed` admits it. An aborted process makes no
    access. -/
def clients (allowed : SubAcc → SubBuffers → Prop) :
    (t : Thread) → Client SubBuffers SubAcc (At t) (Call t)
  | .creator t =>
    { enabled := fun i _ _ => i ≠ .aborted
      body := fun _ fails => createSubBuffer t fails
      allowed := fun l m => m.alive = true ∧ allowed l m }
  | .reader =>
    { enabled := fun _ _ _ => True
      body := fun substreamsNo _ => createSubstream substreamsNo }

abbrev SubCfg : Type := Cfg SubBuffers SubAcc At

/-- A buffer without sub-buffers. -/
def start : SubCfg :=
  ⟨⟨0, 0, [], true, fun _ => none, []⟩, fun
    | .creator _ => .ret .ready
    | .reader => .ret 0⟩

/-! ### Numbers drawn and numbers announced -/

/-- A creator announces only when every sub-buffer up to its own number has been created. -/
def AnnouncesInOrder (l : SubAcc) (m : SubBuffers) : Prop :=
  ∀ no, l = .announce no → ∀ i, 1 ≤ i → i ≤ no → ShmName.sub i ∈ m.files

/-- Distinct positive numbers: the largest is at least their count. -/
theorem exists_length_le {l : List ℕ} (hn : l.Nodup) (hp : ∀ k ∈ l, 1 ≤ k) (h0 : l ≠ []) :
    ∃ k ∈ l, l.length ≤ k := by
  by_contra hlt
  push Not at hlt
  have hsub : l.toFinset ⊆ Finset.Ico 1 l.length := by
    intro k hk
    have hk' : k ∈ l := List.mem_toFinset.mp hk
    exact Finset.mem_Ico.mpr ⟨hp k hk', hlt k hk'⟩
  have hcard := Finset.card_le_card hsub
  rw [List.toFinset_card_of_nodup hn, Nat.card_Ico] at hcard
  have : 0 < l.length := List.length_pos_iff.mpr h0
  omega

/-- The invariant: a number is drawn once and announced by its drawer, and every announced number
    has its sub-buffer and all the ones before it. -/
structure SubInv (m : SubBuffers) : Prop where
  room : m.alive = true → m.lastSubbuferNo < 10 ^ 10
  drawn : ∀ k t, m.drawer k = some t → 1 ≤ k ∧ (m.alive = true → k ≤ m.lastSubbuferNo)
  nodup : m.announced.Nodup
  owned : ∀ k ∈ m.announced, ∃ t, m.drawer k = some t
  count : m.subbuffersNo = m.announced.length
  few : m.announced.length ≤ 10 ^ 10
  files : ∀ k ∈ m.announced, ∀ i, 1 ≤ i → i ≤ k → ShmName.sub i ∈ m.files

/-- Every number up to the count has been created. -/
theorem SubInv.created {m : SubBuffers} (h : SubInv m) {i : ℕ} (h1 : 1 ≤ i)
    (hi : i ≤ m.subbuffersNo) : ShmName.sub i ∈ m.files := by
  have h0 : m.announced ≠ [] := by
    rintro h0
    have := h.count
    rw [h0, List.length_nil] at this
    omega
  obtain ⟨k, hk, hlen⟩ := exists_length_le h.nodup
    (fun k hk => (h.drawn k _ (h.owned k hk).choose_spec).1) h0
  refine h.files k hk i h1 ?_
  have := h.count
  omega

/-- What the other threads leave alone: created sub-buffers stay, the count only grows, and a number
    drawn by thread `t` is announced by no one else. -/
structure OthersStep (t : ℕ) (m m' : SubBuffers) : Prop where
  files : ∀ i, ShmName.sub i ∈ m.files → ShmName.sub i ∈ m'.files
  count : m.subbuffersNo ≤ m'.subbuffersNo
  drawer : ∀ k u, m.drawer k = some u → m'.drawer k = some u
  announced : ∀ k, m.drawer k = some t → (k ∈ m'.announced ↔ k ∈ m.announced)

theorem OthersStep.refl (t : ℕ) (m : SubBuffers) : OthersStep t m m :=
  ⟨fun _ h => h, le_rfl, fun _ _ h => h, fun _ _ => Iff.rfl⟩

theorem OthersStep.trans {t : ℕ} {m m' m'' : SubBuffers} (h : OthersStep t m m')
    (h' : OthersStep t m' m'') : OthersStep t m m'' :=
  ⟨fun i hi => h'.files i (h.files i hi), h.count.trans h'.count,
    fun k u hk => h'.drawer k u (h.drawer k u hk),
    fun k hk => (h'.announced k (h.drawer k t hk)).trans (h.announced k hk)⟩

/-- A creator's step looks to every other thread like one of the others'. -/
def creatorRole (t : ℕ) : Role SubBuffers SubAcc where
  rely := OthersStep t
  guar _ m m' := ∀ u, u ≠ t → OthersStep u m m'
  refl := OthersStep.refl t
  trans := OthersStep.trans
  pre l m := m.alive = true ∧ AnnouncesInOrder l m

/-- What the reader relies on. -/
structure CreatorsStep (m m' : SubBuffers) : Prop where
  files : ∀ i, ShmName.sub i ∈ m.files → ShmName.sub i ∈ m'.files
  count : m.subbuffersNo ≤ m'.subbuffersNo

/-- The reader changes nothing. -/
def readerRole : Role SubBuffers SubAcc where
  rely := CreatorsStep
  guar _ m m' := m' = m
  refl _ := ⟨fun _ h => h, le_rfl⟩
  trans h h' := ⟨fun i hi => h'.files i (h.files i hi), h.count.trans h'.count⟩

/-! ### Creators -/

/-- A change of names that removes no sub-buffer. -/
theorem SubInv.setFiles {m : SubBuffers} (h : SubInv m) {fs : List ShmName}
    (hf : ∀ i, ShmName.sub i ∈ m.files → ShmName.sub i ∈ fs) :
    SubInv { m with files := fs } ∧ ∀ u, OthersStep u m { m with files := fs } :=
  ⟨⟨h.room, h.drawn, h.nodup, h.owned, h.count, h.few,
    fun k hk i h1 hi => hf i (h.files k hk i h1 hi)⟩,
    fun _ => ⟨hf, le_rfl, fun _ _ h => h, fun _ _ => Iff.rfl⟩⟩

/-- Thread `t` has drawn `no` and not announced it. -/
def Holds (t no : ℕ) (m : SubBuffers) : Prop := m.drawer no = some t ∧ no ∉ m.announced

theorem Holds.stable {t no : ℕ} {m m' : SubBuffers} (h : Holds t no m) (hr : OthersStep t m m') :
    Holds t no m' :=
  ⟨hr.drawer _ _ h.1, fun hm => h.2 ((hr.announced no h.1).mp hm)⟩

/-- One access to the names. -/
theorem file_safe {α : Type} {t no : ℕ} {m : SubBuffers} {n : ShmName} {get : SubBuffers → α}
    {f : SubBuffers → List ShmName} (hh : Holds t no m)
    (hf : ∀ m i, ShmName.sub i ∈ m.files → ShmName.sub i ∈ f m) :
    Safe SubInv (creatorRole t) (fun _ m' => Holds t no m')
      (Prog.access (.file n) get fun m => { m with files := f m }) m := by
  refine Safe.access fun m1 h1 i1 => ?_
  obtain ⟨i2, hg⟩ := i1.setFiles (hf m1)
  refine ⟨fun u _ => hg u, i2, fun m3 h3 _ => ?_⟩
  have h2 : Holds t no m1 := hh.stable h1
  exact Holds.stable (m := { m1 with files := f m1 }) h2 h3

theorem shmOpen_safe {t no : ℕ} {m : SubBuffers} (n : ShmName) (fails : Bool) (hh : Holds t no m) :
    Safe SubInv (creatorRole t) (fun _ m' => Holds t no m') (shmOpen n fails) m := by
  cases fails with
  | true => exact file_safe (f := fun m => m.files) hh fun _ _ h => h
  | false => exact file_safe (f := fun m => n :: m.files) hh fun _ _ h => List.mem_cons_of_mem _ h

theorem shmRename_safe {t no : ℕ} {m : SubBuffers} (old new : ShmName) (fails : Bool)
    (hh : Holds t no m) : Safe SubInv (creatorRole t) (fun _ m' => Holds t no m')
      (shmRename (.tmp old) new fails) m := by
  cases fails with
  | true => exact file_safe (f := fun m => m.files) hh fun _ _ h => h
  | false =>
    refine file_safe (f := fun m => new :: m.files.filter (· ≠ .tmp old)) hh fun _ i h => ?_
    exact List.mem_cons_of_mem _ (List.mem_filter.mpr ⟨h, by simp⟩)

theorem shmUnlink_safe {t no : ℕ} {m : SubBuffers} {n : ShmName} (hn : ∀ i, n ≠ .sub i)
    (hh : Holds t no m) : Safe SubInv (creatorRole t) (fun _ m' => Holds t no m')
      (shmUnlink n) m := by
  refine file_safe (f := fun m => m.files.filter (· ≠ n)) hh fun _ i h => ?_
  exact List.mem_filter.mpr ⟨h, by simpa using (hn i).symm⟩

theorem Holds.safe_ret {α : Type} {t no : ℕ} {m : SubBuffers} (hh : Holds t no m) (a : α) :
    Safe SubInv (creatorRole t) (fun _ m' => Holds t no m') (.ret a) m :=
  fun _ hr _ => hh.stable hr

theorem createSharedControlBuffer_safe {t no : ℕ} {m : SubBuffers} (fails : Sys → Bool)
    (key : ShmName) (hm : SubInv m) (hh : Holds t no m) :
    Safe SubInv (creatorRole t) (fun _ m' => Holds t no m')
      (createSharedControlBuffer fails key) m := by
  unfold createSharedControlBuffer
  split
  · exact hh.safe_ret _
  refine Safe.bind hm ((shmOpen_safe _ _ hh).mono fun opened m1 i1 h1 => ?_)
  split
  · exact h1.safe_ret _
  split
  · exact h1.safe_ret _
  split
  · exact Safe.bind i1 ((shmUnlink_safe (by simp) h1).mono fun _ m2 _ h2 => h2.safe_ret _)
  refine Safe.bind i1 ((shmRename_safe _ _ _ h1).mono fun renamed m2 i2 h2 => ?_)
  split
  · exact h2.safe_ret _
  · exact Safe.bind i2 ((shmUnlink_safe (by simp) h2).mono fun _ m3 _ h3 => h3.safe_ret _)

theorem shmBufferInitialize_safe {t no : ℕ} {m : SubBuffers} (fails : Sys → Bool)
    (key : ShmName) (hm : SubInv m) (hh : Holds t no m) :
    Safe SubInv (creatorRole t) (fun _ m' => Holds t no m') (shmBufferInitialize fails key) m := by
  unfold shmBufferInitialize
  split
  · exact hh.safe_ret _
  refine Safe.bind hm ((shmOpen_safe _ _ hh).mono fun opened m1 i1 h1 => ?_)
  split
  · exact h1.safe_ret _
  split
  · exact h1.safe_ret _
  split
  · exact Safe.bind i1 ((shmUnlink_safe (by simp) h1).mono fun _ m2 _ h2 => h2.safe_ret _)
  refine Safe.bind i1 ((shmRename_safe _ _ _ h1).mono fun renamed m2 i2 h2 => ?_)
  split
  · exact h2.safe_ret _
  · exact Safe.bind i2 ((shmUnlink_safe (by simp) h2).mono fun _ m3 _ h3 => h3.safe_ret _)

/-- A number is drawn by one thread only. -/
theorem drawNumber_safe (t : ℕ) (m : SubBuffers) :
    Safe SubInv (creatorRole t) (fun no m' => Holds t no m') (drawNumber t) m := by
  intro m1 h1 i1 hpre
  have hroom := i1.room hpre.1
  have hno : (m1.lastSubbuferNo + 1) % 2 ^ 64 = m1.lastSubbuferNo + 1 :=
    Nat.mod_eq_of_lt (by omega)
  dsimp only [drawNumber]
  rw [hno]
  -- nobody has drawn the number after the last
  have fresh : m1.drawer (m1.lastSubbuferNo + 1) = none := by
    rw [Option.eq_none_iff_forall_ne_some]
    intro u hu
    have := (i1.drawn _ u hu).2 hpre.1
    omega
  have keep : ∀ k u, m1.drawer k = some u →
      Function.update m1.drawer (m1.lastSubbuferNo + 1) (some t) k = some u := by
    intro k u hk
    rw [Function.update_of_ne (by rintro rfl; rw [fresh] at hk; cases hk)]
    exact hk
  have nomem : m1.lastSubbuferNo + 1 ∉ m1.announced := by
    intro hmem
    obtain ⟨u, hu⟩ := i1.owned _ hmem
    rw [fresh] at hu; cases hu
  refine ⟨fun u _ => ⟨fun _ h => h, le_rfl, keep, fun _ _ => Iff.rfl⟩, ⟨?_, ?_, i1.nodup, ?_, i1.count,
    i1.few, i1.files⟩, ?_⟩
  · intro ha
    have hs := (Bool.and_eq_true_iff.mp ha).2
    unfold computeSubBufferKey at hs
    split at hs
    · assumption
    · cases hs
  · intro k u hk
    by_cases hk' : k = m1.lastSubbuferNo + 1
    · exact ⟨by omega, fun _ => hk'.le⟩
    · have hk1 : m1.drawer k = some u := (Function.update_of_ne hk' _ _).symm.trans hk
      have := i1.drawn k u hk1
      exact ⟨this.1, fun _ => (this.2 hpre.1).trans (Nat.le_succ _)⟩
  · intro k hk
    obtain ⟨u, hu⟩ := i1.owned k hk
    exact ⟨u, keep k u hu⟩
  · refine fun m2 h2 _ => Holds.stable (m := { m1 with
      lastSubbuferNo := m1.lastSubbuferNo + 1
      alive := m1.alive && (computeSubBufferKey (m1.lastSubbuferNo + 1)).isSome
      drawer := Function.update m1.drawer (m1.lastSubbuferNo + 1) (some t) }) ⟨?_, nomem⟩ h2
    exact Function.update_self _ _ _

/-- The announcement, made in order. -/
theorem announce_safe {t no : ℕ} {m : SubBuffers} (hh : Holds t no m) :
    Safe SubInv (creatorRole t) (fun _ _ => True) (announce no) m := by
  intro m1 h1 i1 hpre
  obtain ⟨hd, hna⟩ := hh.stable h1
  have hroom := i1.room hpre.1
  -- the count does not wrap: there are fewer announcements than numbers drawn
  have hlen : m1.announced.length ≤ m1.lastSubbuferNo := by
    rcases eq_or_ne m1.announced [] with h0 | h0
    · rw [h0]; exact Nat.zero_le _
    · obtain ⟨k, hk, hle⟩ := exists_length_le i1.nodup
        (fun k hk => (i1.drawn k _ (i1.owned k hk).choose_spec).1) h0
      exact hle.trans ((i1.drawn k _ (i1.owned k hk).choose_spec).2 hpre.1)
  have hmod : (m1.subbuffersNo + 1) % 2 ^ 64 = m1.subbuffersNo + 1 :=
    Nat.mod_eq_of_lt (by rw [i1.count]; omega)
  dsimp only
  rw [hmod]
  refine ⟨fun u hu => ⟨fun _ h => h, Nat.le_succ _, fun _ _ h => h, fun k hk => ?_⟩,
    ⟨i1.room, i1.drawn, List.nodup_cons.mpr ⟨hna, i1.nodup⟩, ?_, ?_, ?_, ?_⟩,
    fun _ _ _ => trivial⟩
  · refine ⟨fun hm => (List.mem_cons.mp hm).resolve_left ?_, List.mem_cons_of_mem _⟩
    rintro rfl
    exact hu (Option.some.inj (hk.symm.trans hd))
  · rintro k hk
    rcases List.mem_cons.mp hk with rfl | hk
    · exact ⟨t, hd⟩
    · exact i1.owned k hk
  · simp [i1.count]
  · simp only [List.length_cons]; omega
  · rintro k hk
    rcases List.mem_cons.mp hk with rfl | hk
    · exact hpre.2 k rfl
    · exact i1.files k hk

theorem createSubBuffer_safe (t : ℕ) (fails : Sys → Bool) {m : SubBuffers} (hm : SubInv m) :
    Safe SubInv (creatorRole t) (fun _ _ => True) (createSubBuffer t fails) m := by
  refine Safe.bind hm ((drawNumber_safe t m).mono fun no m1 i1 h1 => ?_)
  cases computeSubBufferKey no with
  | none => exact fun _ _ _ => trivial
  | some key =>
    refine Safe.bind i1 ((createSharedControlBuffer_safe fails key i1 h1).mono
      fun ctrl m2 i2 h2 => ?_)
    cases ctrl with
    | false => exact fun _ _ _ => trivial
    | true =>
      refine Safe.bind i2 ((shmBufferInitialize_safe fails key i2 h2).mono fun sbuf m3 i3 h3 => ?_)
      exact Safe.bind i3 ((announce_safe h3).mono fun _ _ _ _ => fun _ _ _ => trivial)

/-! ### The reader -/

/-- A sub-buffer that exists is found. -/
theorem tryConnect_safe {key : ℕ} : ∀ (retry : ℕ) {m : SubBuffers}, SubInv m →
    ShmName.sub key ∈ m.files →
    Safe SubInv readerRole (fun found _ => found = true) (tryConnect (.sub key) retry) m
  | 0, m, _, hf => Safe.access fun m1 h1 i1 =>
      ⟨rfl, i1, fun _ _ _ => decide_eq_true (h1.files _ hf)⟩
  | retry + 1, m, _, hf => Safe.access_bind fun m1 h1 i1 =>
      ⟨rfl, i1, by simp only [h1.files _ hf, decide_true, if_true]; exact fun _ _ _ => rfl⟩

theorem createSubstream_safe (n : ℕ) (m : SubBuffers) :
    Safe SubInv readerRole (fun _ _ => True) (createSubstream n) m := by
  refine Safe.access_bind fun m1 h1 i1 => ⟨rfl, i1, ?_⟩
  split
  · rename_i hlt
    have hfew := i1.few
    have hcount := i1.count
    have hno : (n + 1) % 2 ^ 64 = n + 1 := Nat.mod_eq_of_lt (by omega)
    have hmem := i1.created (i := n + 1) (by omega) (by omega)
    dsimp only
    rw [hno]
    unfold computeSubBufferKey
    split
    · rename_i heq
      split at heq <;> cases heq
      exact fun _ _ _ => trivial
    · rename_i key heq
      obtain rfl : ShmName.sub (n + 1) = key := by
        split at heq
        · exact Option.some.inj heq
        · cases heq
      refine Safe.bind i1 ((tryConnect_safe 10 i1 hmem).mono fun found m2 _ hfound => ?_)
      rw [Chk.require_eq hfound, Prog.ofChk_pure, Prog.ret_bind]
      exact fun _ _ _ => trivial
  · exact fun _ _ _ => trivial

/-! ### Runs -/

def role : Thread → Role SubBuffers SubAcc
  | .creator t => creatorRole t
  | .reader => readerRole

theorem start_inv : SubInv start.mem where
  room _ := by decide
  drawn k t h := by cases h
  nodup := List.nodup_nil
  owned k h := by cases h
  count := rfl
  few := Nat.zero_le _
  files k h := by cases h

/-- Every configuration of every run that announces in order. -/
theorem reach_inv {cfg : SubCfg} (h : Reach (clients AnnouncesInOrder) start cfg) :
    SubInv cfg.mem ∧
      ∀ t, Safe SubInv (role t) (fun _ _ => True) (cfg.prog t) cfg.mem := by
  refine reach_safe (ρ := role) (Q := fun _ _ _ => True) ?_ ?_ ?_
    start_inv ?_ h
  · intro t l m ha
    cases t with
    | creator t => exact ha
    | reader => trivial
  · intro t u htu l m m' _ _ hg
    cases t with
    | creator t => cases u with
      | creator u => exact hg u fun he => htu (he ▸ rfl)
      | reader =>
        have := hg (t + 1) (by omega)
        exact ⟨this.files, this.count⟩
    | reader =>
      obtain rfl : m' = m := hg
      cases u with
      | creator u => exact OthersStep.refl u _
      | reader => exact absurd rfl htu
  · intro t i x m hm _ _
    cases t with
    | creator t => exact createSubBuffer_safe t x hm
    | reader => exact createSubstream_safe i m
  · intro t
    cases t <;> exact fun _ _ _ => trivial

/-- Sub-buffers that are announced exist, in every run that announces in order — with any number of
    creators and any failures — and the reader finds the sub-buffer it connects to. -/
theorem announced_exist {cfg : SubCfg} (h : Reach (clients AnnouncesInOrder) start cfg) :
    (∀ i, 1 ≤ i → i ≤ cfg.mem.subbuffersNo → ShmName.sub i ∈ cfg.mem.files) ∧
    (cfg.prog .reader).faulty = false := by
  obtain ⟨hm, hs⟩ := reach_inv h
  exact ⟨fun i h1 hi => hm.created h1 hi, (hs .reader).not_faulty id⟩

instance (l : SubAcc) (m : SubBuffers) : Decidable (AnnouncesInOrder l m) :=
  match l with
  | .announce no => decidable_of_iff (∀ i ∈ Finset.Icc 1 no, ShmName.sub i ∈ m.files)
      ⟨fun h no' hno i h1 hi => by cases hno; exact h i (Finset.mem_Icc.mpr ⟨h1, hi⟩),
        fun h i hi => h no rfl i (Finset.mem_Icc.mp hi).1 (Finset.mem_Icc.mp hi).2⟩
  | .number => isTrue nofun
  | .file _ => isTrue nofun
  | .count => isTrue nofun
  | .open _ => isTrue nofun

/-- Two creators, one after the other, and the reader connects to both sub-buffers. -/
theorem announced_exist_two : ∃ cfg : SubCfg, Reach (clients AnnouncesInOrder) start cfg ∧
    cfg.mem.subbuffersNo = 2 ∧ cfg.prog .reader = .ret 2 ∧
    ((∀ i, 1 ≤ i → i ≤ cfg.mem.subbuffersNo → ShmName.sub i ∈ cfg.mem.files) ∧
      (cfg.prog .reader).faulty = false) := by
  have h0 : Reach (clients AnnouncesInOrder) start start := .start
  have h1 := h0.callIn (.creator 0) (i := .ready) (fun _ => false) rfl nofun
    (by show Prog.within (fun l m => m.alive = true ∧ AnnouncesInOrder l m) _ _; decide)
  have h2 := h1.callIn (.creator 1) (i := .ready) (fun _ => false) rfl nofun
    (by show Prog.within (fun l m => m.alive = true ∧ AnnouncesInOrder l m) _ _; decide)
  have h3 := h2.call .reader (i := 0) () rfl trivial fun _ _ => trivial
  have h4 := h3.call .reader (i := 1) () rfl trivial fun _ _ => trivial
  exact ⟨_, h4, rfl, rfl, announced_exist h4⟩

/-- The first creation fails for want of a control buffer, the second succeeds: one sub-buffer is
    announced, and number one does not exist. -/
theorem announced_missing : ¬ ∀ cfg : SubCfg, Reach (clients fun _ _ => True) start cfg →
    ∀ i, 1 ≤ i → i ≤ cfg.mem.subbuffersNo → ShmName.sub i ∈ cfg.mem.files := by
  intro hall
  have h0 : Reach (clients fun _ _ => True) start start := .start
  have h1 := h0.callIn (.creator 0) (i := .ready) (fun s => s == .ctrlOpen) rfl nofun
    (by show Prog.within (fun _ (m : SubBuffers) => m.alive = true ∧ True) _ _; decide)
  have h2 := h1.callIn (.creator 0) (i := .failed) (fun _ => false) rfl nofun
    (by show Prog.within (fun _ (m : SubBuffers) => m.alive = true ∧ True) _ _; decide)
  exact absurd (hall _ h2 1 le_rfl (by decide)) (by decide)

end SubBuffers

end Vamos
