import Mathlib.Tactic
import VamosBuffers.Schemes.Files
import VamosBuffers.Schemes.RelyGuarantee
import VamosBuffers.Shmbuf.BufferControl

/-! How a buffer comes into being and goes. A source creates two files, each under a temporary name
    first; whoever connects opens them by their names, in the other order:

        source   key.ctrl.tmp ─▶ key.ctrl      key.tmp ─▶ key       …       ✗ key   ✗ key.ctrl
        reader                                              key    key.ctrl

    Any call of the system may fail, a source may be killed between any two accesses and another one
    started, and readers may come at any time. `open` of the control file creates it if it is not
    there. -/

namespace Vamos
open Schemes

/-- A file under `/dev/shm`, seen as a buffer and as a control block. -/
structure ShmFile where
  length : ℕ
  allocatedSize : ℕ
  capacity : ℕ
  /-- the capacity of `info.ringbuf` -/
  ringCapacity : ℕ
  elemSize : ℕ
  destroyed : Bool
  control : Control
  deriving DecidableEq, Repr

/-- The names that belong to a key. -/
inductive KeyName where
  | buf | bufTmp | ctrl | ctrlTmp
  deriving DecidableEq, Repr

inductive PublishAcc where
  | openFile (n : KeyName) | truncate | write | read | rename | unlink (n : KeyName)
  deriving DecidableEq, Repr

abbrev ShmDir : Type := Dir KeyName ShmFile

abbrev PublishProg (α : Type) : Type := Prog ShmDir PublishAcc α

/-- What `vms_shm_buffer_create_adv` is called with. -/
structure CreateArgs where
  control : Control
  elemSize : ℕ
  capacity : ℕ
  deriving DecidableEq, Repr

namespace ShmFile

def empty : ShmFile := ⟨0, 0, 0, 0, 0, false, ⟨0, []⟩⟩

/-- `ftruncate`. -/
def truncate (n : ℕ) (f : ShmFile) : ShmFile :=
  { f with
    length := n,
    control := ⟨f.control.size, f.control.events.take ((n - Control.headBytes) / EventRecord.bytes)⟩ }

end ShmFile

namespace Publish

/-! ### Calls of the system -/

/-- `vms_shm_open`. -/
def openFile (n : KeyName) (creat trunc : Bool) : PublishProg (Option ℕ) :=
  Prog.access (.openFile n)
    (fun d => match d.inode n with
      | some i => some i
      | none => if creat then some d.fresh else none)
    fun d => match d.inode n with
      | some i => if trunc then d.write i fun _ => .empty else d
      | none => if creat then d.make n .empty else d

def truncate (i n : ℕ) : PublishProg Unit :=
  Prog.access .truncate (fun _ => ()) fun d => d.write i (ShmFile.truncate n)

/-- A store to the mapped file. -/
def write (i : ℕ) (g : ShmFile → ShmFile) : PublishProg Unit :=
  Prog.access .write (fun _ => ()) fun d => d.write i g

/-- `pread`, or a load from the mapped file. -/
def read {α : Type} (i : ℕ) (g : ShmFile → α) : PublishProg α :=
  Prog.access .read (fun d => g (d.file i)) fun d => d

/-- `vms_shm_rename`. -/
def rename (a b : KeyName) : PublishProg Unit :=
  Prog.access .rename (fun _ => ()) fun d => d.rename a b

/-- `vms_shm_unlink`. -/
def unlink (n : KeyName) : PublishProg Unit :=
  Prog.access (.unlink n) (fun _ => ()) fun d => d.unlink n

/-- A call that may fail. -/
def attempt {α : Type} (fails : Bool) (p : PublishProg (Option α)) : PublishProg (Option α) :=
  if fails then pure none else p

/-! ### Source -/

/-- The calls of the system that fail, for one of the two files. -/
structure Faults where
  openFile : Bool
  truncate : Bool
  mmap : Bool
  rename : Bool
  deriving DecidableEq, Repr

/-- `create_shared_control_buffer`. If the file cannot be mapped, it is the name of the control file
    that is taken away, not the temporary one. -/
def createSharedControl (control : Control) (x : Faults) : PublishProg (Option ℕ) := do
  let fd ← attempt x.openFile (openFile .ctrlTmp true false)
  match fd with
  | none => pure none
  | some fd => do
    let size := if control.size = 0 then Control.headBytes else control.size
    Prog.ofChk (Chk.require (Control.headBytes ≤ size))
    if x.truncate then pure none
    else do
      truncate fd size
      if x.mmap then do
        unlink .ctrl
        pure none
      else do
        -- `memcpy(mem, control, size)`
        write fd fun f => { f with control := { f.control with size := control.size } }
        write fd fun f => { f with control := control.createShared.val }
        if x.rename then do
          unlink .ctrlTmp
          pure none
        else do
          rename .ctrlTmp .ctrl
          pure (some fd)

/-- `_vms_shm_buffer_initialize`. -/
def bufferInitialize (elemSize capacity : ℕ) (x : Faults) : PublishProg (Option ℕ) := do
  let a ← Prog.ofChk (Allocation.shmBufferInitialize shmbufferBytes elemSize capacity)
  let fd ← attempt x.openFile (openFile .bufTmp true true)
  match fd with
  | none => pure none
  | some fd => do
    if x.truncate then pure none
    else do
      truncate fd a.bytes
      if x.mmap then do
        unlink .bufTmp
        pure none
      else do
        -- `memset(buff->shmbuffer, 0, sizeof(vms_shm_buffer_info))`
        write fd fun f => { f with
          allocatedSize := 0, capacity := 0, ringCapacity := 0, elemSize := 0, destroyed := false }
        write fd fun f => { f with allocatedSize := a.bytes }
        write fd fun f => { f with capacity := capacity }
        write fd fun f => { f with ringCapacity := a.ring.capacity }
        write fd fun f => { f with elemSize := elemSize }
        if x.rename then do
          unlink .bufTmp
          pure none
        else do
          rename .bufTmp .buf
          pure (some fd)

/-- `vms_shm_buffer_create_adv`; with element size 0, `vms_shm_buffer_create`. Nothing is created where
    the search for the element size reads beyond the mapped records. -/
def create (p : CreateArgs) (x y : Faults) : PublishProg (Option (ℕ × ℕ)) := do
  match ← createSharedControl p.control x with
  | none => pure none
  | some ctrl => do
    let control ← read ctrl (·.control)
    match ← Prog.ofChk (control.chooseSize p.elemSize) with
    | none => pure none
    | some elemSize => do
      match ← bufferInitialize elemSize p.capacity y with
      | none => pure none
      | some buf => pure (some (buf, ctrl))

/-- `vms_shm_buffer_destroy`, as far as the two files are concerned. -/
def destroy (buf : ℕ) : PublishProg Unit := do
  write buf fun f => { f with destroyed := true }
  unlink .buf
  unlink .ctrl

/-! ### Reader -/

/-- What goes wrong for a reader. -/
structure ReaderFaults where
  /-- for each attempt that is left -/
  openFile : ℕ → Bool
  pread : Bool
  mmap : Bool
  malloc : Bool
  openCtrl : Bool
  preadCtrl : Bool
  mmapCtrl : Bool
  /-- what is in `size` before `pread` -/
  garbage : ℕ

/-- What a reader has mapped. -/
structure Conn where
  buf : ℕ
  size : ℕ
  ctrl : ℕ
  ctrlSize : ℕ
  deriving DecidableEq, Repr

/-- The loop of `vms_shm_buffer_try_connect`, with so many attempts left. -/
def openRetry (fails : ℕ → Bool) : ℕ → PublishProg (Option ℕ)
  | 0 => pure none
  | left + 1 => do
    let fd ← attempt (fails left) (openFile .buf false false)
    match fd with
    | some i => pure (some i)
    | none => openRetry fails left

/-- `get_shared_control_buffer`. Nothing is read from a file that is empty, and 0 bytes cannot be
    mapped. -/
def getSharedControl (x : ReaderFaults) : PublishProg (Option (ℕ × ℕ)) := do
  let fd ← attempt x.openCtrl (openFile .ctrl true false)
  match fd with
  | none => pure none
  | some i => do
    if x.preadCtrl then pure none
    else do
      let size ← read i fun f =>
        if f.length < Control.headBytes then x.garbage else f.control.size
      if x.mmapCtrl || size == 0 then do
        unlink .ctrl
        pure none
      else pure (some (i, size))

/-- The end of a reader's call. -/
inductive Ended where
  /-- it has not come as far as to map the buffer -/
  | notFound
  /-- it has failed after that, and taken the buffer's name away -/
  | spoilt
  | connected (c : Conn)
  deriving DecidableEq, Repr

/-- `vms_shm_buffer_try_connect`. -/
def tryConnect (retry : ℕ) (x : ReaderFaults) : PublishProg Ended := do
  match ← openRetry x.openFile (retry + 1) with
  | none => pure .notFound
  | some i => do
    if x.pread then pure .notFound
    else do
      let size ← read i (·.allocatedSize)
      if size = 0 then pure .notFound
      else do
        let ctrl ← attempt (x.mmap || x.malloc) (getSharedControl x)
        match ctrl with
        | none => do
          unlink .buf
          pure .spoilt
        | some (ctrl, ctrlSize) => pure (.connected ⟨i, size, ctrl, ctrlSize⟩)

/-! ### Threads -/

/-- One source at a time, and any number of readers. -/
inductive Thread where
  | source
  | reader (r : ℕ)
  deriving DecidableEq, Repr

/-- There is no source, or there is one with these two files. -/
inductive SourceAt where
  | down
  | up (buf ctrl : ℕ)
  deriving DecidableEq, Repr

/-- A source may be killed after so many accesses, or between two calls. -/
inductive SourceCall where
  | create (p : CreateArgs) (x y : Faults) (killed : ℕ)
  | destroy (killed : ℕ)
  | die

inductive ReaderAt where
  | idle
  | ended (r : Ended)
  deriving DecidableEq, Repr

inductive ReaderCall where
  | connect (retry : ℕ) (x : ReaderFaults)
  | release

abbrev At : Thread → Type
  | .source => SourceAt
  | .reader _ => ReaderAt

abbrev Call : Thread → Type
  | .source => SourceCall
  | .reader _ => ReaderCall

/-- Sources create with arguments that are `passed`, and the assertion of
    `create_shared_control_buffer` holds. -/
def sourceClient (passed : CreateArgs → Prop) : Client ShmDir PublishAcc SourceAt SourceCall where
  enabled i x _ := match i, x with
    | .down, .create p _ _ _ =>
      passed p ∧ (p.control.size = 0 ∨ Control.headBytes ≤ p.control.size)
    | .up _ _, .destroy _ => True
    | .up _ _, .die => True
    | _, _ => False
  body i x := match i, x with
    | .down, .create p x y killed => do
      match ← (create p x y).upTo killed with
      | some (some (buf, ctrl)) => pure (.up buf ctrl)
      | _ => pure .down
    | .up buf _, .destroy killed => do
      let _ ← (destroy buf).upTo killed
      pure .down
    | _, _ => pure .down

def readerClient : Client ShmDir PublishAcc ReaderAt ReaderCall where
  enabled i x _ := match i, x with
    | .idle, .connect _ _ => True
    | .ended _, .release => True
    | _, _ => False
  body _ x := match x with
    | .connect retry x => do
      let r ← tryConnect retry x
      pure (.ended r)
    | .release => pure .idle

def clients (passed : CreateArgs → Prop) : (t : Thread) → Client ShmDir PublishAcc (At t) (Call t)
  | .source => sourceClient passed
  | .reader _ => readerClient

abbrev PublishCfg : Type := Cfg ShmDir PublishAcc At

/-- No files, no source. -/
def start : PublishCfg :=
  ⟨⟨fun _ => none, fun _ => .empty, 0⟩, fun
    | .source => .ret .down
    | .reader _ => .ret .idle⟩

/-! ### What is published -/

/-- The header is complete, and is that of a buffer with `k + 1` slots of `e` bytes. -/
structure Initialized (e k : ℕ) (f : ShmFile) : Prop where
  length : f.length = (Allocation.shmBufferInitialize shmbufferBytes e k).val.bytes
  allocatedSize : f.allocatedSize = f.length
  capacity : f.capacity = k
  ringCapacity :
    f.ringCapacity = (Allocation.shmBufferInitialize shmbufferBytes e k).val.ring.capacity
  elemSize : f.elemSize = e

/-- The bytes of the shared control block. -/
def sharedBytes (control : Control) : ℕ :=
  if control.size = 0 then Control.headBytes else control.size

section Invariant

variable (passed : CreateArgs → Prop)

/-- A whole buffer. -/
def Whole (f : ShmFile) : Prop := ∃ p, passed p ∧ ∃ elemSize,
  (p.control.createShared.val.chooseSize p.elemSize).val = some elemSize ∧
    Initialized elemSize p.capacity f

/-- A whole control block. -/
def HasControl (f : ShmFile) : Prop := ∃ p, passed p ∧ f.control = p.control.createShared.val ∧
  f.length = sharedBytes p.control ∧ Control.headBytes ≤ f.length

/-- What a name stands for. -/
def Good : KeyName → ShmFile → Prop
  | .buf, f => Whole passed f
  | .ctrl, f => HasControl passed f ∨ f.length = 0
  | _, _ => True

def FilesInv (d : ShmDir) : Prop := d.Ok (Good passed)

end Invariant

/-- The temporary names. -/
def Tmp (n : KeyName) : Prop := n = .bufTmp ∨ n = .ctrlTmp

/-- Nothing but `destroyed` has changed. -/
def Same (f f' : ShmFile) : Prop := f' = { f with destroyed := f'.destroyed }

theorem Same.refl (f : ShmFile) : Same f f := rfl

theorem Same.trans {f f' f'' : ShmFile} (h : Same f f') (h' : Same f' f'') : Same f f'' := by
  unfold Same at *
  rw [h', h]

/-- The files that are held stay as they were. -/
def sourceRole : Role ShmDir PublishAcc where
  rely := Dir.Untouched Tmp
  guar _ := Dir.Keeps Tmp Same
  refl := .refl
  trans := .trans
  lenient := True

def readerRole : Role ShmDir PublishAcc where
  rely := Dir.Keeps Tmp Same
  guar _ := Dir.Untouched Tmp
  refl := .refl Same.refl
  trans := .trans Same.trans

theorem attempt_safe {α : Type} {I : ShmDir → Prop} {ρ : Role ShmDir PublishAcc}
    {Q : α → ShmDir → Prop} {d : ShmDir} {p : PublishProg (Option α)} (fails : Bool)
    (h : Safe I ρ (fun r d => ∀ a, r = some a → Q a d) p d) :
    Safe I ρ (fun r d => ∀ a, r = some a → Q a d) (attempt fails p) d := by
  cases fails with
  | true => exact fun _ _ _ => nofun
  | false => exact h

section Proofs

variable {passed : CreateArgs → Prop} {d d' : ShmDir} {n : KeyName} {fd : ℕ} {f : ShmFile}

theorem Whole.same {f' : ShmFile} (h : Whole passed f) (hs : Same f f') : Whole passed f' := by
  obtain ⟨p, hp, e, he, h1, h2, h3, h4, h5⟩ := h
  rw [hs]
  exact ⟨p, hp, e, he, h1, h2, h3, h4, h5⟩

theorem HasControl.same {f' : ShmFile} (h : HasControl passed f) (hs : Same f f') :
    HasControl passed f' := by
  rw [hs]
  exact h

theorem Good.same {f' : ShmFile} (h : Good passed n f) (hs : Same f f') : Good passed n f' := by
  cases n with
  | buf => exact Whole.same h hs
  | ctrl =>
    refine Or.imp (fun h => HasControl.same h hs) (fun h => ?_) h
    rw [hs]
    exact h
  | bufTmp => trivial
  | ctrlTmp => trivial

/-! ### Source -/

/-- The source has a file under a temporary name. -/
structure Private (n : KeyName) (fd : ℕ) (f : ShmFile) (d : ShmDir) : Prop where
  name : d.inode n = some fd
  known : fd < d.fresh
  file : d.file fd = f

theorem Private.stable (h : Private n fd f d) (ht : Tmp n) (hr : Dir.Untouched Tmp d d') :
    Private n fd f d' :=
  ⟨(hr.inode n ht).trans h.name, h.known.trans_le hr.fresh, (hr.file fd h.known).trans h.file⟩

theorem openTmp_safe (ht : Tmp n) (trunc : Bool) :
    Safe (FilesInv passed) sourceRole (fun r d => ∀ fd, r = some fd → ∃ f, Private n fd f d)
      (openFile n true trunc) d := by
  refine Safe.access fun d1 _ i1 => ?_
  have hgood : ∀ f, Good passed n f := by
    intro f
    rcases ht with rfl | rfl <;> trivial
  have hstay : ∀ {d2 : ShmDir} {fd : ℕ} {f : ShmFile}, Private n fd f d2 →
      ∀ d3, Dir.Untouched Tmp d2 d3 → FilesInv passed d3 →
        ∀ k, some fd = some k → ∃ f, Private n k f d3 := by
    rintro d2 fd f hp d3 hr - k hk
    obtain rfl := Option.some.inj hk
    exact ⟨f, hp.stable ht hr⟩
  cases hn : d1.inode n with
  | some i =>
    have hp : ∀ f, Private n i f (d1.write i fun _ => f) := fun f =>
      ⟨hn, i1.known n i hn, by rw [Dir.write_file, if_pos rfl]⟩
    cases trunc with
    | true =>
      have hw : Dir.Keeps Tmp Same d1 (d1.write i fun _ => .empty) := .write Same.refl ht hn
      have hi : FilesInv passed (d1.write i fun _ => .empty) := Dir.Ok.write i1 fun m hm => by
        obtain rfl := i1.apart m n i hm hn
        exact hgood _
      exact ⟨hw, hi, hstay (hp .empty)⟩
    | false => exact ⟨.refl Same.refl d1, i1, hstay ⟨hn, i1.known n i hn, rfl⟩⟩
  | none =>
    refine ⟨.make Same.refl, Dir.Ok.make i1 (hgood _), hstay (f := .empty) ⟨?_, ?_, ?_⟩⟩
    · show (d1.make n .empty).inode n = _
      rw [Dir.make_inode, if_pos rfl]
    · exact Nat.lt_succ_self d1.fresh
    · show (d1.make n .empty).file d1.fresh = _
      rw [Dir.make_file, if_pos rfl]

theorem writeTmp_safe (ht : Tmp n) (h : Private n fd f d) (g : ShmFile → ShmFile) :
    Safe (FilesInv passed) sourceRole (fun _ d => Private n fd (g f) d) (write fd g) d := by
  refine Safe.access fun d1 h1 i1 => ?_
  have hp := h.stable ht h1
  refine ⟨.write Same.refl ht hp.name, Dir.Ok.write i1 fun m hm => ?_, fun d2 h2 _ => ?_⟩
  · obtain rfl := i1.apart m n fd hm hp.name
    rcases ht with rfl | rfl <;> trivial
  · refine Private.stable (d := d1.write fd g) ⟨hp.name, hp.known, ?_⟩ ht h2
    rw [Dir.write_file, if_pos rfl, hp.file]

theorem unlink_safe (n : KeyName) :
    Safe (FilesInv passed) sourceRole (fun _ _ => True) (unlink n) d :=
  Safe.access fun _ _ i1 => ⟨.unlink Same.refl, Dir.Ok.unlink i1, fun _ _ _ => trivial⟩

/-- The file gets its name: from now on everyone may look at it. -/
theorem rename_safe {b : KeyName} (ht : Tmp n) (hb : ¬ Tmp b) (h : Private n fd f d)
    (hg : Good passed b f) :
    Safe (FilesInv passed) sourceRole (fun _ d => fd < d.fresh ∧ d.file fd = f) (rename n b) d := by
  refine Safe.access fun d1 h1 i1 => ?_
  have hp := h.stable ht h1
  refine ⟨.rename Same.refl hb, Dir.Ok.rename i1 hp.name (hp.file.symm ▸ hg), fun d2 h2 _ => ?_⟩
  have hlt : fd < (d1.rename n b).fresh := by rw [Dir.rename_fresh]; exact hp.known
  refine ⟨hlt.trans_le h2.fresh, (h2.file fd hlt).trans ?_⟩
  rw [Dir.rename_file]
  exact hp.file

/-- A failure: nothing has been created. -/
theorem none_safe {α : Type} {Q : α → ShmDir → Prop} :
    Safe (FilesInv passed) sourceRole (fun r d => ∀ a, r = some a → Q a d) (pure none) d :=
  fun _ _ _ => nofun

theorem unlink_none_safe {α : Type} {Q : α → ShmDir → Prop} (hd : FilesInv passed d)
    (n : KeyName) : Safe (FilesInv passed) sourceRole (fun r d => ∀ a, r = some a → Q a d)
      (do unlink n; pure none) d :=
  Safe.bind hd ((unlink_safe n).mono fun _ _ _ _ => none_safe)

/-- `open` of a temporary file, which may fail, and what follows it. -/
theorem withTmp_safe {α : Type} {Q : α → ShmDir → Prop} {k : ℕ → PublishProg (Option α)}
    (hd : FilesInv passed d) (ht : Tmp n) (fails trunc : Bool)
    (hk : ∀ fd f d, FilesInv passed d → Private n fd f d →
      Safe (FilesInv passed) sourceRole (fun r d => ∀ a, r = some a → Q a d) (k fd) d) :
    Safe (FilesInv passed) sourceRole (fun r d => ∀ a, r = some a → Q a d) (do
      let fd ← attempt fails (openFile n true trunc)
      match fd with
      | none => pure none
      | some fd => k fd) d := by
  refine Safe.bind hd ((attempt_safe fails (openTmp_safe ht trunc)).mono fun r d1 i1 h1 => ?_)
  cases r with
  | none => exact none_safe
  | some fd =>
    obtain ⟨f, hp⟩ := h1 fd rfl
    exact hk fd f d1 i1 hp

theorem createSharedControl_safe {p : CreateArgs} (hd : FilesInv passed d) (hp : passed p)
    (hs : p.control.size = 0 ∨ Control.headBytes ≤ p.control.size) (x : Faults) :
    Safe (FilesInv passed) sourceRole (fun r d => ∀ i, r = some i →
      i < d.fresh ∧ (d.file i).control = p.control.createShared.val)
      (createSharedControl p.control x) d := by
  have ht : Tmp .ctrlTmp := .inr rfl
  have hb : ¬ Tmp .ctrl := by simp [Tmp]
  refine withTmp_safe hd ht _ _ fun fd f d1 i1 h1 => Safe.ofChk_bind trivial ?_
  split
  · exact none_safe
  refine Safe.bind i1 ((writeTmp_safe ht h1 _).mono fun _ d2 i2 h2 => ?_)
  split
  · exact unlink_none_safe i2 _
  refine Safe.bind i2 ((writeTmp_safe ht h2 _).mono fun _ d3 i3 h3 => ?_)
  refine Safe.bind i3 ((writeTmp_safe ht h3 _).mono fun _ d4 i4 h4 => ?_)
  split
  · exact unlink_none_safe i4 _
  have hgood : HasControl passed { f with
      length := sharedBytes p.control, control := p.control.createShared.val } := by
    refine ⟨p, hp, rfl, rfl, ?_⟩
    show Control.headBytes ≤ sharedBytes p.control
    unfold sharedBytes
    split <;> omega
  refine Safe.bind i4 ((rename_safe ht hb h4 (.inl hgood)).mono
    fun _ d5 _ ⟨hlt, hf⟩ => fun d6 h6 _ i hi => ?_)
  obtain rfl := Option.some.inj hi
  exact ⟨hlt.trans_le h6.fresh, by rw [h6.file fd hlt, hf]⟩

theorem bufferInitialize_safe {p : CreateArgs} {e : ℕ} (hd : FilesInv passed d) (hp : passed p)
    (he : (p.control.createShared.val.chooseSize p.elemSize).val = some e) (x : Faults) :
    Safe (FilesInv passed) sourceRole (fun r _ => ∀ i, r = some i → True)
      (bufferInitialize e p.capacity x) d := by
  have ht : Tmp .bufTmp := .inl rfl
  have hb : ¬ Tmp .buf := by simp [Tmp]
  refine Safe.ofChk_bind trivial (withTmp_safe hd ht _ _ fun fd f d1 i1 h1 => ?_)
  split
  · exact none_safe
  refine Safe.bind i1 ((writeTmp_safe ht h1 _).mono fun _ d2 i2 h2 => ?_)
  split
  · exact unlink_none_safe i2 _
  refine Safe.bind i2 ((writeTmp_safe ht h2 _).mono fun _ d3 i3 h3 => ?_)
  refine Safe.bind i3 ((writeTmp_safe ht h3 _).mono fun _ d4 i4 h4 => ?_)
  refine Safe.bind i4 ((writeTmp_safe ht h4 _).mono fun _ d5 i5 h5 => ?_)
  refine Safe.bind i5 ((writeTmp_safe ht h5 _).mono fun _ d6 i6 h6 => ?_)
  refine Safe.bind i6 ((writeTmp_safe ht h6 _).mono fun _ d7 i7 h7 => ?_)
  split
  · exact unlink_none_safe i7 _
  exact Safe.bind i7 ((rename_safe ht hb h7 ⟨p, hp, e, he, rfl, rfl, rfl, rfl, rfl⟩).mono
    fun _ _ _ _ => fun _ _ _ _ _ => trivial)

theorem create_safe {p : CreateArgs} (hd : FilesInv passed d) (hp : passed p)
    (hs : p.control.size = 0 ∨ Control.headBytes ≤ p.control.size) (x y : Faults) :
    Safe (FilesInv passed) sourceRole (fun _ _ => True) (create p x y) d := by
  refine Safe.bind hd ((createSharedControl_safe hd hp hs x).mono fun r d1 i1 h1 => ?_)
  cases r with
  | none => exact fun _ _ _ => trivial
  | some ctrl =>
    refine Safe.access_bind fun d2 h2 i2 => ⟨.refl Same.refl d2, i2, Safe.ofChk_bind trivial ?_⟩
    obtain ⟨hlt, hf⟩ := h1 ctrl rfl
    have hc : (d2.file ctrl).control = p.control.createShared.val := by rw [h2.file ctrl hlt, hf]
    dsimp only
    rw [hc]
    cases he : (p.control.createShared.val.chooseSize p.elemSize).val with
    | none => exact fun _ _ _ => trivial
    | some e =>
      refine Safe.bind i2 ((bufferInitialize_safe i2 hp he y).mono fun r d3 _ _ => ?_)
      cases r <;> exact fun _ _ _ => trivial

theorem destroy_safe (buf : ℕ) :
    Safe (FilesInv passed) sourceRole (fun _ _ => True) (destroy buf) d := by
  have hs : ∀ f : ShmFile, Same f { f with destroyed := true } := fun _ => rfl
  refine Safe.access_bind fun d1 _ i1 => ⟨.edit Same.refl hs,
    Dir.Ok.write i1 fun m hm => (i1.good m buf hm).same (hs _), ?_⟩
  have i2 : FilesInv passed (d1.write buf fun f => { f with destroyed := true }) :=
    Dir.Ok.write i1 fun m hm => (i1.good m buf hm).same (hs _)
  exact Safe.bind i2 ((unlink_safe .buf).mono fun _ _ _ _ => unlink_safe .ctrl)

/-! ### Reader -/

/-- A file that nobody prepares any more. -/
def HeldBy (P : ShmFile → Prop) (i : ℕ) (d : ShmDir) : Prop := d.Sealed Tmp i ∧ P (d.file i)

theorem HeldBy.stable {P : ShmFile → Prop} {i : ℕ} (hP : ∀ f f', P f → Same f f' → P f')
    (h : HeldBy P i d) (hr : Dir.Keeps Tmp Same d d') : HeldBy P i d' := by
  obtain ⟨hs, hf⟩ := hr i h.1
  exact ⟨hs, hP _ _ h.2 hf⟩

/-- The control block that a reader has mapped. -/
def CtrlHeld (passed : CreateArgs → Prop) (size : ℕ) (f : ShmFile) : Prop :=
  HasControl passed f ∧ size = f.control.size ∧ size ≠ 0 ∨ f.length = 0

theorem CtrlHeld.same {size : ℕ} {f' : ShmFile} (h : CtrlHeld passed size f) (hs : Same f f') :
    CtrlHeld passed size f' := by
  refine Or.imp (fun h => ⟨h.1.same hs, ?_⟩) (fun h => ?_) h
  · rw [hs]; exact h.2
  · rw [hs]; exact h

/-- What a reader has when it is connected. -/
structure Connected (passed : CreateArgs → Prop) (c : Conn) (d : ShmDir) : Prop where
  buf : HeldBy (fun f => Whole passed f ∧ c.size = f.length) c.buf d
  ctrl : HeldBy (CtrlHeld passed c.ctrlSize) c.ctrl d

theorem Connected.stable {c : Conn} (h : Connected passed c d) (hr : Dir.Keeps Tmp Same d d') :
    Connected passed c d' := by
  refine ⟨h.buf.stable (fun f f' hf hs => ⟨hf.1.same hs, ?_⟩) hr,
    h.ctrl.stable (fun _ _ hf hs => hf.same hs) hr⟩
  rw [hs]
  exact hf.2

theorem readerUnlink_safe {a : Ended} (hn : ¬ Tmp n) (hd : FilesInv passed d)
    (ha : ∀ c, a ≠ .connected c) : Safe (FilesInv passed) readerRole
      (fun r d => ∀ c, r = .connected c → Connected passed c d) (do unlink n; pure a) d := by
  refine Safe.bind hd (Safe.access fun _ _ i1 => ⟨.unlink hn, Dir.Ok.unlink i1, fun _ _ _ => ?_⟩)
  exact fun _ _ _ c hc => absurd hc (ha c)

theorem openBuf_safe :
    Safe (FilesInv passed) readerRole (fun r d => ∀ i, r = some i → HeldBy (Whole passed) i d)
      (openFile .buf false false) d := by
  refine Safe.access fun d1 _ i1 => ?_
  cases hn : d1.inode .buf with
  | none => exact ⟨.refl d1, i1, fun _ _ _ => nofun⟩
  | some i =>
    refine ⟨.refl d1, i1, fun d2 h2 _ k hk => ?_⟩
    obtain rfl := Option.some.inj hk
    have hh : HeldBy (Whole passed) i d1 := ⟨i1.sealed (by simp [Tmp]) hn, i1.good .buf i hn⟩
    exact hh.stable (fun _ _ h hs => h.same hs) h2

theorem openRetry_safe (fails : ℕ → Bool) (left : ℕ) (hd : FilesInv passed d) :
    Safe (FilesInv passed) readerRole (fun r d => ∀ i, r = some i → HeldBy (Whole passed) i d)
      (openRetry fails left) d := by
  induction left generalizing d with
  | zero => exact fun _ _ _ => nofun
  | succ left ih =>
    refine Safe.bind hd ((attempt_safe (fails left) openBuf_safe).mono fun r d1 i1 h1 => ?_)
    cases r with
    | none => exact ih i1
    | some i =>
      refine fun d2 h2 _ k hk => ?_
      obtain rfl := Option.some.inj hk
      exact (h1 i rfl).stable (fun _ _ h hs => h.same hs) h2

/-- The file behind the name of the control block, or a new one. -/
theorem openCtrl_safe :
    Safe (FilesInv passed) readerRole (fun r d => ∀ i, r = some i →
      HeldBy (fun f => HasControl passed f ∨ f.length = 0) i d) (openFile .ctrl true false) d := by
  have hn : ¬ Tmp .ctrl := by simp [Tmp]
  have hs : ∀ f f', (HasControl passed f ∨ f.length = 0) → Same f f' →
      HasControl passed f' ∨ f'.length = 0 := fun _ _ h hs => Good.same (n := .ctrl) h hs
  refine Safe.access fun d1 _ i1 => ?_
  cases hi : d1.inode .ctrl with
  | some i =>
    refine ⟨.refl d1, i1, fun d2 h2 _ k hk => ?_⟩
    obtain rfl := Option.some.inj hk
    have hh : HeldBy (fun f => HasControl passed f ∨ f.length = 0) i d1 :=
      ⟨i1.sealed hn hi, i1.good .ctrl i hi⟩
    exact hh.stable hs h2
  | none =>
    have i2 : FilesInv passed (d1.make .ctrl .empty) := Dir.Ok.make i1 (.inr rfl)
    refine ⟨.make hn, i2, fun d2 h2 _ k hk => ?_⟩
    obtain rfl : d1.fresh = k := Option.some.inj hk
    have hname : (d1.make .ctrl .empty).inode .ctrl = some d1.fresh := by
      rw [Dir.make_inode, if_pos rfl]
    have hh : HeldBy (fun f => HasControl passed f ∨ f.length = 0) d1.fresh
        (d1.make .ctrl .empty) := ⟨i2.sealed hn hname, i2.good .ctrl _ hname⟩
    exact hh.stable hs h2

theorem getSharedControl_safe (x : ReaderFaults) (hd : FilesInv passed d) :
    Safe (FilesInv passed) readerRole
      (fun r d => ∀ c, r = some c → HeldBy (CtrlHeld passed c.2) c.1 d) (getSharedControl x) d := by
  refine Safe.bind hd ((attempt_safe x.openCtrl openCtrl_safe).mono fun r d1 i1 h1 => ?_)
  cases r with
  | none => exact fun _ _ _ _ => nofun
  | some i =>
    have h1 := h1 i rfl
    dsimp only
    split
    · exact fun _ _ _ _ => nofun
    refine Safe.access_bind fun d2 h2 i2 => ⟨.refl d2, i2, ?_⟩
    have h2 := h1.stable (fun _ _ h hs => Good.same (n := .ctrl) h hs) h2
    split
    · exact Safe.bind i2 (Safe.access fun _ _ i3 => ⟨.unlink (by simp [Tmp]), Dir.Ok.unlink i3,
        fun _ _ _ => fun _ _ _ _ => nofun⟩)
    · rename_i hsize
      refine fun d3 h3 _ c hc => ?_
      obtain rfl := Option.some.inj hc
      have hc : HeldBy (CtrlHeld passed (if (d2.file i).length < Control.headBytes then x.garbage
          else (d2.file i).control.size)) i d2 := by
        refine ⟨h2.1, h2.2.imp_left fun hc => ⟨hc, if_neg ?_, fun h0 => ?_⟩⟩
        · obtain ⟨-, -, -, -, hle⟩ := hc
          exact hle.not_gt
        · exact hsize (by simp [h0])
      exact hc.stable (fun _ _ h hs => h.same hs) h3

/-- `vms_shm_buffer_try_connect`. -/
theorem tryConnect_safe (retry : ℕ) (x : ReaderFaults) (hd : FilesInv passed d) :
    Safe (FilesInv passed) readerRole
      (fun r d => ∀ c, r = .connected c → Connected passed c d) (tryConnect retry x) d := by
  refine Safe.bind hd ((openRetry_safe x.openFile _ hd).mono fun r d1 i1 h1 => ?_)
  cases r with
  | none => exact fun _ _ _ _ => nofun
  | some i =>
    have h1 := h1 i rfl
    dsimp only
    split
    · exact fun _ _ _ _ => nofun
    refine Safe.access_bind fun d2 h2 i2 => ⟨.refl d2, i2, ?_⟩
    have h2 := h1.stable (fun _ _ h hs => h.same hs) h2
    dsimp only
    split
    · exact fun _ _ _ _ => nofun
    -- the buffer that was mapped stays whole while the control block is looked for
    have hsame : ∀ f f', Whole passed f ∧ (d2.file i).allocatedSize = f.length → Same f f' →
        Whole passed f' ∧ (d2.file i).allocatedSize = f'.length := fun f f' h hs =>
      ⟨h.1.same hs, by rw [hs]; exact h.2⟩
    have hbuf : HeldBy (fun f => Whole passed f ∧ (d2.file i).allocatedSize = f.length) i d2 := by
      obtain ⟨p, hp, e, he, hi⟩ := h2.2
      exact ⟨h2.1, h2.2, hi.allocatedSize⟩
    refine Safe.bind i2 (((attempt_safe (x.mmap || x.malloc) (getSharedControl_safe x i2)).frame
      (fun _ _ hf hr => hf.stable hsame hr)
      (fun _ _ _ hf hg => hf.stable hsame (hg.keeps Same.refl)) hbuf).mono fun r d3 i3 h3 => ?_)
    obtain ⟨hc, hb⟩ := h3
    cases r with
    | none => exact readerUnlink_safe (by simp [Tmp]) i3 fun _ => nofun
    | some c =>
      refine fun d4 h4 _ c' hcc => ?_
      obtain rfl := Ended.connected.inj hcc
      exact Connected.stable ⟨hb, hc c rfl⟩ h4

/-! ### Runs -/

def role : Thread → Role ShmDir PublishAcc
  | .source => sourceRole
  | .reader _ => readerRole

/-- What each thread knows between two calls. -/
def Known (passed : CreateArgs → Prop) : (t : Thread) → At t → ShmDir → Prop
  | .source, _, _ => True
  | .reader _, .ended (.connected c), d => Connected passed c d
  | .reader _, _, _ => True

theorem role_compat {t u : Thread} (htu : t ≠ u) {l : PublishAcc}
    (hg : (role t).guar l d d') : (role u).rely d d' := by
  cases t with
  | source =>
    cases u with
    | source => exact absurd rfl htu
    | reader r => exact hg
  | reader r =>
    have hu : Dir.Untouched Tmp d d' := hg
    cases u with
    | source => exact hu
    | reader r' => exact hu.keeps Same.refl

theorem clients_safe (t : Thread) (i : At t) (x : Call t) (d : ShmDir) (hd : FilesInv passed d)
    (he : (clients passed t).enabled i x d) :
    Safe (FilesInv passed) (role t) (Known passed t) ((clients passed t).body i x) d := by
  cases t with
  | source =>
    cases i with
    | down =>
      cases x with
      | create p x y killed =>
        refine Safe.bind hd (((create_safe hd he.1 he.2 x y).upTo killed).mono fun r _ _ _ => ?_)
        rcases r with - | - | c <;> exact fun _ _ _ => trivial
      | destroy killed => exact he.elim
      | die => exact he.elim
    | up buf ctrl =>
      cases x with
      | create p x y killed => exact he.elim
      | destroy killed =>
        exact Safe.bind hd (((destroy_safe buf).upTo killed).mono fun _ _ _ _ => fun _ _ _ => trivial)
      | die => exact fun _ _ _ => trivial
  | reader r =>
    cases x with
    | release => exact fun _ _ _ => trivial
    | connect retry x =>
      refine Safe.bind hd ((tryConnect_safe retry x hd).mono fun e d1 _ h1 => fun d2 h2 _ => ?_)
      cases e with
      | connected c => exact (h1 c rfl).stable h2
      | notFound => trivial
      | spoilt => trivial

end Proofs

/-- Four slots of 24 bytes, and no events. -/
def four : CreateArgs := ⟨⟨8, []⟩, 24, 4⟩

def noFaults : Faults := ⟨false, false, false, false⟩

def noReaderFaults : ReaderFaults := ⟨fun _ => false, false, false, false, false, false, false, 0⟩

end Publish

end Vamos
