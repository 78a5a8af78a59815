import Mathlib.Tactic
import VamosBuffers.Schemes.Checked

/-! What a source says about its events: `src/core/source.c` and `src/core/signatures.c`. A control
    block is a size and one record for each event; it is made from an array of names and an array of
    signatures, or from one string that holds both.

        "read:Sl,close:i,"        name   signature   size
                                  read   Sl          16 + 8 + 8
                                  close  i           16 + 4

    A C string is the list of its characters before the NUL, and a pointer into it is the rest of the
    string from there on, so `strchr` returns a suffix and the difference of two pointers is a
    difference of lengths. The flag of a result says that the assertions held and that the local
    arrays were written only inside. -/

namespace Vamos
open Schemes

/-- The characters of a C string. -/
abbrev Text := List Char

/-- `strchr(s, c)`, for a character that is not the NUL. -/
def strchr (c : Char) : Text → Option Text
  | [] => none
  | x :: s => if x = c then some (x :: s) else strchr c s

theorem strchr_append {c : Char} {a : Text} (b : Text) (h : c ∉ a) :
    strchr c (a ++ c :: b) = some (c :: b) := by
  induction a with
  | nil => simp [strchr]
  | cons x a ih =>
    simp only [List.mem_cons, not_or] at h
    simp [strchr, Ne.symm h.1, ih h.2]

theorem strchr_eq_none {c : Char} {s : Text} (h : c ∉ s) : strchr c s = none := by
  induction s with
  | nil => rfl
  | cons x s ih =>
    simp only [List.mem_cons, not_or] at h
    simp [strchr, Ne.symm h.1, ih h.2]

theorem not_mem_of_strchr {c : Char} {s : Text} (h : strchr c s = none) : c ∉ s := by
  induction s with
  | nil => simp
  | cons x s ih =>
    rw [strchr] at h
    split at h
    · cases h
    · rename_i hx
      simp [Ne.symm hx, ih h]

theorem of_strchr {c : Char} {s t : Text} (h : strchr c s = some t) :
    ∃ a b, s = a ++ c :: b ∧ c ∉ a ∧ t = c :: b := by
  induction s with
  | nil => cases h
  | cons x s ih =>
    rw [strchr] at h
    split at h
    · rename_i hx
      cases h
      exact ⟨[], s, by simp [hx], by simp, by simp [hx]⟩
    · rename_i hx
      obtain ⟨a, b, rfl, ha, rfl⟩ := ih h
      exact ⟨x :: a, b, by simp, by simp [Ne.symm hx, ha], rfl⟩

/-- `strncmp(a, b, n) == 0`. -/
def strncmpEq (n : ℕ) (a b : Text) : Bool := a.take n = b.take n

/-- The C string in an array of characters. -/
def cString (array : Text) : Text := array.takeWhile (· ≠ '\x00')

/-- `strncpy(dst, src, n)`: the `n` characters it leaves in `dst`. -/
def strncpy (n : ℕ) (src : Text) : Text := src.take n ++ List.replicate (n - src.length) '\x00'

/-! ### Signatures -/

/-- `signature_op_get_size`, or nothing where it aborts. -/
def signatureOpGetSize : Char → Option ℕ
  | 'c' => some 1
  | 'h' => some 2
  | 'i' => some 4
  | 'l' | 'f' | 'd' => some 8
  | 'p' => some 8
  | 't' => some 8
  | 'S' | 'L' | 'M' => some 8
  | '?' => some 8
  | '_' => some 0
  | _ => none

/-- `signature_get_size`, with the loop's `n`. -/
def signatureSum (n : ℕ) : Text → Option ℕ
  | [] => some n
  | c :: sig =>
    match signatureOpGetSize c with
    | none => none
    | some k => signatureSum ((n + k) % 2 ^ 64) sig

/-- `signature_get_size`. -/
def signatureGetSize (sig : Text) : Option ℕ := signatureSum 0 sig

/-! ### Records -/

/-- `struct vms_event_record`: the 64 bytes of the name, the kind, the size and the 32 bytes of the
    signature. -/
structure EventRecord where
  name : Text
  kind : ℕ
  size : ℕ
  signature : Text
  deriving DecidableEq, Repr

namespace EventRecord

/-- `sizeof(ev->name) - 1`. -/
def maxNameSize : ℕ := 63

/-- `sizeof(ev->signature) - 1`. -/
def maxSigSize : ℕ := 31

/-- `sizeof(struct vms_event_record)`. -/
def bytes : ℕ := 112

/-- `init_record`, or nothing where a signature letter aborts it. -/
def init (name sig : Text) : Chk (Option EventRecord) := do
  Chk.require (name.length ≤ maxNameSize)
  Chk.require (sig.length ≤ maxSigSize)
  match signatureGetSize sig with
  | none => pure none
  | some k => pure (some
      { name := strncpy maxNameSize name ++ ['\x00']
        signature := strncpy maxSigSize sig ++ ['\x00']
        size := (k + 16) % 2 ^ 64
        kind := 0 })

end EventRecord

/-- `struct vms_source_control`; a record is `none` while nothing was written to it. -/
structure Control where
  size : ℕ
  events : List (Option EventRecord)
  deriving DecidableEq, Repr

/-- What a definition of a control block comes to. -/
inductive Defined where
  | null
  | abort
  | block (control : Control)
  deriving DecidableEq, Repr

namespace Control

/-- `sizeof(struct vms_source_control)`. -/
def headBytes : ℕ := 8

/-- `vms_source_control_allocate`; the allocation succeeds. -/
def allocate (evNums : ℕ) : Control where
  size := (headBytes + evNums * EventRecord.bytes) % 2 ^ 64
  events := List.replicate evNums none

/-- `vms_source_control_get_records_num`: the number of records is not stored. -/
def getRecordsNum (control : Control) : Chk ℕ := do
  let bytes ← Chk.sub control.size headBytes
  pure (bytes / EventRecord.bytes)

/-- The loop of `vms_source_control_max_event_size`, with `left` records to look at; nothing, where it
    looks at one that is not there. -/
def maxSizeFrom (events : List (Option EventRecord)) : ℕ → ℕ → ℕ → Option ℕ
  | 0, _, maxSize => some maxSize
  | left + 1, i, maxSize =>
    match events[i]? with
    | some (some r) => maxSizeFrom events left (i + 1) (if maxSize < r.size then r.size else maxSize)
    | _ => none

/-- `vms_source_control_max_event_size`. -/
def maxEventSize (control : Control) : Chk (Option ℕ) := do
  let en ← control.getRecordsNum
  pure (maxSizeFrom control.events en 0 0)

/-- The loop of `vms_source_control_get_event`, with `left` records to look at: the index of the record
    of that name, or `NULL`; nothing, where it looks at a record that is not there. -/
def getEventFrom (events : List (Option EventRecord)) (name : Text) : ℕ → ℕ → Option (Option ℕ)
  | 0, _ => some none
  | left + 1, i =>
    match events[i]? with
    | some (some r) =>
      if strncmpEq (EventRecord.maxNameSize + 1) (cString r.name) name then some (some i)
      else getEventFrom events name left (i + 1)
    | _ => none

/-- `vms_source_control_get_event`. -/
def getEvent (control : Control) (name : Text) : Option (Option ℕ) :=
  getEventFrom control.events name control.getRecordsNum.val 0

/-- `rec->kind = kind`. -/
def setKind (control : Control) (i kind : ℕ) : Control :=
  { control with events := control.events.modify i fun r => r.map ({ · with kind }) }

/-- A record is written. -/
def put (control : Control) (i : ℕ) (r : EventRecord) : Control :=
  { control with events := control.events.set i (some r) }

/-- The loop of `vms_source_control_define_pairwise`. -/
def initFrom : ℕ → Control → List Text → List Text → Chk Defined
  | i, control, name :: names, sig :: signatures => do
    match ← EventRecord.init name sig with
    | none => pure .abort
    | some r => initFrom (i + 1) (control.put i r) names signatures
  | _, control, _, _ => pure (.block control)

/-- `vms_source_control_define_pairwise`; `ev_nums` is the length of the two arrays. -/
def definePairwise (names signatures : List Text) : Chk Defined :=
  initFrom 0 (allocate names.length) names signatures

/-! ### The parser -/

/-- The four pointers of `vms_source_control_define_str`. -/
structure Marks where
  nStart : Text
  nEnd : Text
  sStart : Text
  sEnd : Text
  deriving DecidableEq, Repr

/-- The pointers of the entry at `nStart`, or nothing where the code goes to `err`; only the last
    entry may end with the string. -/
def marks (nStart : Text) (last : Bool) : Option Marks :=
  match strchr ':' nStart with
  | none => none
  | some nEnd =>
    match strchr ',' nEnd.tail with
    | some sEnd => some ⟨nStart, nEnd, nEnd.tail, sEnd⟩
    | none => if last then some ⟨nStart, nEnd, nEnd.tail, []⟩ else none

/-- A part of the string is copied to a local array of `maxNameSize` characters, and closed: both
    `name` and `sig` have that size, and each is asserted to be no longer than its own `limit`. -/
def copyPart (first last : Text) (limit : ℕ) : Chk Text := do
  Chk.require (first.length - last.length ≤ limit)
  Chk.require (first.length - last.length ≤ EventRecord.maxNameSize)
  -- name[n_end - n_start] = 0
  Chk.require (first.length - last.length < EventRecord.maxNameSize)
  pure (first.take (first.length - last.length))

/-- The loop of `vms_source_control_define_str`, with `left` of the `evNums` entries to come. -/
def parseFrom (evNums : ℕ) : ℕ → Control → Marks → Chk Defined
  | 0, control, _ => pure (.block control)
  | left + 1, control, m => do
    let i := evNums - (left + 1)
    let name ← copyPart m.nStart m.nEnd EventRecord.maxNameSize
    let sig ← copyPart m.sStart m.sEnd EventRecord.maxSigSize
    match ← EventRecord.init name sig with
    | none => pure .abort
    | some r =>
      match m.sEnd with
      | [] => pure (.block (control.put i r))
      | [_] => pure (.block (control.put i r))
      | _ :: nStart =>
        match marks nStart (i + 1 == evNums - 1) with
        | none => pure .null
        | some m => parseFrom evNums left (control.put i r) m

/-- `vms_source_control_define_str`. -/
def defineStr (str : Text) : Chk Defined :=
  let evNums := str.count ':'
  let comNums := str.count ','
  if 0 < evNums ∧ (evNums = comNums ∨ evNums = comNums + 1) then
    match marks str (!decide (1 < evNums)) with
    | none => pure .null
    | some m => parseFrom evNums evNums (allocate evNums) m
  else pure .null

end Control

end Vamos
