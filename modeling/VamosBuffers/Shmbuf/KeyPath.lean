import Mathlib.Tactic
import VamosBuffers.Core.Source
import VamosBuffers.Schemes.Blocks

/-! The file of a key: `vms_shm_mapname`, `vms_shm_map_ctrl_key` and `vms_shm_open` of
    `src/shmbuf/shm.c`, and the two functions of `src/shmbuf/buffer.c` that give the file's name to the
    caller.

        key        //name          ctrl key      //name.ctrl
        file       /dev/shm/name                 /dev/shm/name.ctrl
        written    /dev/shm/name NUL NUL

    What a function writes to an array is a list of copies; whether they stay inside is asked of the
    list. The flag of a result says that the assertions held. -/

namespace Vamos
open Schemes

/-- An array of characters; `none` is one that was not written. -/
abbrev CharArray := List (Option Char)

/-- `memcpy(array + off, chars, n)`. -/
structure Write where
  off : ℕ
  chars : Text
  deriving DecidableEq, Repr

namespace CharArray

def write (array : CharArray) (w : Write) : CharArray := overwrite array w.off (w.chars.map some)

def writeAll (array : CharArray) (ws : List Write) : CharArray := ws.foldl write array

/-- The C string at the start of the array, nothing where it is not closed. -/
def str : CharArray → Option Text
  | [] => none
  | none :: _ => none
  | some c :: array => if c = '\x00' then some [] else (str array).map (c :: ·)

end CharArray

/-- Every copy stays inside an array of `n` characters. -/
def Inside (n : ℕ) (ws : List Write) : Prop := ∀ w ∈ ws, w.off + w.chars.length ≤ n

namespace Shm

/-- `SHM_NAME_MAXLEN`. -/
def nameMaxlen : ℕ := 256

/-- `SHM_DIR`. -/
def dir : Text := ['/', 'd', 'e', 'v', '/', 's', 'h', 'm', '/']

/-- `SHM_DIRlen`. -/
def dirLen : ℕ := 9

/-- `while (name[0] == '/') ++name`. -/
def strip (name : Text) : Text := name.dropWhile (· = '/')

/-- `vms_shm_mapname`: what it writes to `buf`, or `NULL`. -/
def mapname (name : Text) : Chk (Option (List Write)) := do
  Chk.require (name.head? = some '/')
  let name := strip name
  let namelen := name.length + 1
  if namelen = 1 ∨ nameMaxlen ≤ namelen ∨ (strchr '/' name).isSome then do
    Chk.require False
    pure none
  else if nameMaxlen ≤ dirLen + namelen then do
    Chk.require False
    pure none
  else pure (some [⟨0, dir⟩, ⟨dirLen, name ++ ['\x00']⟩, ⟨dirLen + namelen, ['\x00']⟩])

/-- `".ctrl"`. -/
def ctrlSuffix : Text := ['.', 'c', 't', 'r', 'l']

/-- `vms_shm_map_ctrl_key`: what it writes to `key`; it never returns `NULL`. -/
def mapCtrlKey (buffkey : Text) : Chk (Option (List Write)) := do
  Chk.require (buffkey.length < nameMaxlen - 6)
  -- the nul character is copied, too
  Chk.require ((ctrlSuffix ++ ['\x00'])[5]? = some '\x00')
  pure (some [⟨0, buffkey⟩, ⟨buffkey.length, ctrlSuffix ++ ['\x00']⟩])

/-- A local array of `SHM_NAME_MAXLEN` characters. -/
def fresh : CharArray := List.replicate nameMaxlen none

/-- `vms_shm_open`: the name of the file that is opened, nothing where it aborts. -/
def openName (key : Text) : Chk (Option Text) := do
  let mapped ← mapname key
  pure (mapped.bind fun ws => (fresh.writeAll ws).str)

/-- What computing a path comes to: what is returned and what is written, to the caller's array and to
    the local `ctrlkey`. -/
structure KeyPath where
  ret : ℤ
  keypath : List Write
  ctrlkey : List Write
  deriving DecidableEq, Repr

/-- `vms_shm_buffer_compute_key_path`. -/
def computeKeyPath (key : Text) (keypathsize : ℕ) : Chk KeyPath :=
  if nameMaxlen ≤ keypathsize then pure ⟨-1, [], []⟩
  else do
    let mapped ← mapname key
    match mapped with
    | none => pure ⟨-2, [], []⟩
    | some ws => pure ⟨0, ws, []⟩

/-- `vms_shm_buffer_compute_ctrl_key_path`. -/
def computeCtrlKeyPath (key : Text) (keypathsize : ℕ) : Chk KeyPath :=
  if nameMaxlen ≤ keypathsize then pure ⟨-1, [], []⟩
  else do
    let ctrl ← mapCtrlKey key
    match ctrl with
    | none => pure ⟨-3, [], []⟩
    | some cs => do
      let mapped ← mapname ((fresh.writeAll cs).str.getD [])
      match mapped with
      | none => pure ⟨-2, [], cs⟩
      | some ws => pure ⟨0, ws, cs⟩

/-- The writes stay inside the arrays. -/
structure KeyPath.Inside (r : KeyPath) (keypathsize : ℕ) : Prop where
  keypath : Vamos.Inside keypathsize r.keypath
  ctrlkey : Vamos.Inside nameMaxlen r.ctrlkey

/-- It returns 0, and the array then holds the name of the file. -/
structure KeyPath.Holds (r : KeyPath) (keypathsize : ℕ) (file : Option Text) : Prop where
  ret : r.ret = 0
  str : ∀ keypath : CharArray, keypath.length = keypathsize → (keypath.writeAll r.keypath).str = file

/-- The two functions write only inside the arrays, and into one of `SHM_NAME_MAXLEN` characters or more
    they write the file that is opened for the key, and for its ctrl key. -/
structure RespectsBuffer (key : Text) (keypathsize : ℕ) : Prop where
  path : (computeKeyPath key keypathsize).val.Inside keypathsize
  ctrl : (computeCtrlKeyPath key keypathsize).val.Inside keypathsize
  path_holds : nameMaxlen ≤ keypathsize →
    (computeKeyPath key keypathsize).val.Holds keypathsize (openName key).val
  ctrl_holds : nameMaxlen ≤ keypathsize →
    (computeCtrlKeyPath key keypathsize).val.Holds keypathsize (openName (key ++ ctrlSuffix)).val

/-- The keys that `vms_shm_open` does not abort for. -/
structure Accepted (key : Text) : Prop where
  closed : '\x00' ∉ key
  opens : (openName key).val.isSome

/-- The array is shorter than `SHM_NAME_MAXLEN`; the name without its leading slashes, `/dev/shm/` and
    two NULs fit into it, and so does the name with the suffix, if that is still one; and the key with
    the suffix fits into the local array. -/
structure Fits (key : Text) (keypathsize : ℕ) : Prop where
  short : keypathsize < nameMaxlen
  path : dirLen + (strip key).length + 2 ≤ keypathsize
  ctrlkey : key.length + 6 ≤ nameMaxlen
  ctrl : dirLen + ((strip key).length + 5) + 1 < nameMaxlen →
    dirLen + ((strip key).length + 5) + 2 ≤ keypathsize

/-! ### Arrays -/

theorem str_closed {t : Text} (h : '\x00' ∉ t) (rest : CharArray) :
    CharArray.str (t.map some ++ some '\x00' :: rest) = some t := by
  induction t with
  | nil => simp [CharArray.str]
  | cons c t ih =>
    simp only [List.mem_cons, not_or] at h
    simp [CharArray.str, Ne.symm h.1, ih h.2]

theorem write_append (known : Text) (rest : CharArray) (chars : Text) :
    CharArray.write (known.map some ++ rest) ⟨known.length, chars⟩ =
      (known ++ chars).map some ++ rest.drop chars.length := by
  have h := overwrite_append (known.map some) rest (chars.map some)
  rw [List.length_map, List.length_map] at h
  rw [CharArray.write, h, List.map_append]

/-! ### Names -/

/-- A name that is one, without leading slashes. -/
structure Mappable (name : Text) : Prop where
  ne_nil : name ≠ []
  one : '/' ∉ name
  fits : dirLen + name.length + 1 < nameMaxlen

/-- What is written for it. -/
def fileWrites (name : Text) : List Write :=
  [⟨0, dir⟩, ⟨dirLen, name ++ ['\x00']⟩, ⟨dirLen + (name.length + 1), ['\x00']⟩]

theorem mapname_of {key : Text} (h : Mappable (strip key)) :
    (mapname key).val = some (fileWrites (strip key)) := by
  have hne := List.length_pos_iff.mpr h.ne_nil
  have hfits := h.fits
  simp only [dirLen, nameMaxlen] at hfits
  rw [mapname, Chk.bind_val, if_neg, if_neg]
  · rfl
  · simp only [dirLen, nameMaxlen]
    omega
  · rw [strchr_eq_none h.one]
    simp only [nameMaxlen, Option.isSome_none, Bool.false_eq_true, or_false]
    omega

theorem mappable_of {key : Text} (h : (mapname key).val ≠ none) : Mappable (strip key) := by
  rw [mapname, Chk.bind_val] at h
  dsimp only at h
  split_ifs at h with hname hlong
  · exact absurd rfl h
  · exact absurd rfl h
  · simp only [not_or, nameMaxlen, dirLen] at hname hlong
    refine ⟨?_, not_mem_of_strchr (Option.not_isSome_iff_eq_none.mp hname.2.2), ?_⟩
    · intro hnil
      exact hname.1 (by simp [hnil])
    · simp only [nameMaxlen, dirLen]
      omega

/-- The array afterwards. -/
theorem writeAll_fileWrites (name : Text) (array : CharArray) : ∃ rest,
    array.writeAll (fileWrites name) = (dir ++ name).map some ++ some '\x00' :: rest := by
  have h1 : array.write ⟨0, dir⟩ = dir.map some ++ array.drop dirLen := write_append [] array dir
  have h2 : CharArray.write (dir.map some ++ array.drop dirLen) ⟨dirLen, name ++ ['\x00']⟩ =
      (dir ++ (name ++ ['\x00'])).map some ++ (array.drop dirLen).drop (name ++ ['\x00']).length :=
    write_append dir (array.drop dirLen) (name ++ ['\x00'])
  have hlen : dirLen + (name.length + 1) = (dir ++ (name ++ ['\x00'])).length := by
    simp [dir, dirLen]
    omega
  rw [fileWrites, CharArray.writeAll, List.foldl_cons, List.foldl_cons, List.foldl_cons,
    List.foldl_nil, h1, h2, hlen, write_append]
  exact ⟨_, by simp; rfl⟩

theorem inside_fileWrites {name : Text} {n : ℕ} :
    Inside n (fileWrites name) ↔ dirLen + name.length + 2 ≤ n := by
  simp only [Inside, fileWrites, List.forall_mem_cons, List.length_append, List.length_singleton]
  have hdir : dir.length = dirLen := rfl
  rw [hdir]
  constructor
  · rintro ⟨-, -, h, -⟩
    omega
  · intro h
    exact ⟨by omega, by omega, by omega, by simp⟩

theorem str_fileWrites {name : Text} (h : '\x00' ∉ name) (array : CharArray) :
    (array.writeAll (fileWrites name)).str = some (dir ++ name) := by
  obtain ⟨rest, hrest⟩ := writeAll_fileWrites name array
  rw [hrest, str_closed]
  rw [List.mem_append, not_or]
  exact ⟨by decide, h⟩

/-! ### The ctrl key -/

/-- The suffix stays at the end of the name. -/
theorem strip_append {key : Text} (h : strip key ≠ []) (t : Text) :
    strip (key ++ t) = strip key ++ t := by
  unfold strip at h ⊢
  rw [List.dropWhile_append, if_neg]
  simpa using h

theorem not_mem_ctrl {key : Text} {c : Char} (h : c ∉ key) (hc : c ∉ ctrlSuffix) :
    c ∉ key ++ ctrlSuffix := by
  rw [List.mem_append, not_or]
  exact ⟨h, hc⟩

/-- What is written for it. -/
def ctrlWrites (key : Text) : List Write := [⟨0, key⟩, ⟨key.length, ctrlSuffix ++ ['\x00']⟩]

theorem mapCtrlKey_val (key : Text) : (mapCtrlKey key).val = some (ctrlWrites key) := rfl

theorem inside_ctrlWrites {key : Text} {n : ℕ} : Inside n (ctrlWrites key) ↔ key.length + 6 ≤ n := by
  simp only [Inside, ctrlWrites, List.forall_mem_cons]
  have hsuffix : (ctrlSuffix ++ ['\x00']).length = 6 := rfl
  rw [hsuffix]
  constructor
  · rintro ⟨-, h, -⟩
    exact h
  · intro h
    exact ⟨by omega, h, by simp⟩

/-- What is then in the local array. -/
theorem str_ctrlWrites {key : Text} (h : '\x00' ∉ key) :
    (fresh.writeAll (ctrlWrites key)).str = some (key ++ ctrlSuffix) := by
  have h1 : fresh.write ⟨0, key⟩ = key.map some ++ fresh.drop key.length := write_append [] fresh key
  have harray : fresh.writeAll (ctrlWrites key) = (key ++ ctrlSuffix).map some ++ some '\x00' ::
      (fresh.drop key.length).drop (ctrlSuffix ++ ['\x00']).length := by
    rw [ctrlWrites, CharArray.writeAll, List.foldl_cons, List.foldl_cons, List.foldl_nil, h1,
      write_append]
    simp
  rw [harray, str_closed (not_mem_ctrl h (by decide))]

/-- With a name that is one, only the length of the longer one can be in the way. -/
theorem mappable_ctrl {key : Text} (h : Mappable (strip key)) :
    Mappable (strip (key ++ ctrlSuffix)) ↔ dirLen + ((strip key).length + 5) + 1 < nameMaxlen := by
  rw [strip_append h.ne_nil]
  have hlen : (strip key ++ ctrlSuffix).length = (strip key).length + 5 := List.length_append
  constructor
  · intro hm
    rw [← hlen]
    exact hm.fits
  · intro hfits
    exact ⟨List.append_ne_nil_of_left_ne_nil h.ne_nil _, not_mem_ctrl h.one (by decide),
      hlen ▸ hfits⟩

/-! ### The two functions -/

theorem Accepted.mappable {key : Text} (h : Accepted key) : Mappable (strip key) := by
  refine mappable_of fun hnone => ?_
  have hopens := h.opens
  rw [openName, Chk.bind_val, hnone] at hopens
  exact absurd hopens (by simp)

theorem Accepted.closed_strip {key : Text} (h : Accepted key) : '\x00' ∉ strip key :=
  fun hmem => h.closed ((List.dropWhile_suffix _).subset hmem)

theorem openName_of {key : Text} (hclosed : '\x00' ∉ strip key) (h : Mappable (strip key)) :
    (openName key).val = some (dir ++ strip key) := by
  rw [openName, Chk.bind_val, mapname_of h]
  exact str_fileWrites hclosed fresh

theorem computeKeyPath_long (key : Text) {keypathsize : ℕ} (h : nameMaxlen ≤ keypathsize) :
    (computeKeyPath key keypathsize).val = ⟨-1, [], []⟩ := by
  rw [computeKeyPath, if_pos h]
  rfl

theorem computeKeyPath_short {key : Text} (h : Accepted key) {keypathsize : ℕ}
    (hs : keypathsize < nameMaxlen) :
    (computeKeyPath key keypathsize).val = ⟨0, fileWrites (strip key), []⟩ := by
  rw [computeKeyPath, if_neg (by omega), Chk.bind_val, mapname_of h.mappable]
  rfl

theorem computeCtrlKeyPath_short {key : Text} (h : Accepted key) {keypathsize : ℕ}
    (hs : keypathsize < nameMaxlen) :
    (computeCtrlKeyPath key keypathsize).val =
      match (mapname (key ++ ctrlSuffix)).val with
      | none => ⟨-2, [], ctrlWrites key⟩
      | some ws => ⟨0, ws, ctrlWrites key⟩ := by
  have hstr : (fresh.writeAll (ctrlWrites key)).str.getD [] = key ++ ctrlSuffix := by
    rw [str_ctrlWrites h.closed]
    rfl
  rw [computeCtrlKeyPath, if_neg (by omega), Chk.bind_val, mapCtrlKey_val]
  dsimp only
  rw [Chk.bind_val, hstr]
  cases (mapname (key ++ ctrlSuffix)).val <;> rfl

theorem computeCtrlKeyPath_fits {key : Text} (h : Accepted key) {keypathsize : ℕ}
    (hs : keypathsize < nameMaxlen)
    (hfits : dirLen + ((strip key).length + 5) + 1 < nameMaxlen) :
    (computeCtrlKeyPath key keypathsize).val =
      ⟨0, fileWrites (strip (key ++ ctrlSuffix)), ctrlWrites key⟩ := by
  rw [computeCtrlKeyPath_short h hs, mapname_of ((mappable_ctrl h.mappable).mpr hfits)]

/-- Where the longer name is none, nothing is written to the caller's array. -/
theorem computeCtrlKeyPath_none {key : Text} (h : Accepted key) {keypathsize : ℕ}
    (hs : keypathsize < nameMaxlen)
    (hlong : ¬ dirLen + ((strip key).length + 5) + 1 < nameMaxlen) :
    (computeCtrlKeyPath key keypathsize).val = ⟨-2, [], ctrlWrites key⟩ := by
  have hnone : (mapname (key ++ ctrlSuffix)).val = none := by
    by_contra hsome
    exact hlong ((mappable_ctrl h.mappable).mp (mappable_of hsome))
  rw [computeCtrlKeyPath_short h hs, hnone]

/-- Into an array that they accept they write the file that is opened. -/
theorem computeKeyPath_holds {key : Text} (h : Accepted key) {keypathsize : ℕ}
    (hs : keypathsize < nameMaxlen) :
    (computeKeyPath key keypathsize).val.Holds keypathsize (openName key).val := by
  rw [computeKeyPath_short h hs, openName_of h.closed_strip h.mappable]
  exact ⟨rfl, fun keypath _ => str_fileWrites h.closed_strip keypath⟩

theorem computeCtrlKeyPath_holds {key : Text} (h : Accepted key) {keypathsize : ℕ}
    (hs : keypathsize < nameMaxlen)
    (hfits : dirLen + ((strip key).length + 5) + 1 < nameMaxlen) :
    (computeCtrlKeyPath key keypathsize).val.Holds keypathsize
      (openName (key ++ ctrlSuffix)).val := by
  have hclosed : '\x00' ∉ strip (key ++ ctrlSuffix) := by
    rw [strip_append h.mappable.ne_nil]
    exact not_mem_ctrl h.closed_strip (by decide)
  rw [computeCtrlKeyPath_fits h hs hfits,
    openName_of hclosed ((mappable_ctrl h.mappable).mpr hfits)]
  exact ⟨rfl, fun keypath _ => str_fileWrites hclosed keypath⟩

theorem short_of_holds {key : Text} {keypathsize : ℕ} {file : Option Text}
    (h : nameMaxlen ≤ keypathsize → (computeKeyPath key keypathsize).val.Holds keypathsize file) :
    keypathsize < nameMaxlen := by
  by_contra hlong
  have hret := (h (by omega)).ret
  rw [computeKeyPath_long key (by omega)] at hret
  exact absurd hret (by decide)

theorem inside_path_iff {key : Text} (h : Accepted key) {keypathsize : ℕ}
    (hs : keypathsize < nameMaxlen) :
    (computeKeyPath key keypathsize).val.Inside keypathsize ↔
      dirLen + (strip key).length + 2 ≤ keypathsize := by
  rw [computeKeyPath_short h hs]
  constructor
  · intro hin
    exact inside_fileWrites.mp hin.keypath
  · intro hle
    exact ⟨inside_fileWrites.mpr hle, by simp [Inside]⟩

theorem inside_ctrl_iff {key : Text} (h : Accepted key) {keypathsize : ℕ}
    (hs : keypathsize < nameMaxlen) :
    (computeCtrlKeyPath key keypathsize).val.Inside keypathsize ↔ key.length + 6 ≤ nameMaxlen ∧
      (dirLen + ((strip key).length + 5) + 1 < nameMaxlen →
        dirLen + ((strip key).length + 5) + 2 ≤ keypathsize) := by
  have hlen : (strip (key ++ ctrlSuffix)).length = (strip key).length + 5 := by
    rw [strip_append h.mappable.ne_nil]
    exact List.length_append
  by_cases hfits : dirLen + ((strip key).length + 5) + 1 < nameMaxlen
  · rw [computeCtrlKeyPath_fits h hs hfits]
    constructor
    · intro hin
      have hpath := inside_fileWrites.mp hin.keypath
      rw [hlen] at hpath
      exact ⟨inside_ctrlWrites.mp hin.ctrlkey, fun _ => hpath⟩
    · rintro ⟨hctrl, hpath⟩
      exact ⟨inside_fileWrites.mpr (by rw [hlen]; exact hpath hfits), inside_ctrlWrites.mpr hctrl⟩
  · rw [computeCtrlKeyPath_none h hs hfits]
    constructor
    · intro hin
      exact ⟨inside_ctrlWrites.mp hin.ctrlkey, fun hf => absurd hf hfits⟩
    · rintro ⟨hctrl, -⟩
      exact ⟨by simp [Inside], inside_ctrlWrites.mpr hctrl⟩

/-- The test of the length is the wrong way round: the long arrays are refused, and the short ones are
    written to without a look at how short they are. -/
theorem respectsBuffer_iff {key : Text} (h : Accepted key) (keypathsize : ℕ) :
    RespectsBuffer key keypathsize ↔ Fits key keypathsize := by
  constructor
  · intro hr
    have hs := short_of_holds hr.path_holds
    have hctrl := (inside_ctrl_iff h hs).mp hr.ctrl
    exact ⟨hs, (inside_path_iff h hs).mp hr.path, hctrl.1, hctrl.2⟩
  · intro hf
    have hs := hf.short
    exact
      { path := (inside_path_iff h hs).mpr hf.path
        ctrl := (inside_ctrl_iff h hs).mpr ⟨hf.ctrlkey, hf.ctrl⟩
        path_holds := fun hlong => absurd hlong (by omega)
        ctrl_holds := fun hlong => absurd hlong (by omega) }

theorem respectsBuffer_hundred : RespectsBuffer ['/', 'a'] 100 :=
  (respectsBuffer_iff ⟨by decide, by decide⟩ 100).mpr
    ⟨by decide, by decide, by decide, fun _ => by decide⟩

/-- `"/a"` in an array of `SHM_NAME_MAXLEN` characters, and in one of 8. -/
theorem not_respectsBuffer_long :
    Accepted ['/', 'a'] ∧ ¬ RespectsBuffer ['/', 'a'] 256 ∧ ¬ RespectsBuffer ['/', 'a'] 8 := by
  refine ⟨⟨by decide, by decide⟩, fun h => ?_, fun h => ?_⟩
  · exact absurd (h.path_holds (by decide)).ret (by decide)
  · exact absurd (h.path.keypath ⟨0, dir⟩ (by decide)) (by decide)

end Shm

end Vamos
