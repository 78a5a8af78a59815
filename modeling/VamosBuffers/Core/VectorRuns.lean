import Mathlib.Tactic
import VamosBuffers.Core.Vector

/-! Sequences of calls on vectors, beside the same calls on lists of blocks.

        size elements of k bytes:   │ size bytes │ the other size * (k - 1) bytes │

    The aligned vector copies only the first part when it moves; `resize` of the plain vector clears
    only the first part of the new elements. What is in the other part decides. -/

namespace Vamos
open Schemes

/-! ### The aligned vector -/

/-- A call on an aligned vector; `extend` with the element that the caller writes to the slot. -/
inductive AlignedOp where
  | push (fresh : ℕ → UInt8) (x : Bytes)
  | extend (fresh : ℕ → UInt8) (x : Bytes)
  | pop

/-- A vector and the list that went through the same calls; no vector after an abort. -/
structure AlignedRun where
  vec : Option AlignedVec
  list : List Bytes

namespace AlignedRun

/-- `vms_vector_aligned_init`. -/
def start (elemSize alignment : ℕ) : AlignedRun := ⟨some (AlignedVec.init elemSize alignment).val, []⟩

def step (s : AlignedRun) : AlignedOp → AlignedRun
  | .push fresh x => ⟨s.vec.bind fun a => (a.push fresh x).val, s.list ++ [x]⟩
  | .extend fresh x => ⟨s.vec.bind fun a => (a.push fresh x).val, s.list ++ [x]⟩
  | .pop => ⟨s.vec.map fun a => a.pop.val, s.list.dropLast⟩

/-- An element has its size, `pop` is called on a vector with elements, and the storage stays smaller
    than the address space. -/
def Admits (a : AlignedVec) : AlignedOp → Prop
  | .push _ x => x.length = a.vec.elementSize ∧ a.vec.MayGrow a.vec.elementSize
  | .extend _ x => x.length = a.vec.elementSize ∧ a.vec.MayGrow a.vec.elementSize
  | .pop => 0 < a.vec.size

instance (a : AlignedVec) : (op : AlignedOp) → Decidable (Admits a op)
  | .push _ x => inferInstanceAs (Decidable (x.length = _ ∧ Vec.MayGrow _ _))
  | .extend _ x => inferInstanceAs (Decidable (x.length = _ ∧ Vec.MayGrow _ _))
  | .pop => inferInstanceAs (Decidable (0 < _))

/-- Nothing is asked of calls that an abort has left out. -/
def Admissible (s : AlignedRun) (op : AlignedOp) : Prop := ∀ a ∈ s.vec, Admits a op

/-- The vector is there, and is the list. -/
def IsList (s : AlignedRun) : Prop := ∃ a ∈ s.vec, a.vec.Is s.list

/-- A call that needs new storage gets it, and loses nothing in moving there. -/
def KeepsIn (a : AlignedVec) : AlignedOp → Prop
  | .push fresh _ => a.vec.allocSize ≤ a.vec.size →
      MemalignAccepts a.alignment ∧ a.vec.MovesWhole fresh
  | .extend fresh _ => a.vec.allocSize ≤ a.vec.size →
      MemalignAccepts a.alignment ∧ a.vec.MovesWhole fresh
  | .pop => True

instance (a : AlignedVec) : (op : AlignedOp) → Decidable (KeepsIn a op)
  | .push _ _ => inferInstanceAs (Decidable (_ → _ ∧ _))
  | .extend _ _ => inferInstanceAs (Decidable (_ → _ ∧ _))
  | .pop => isTrue trivial

/-- The call does so, if the vector is still there. -/
def Keeps (s : AlignedRun) (op : AlignedOp) : Prop := ∀ a ∈ s.vec, KeepsIn a op

instance (s : AlignedRun) (op : AlignedOp) : Decidable (s.Admissible op) :=
  inferInstanceAs (Decidable (∀ a ∈ s.vec, Admits a op))

instance (s : AlignedRun) (op : AlignedOp) : Decidable (s.Keeps op) :=
  inferInstanceAs (Decidable (∀ a ∈ s.vec, KeepsIn a op))

/-- What is always true: the storage is in order and every block has the size of an element. -/
structure Ok (k : ℕ) (s : AlignedRun) : Prop where
  vec : ∀ a ∈ s.vec, a.vec.Ok k
  blocks : s.vec.isSome → ∀ y ∈ s.list, y.length = k

variable {k alignment : ℕ} {s : AlignedRun} {op : AlignedOp}

/-- A block put after the others has their size. -/
theorem blocks_push {ys : List Bytes} {x : Bytes} (hys : ∀ y ∈ ys, y.length = k)
    (hx : x.length = k) : ∀ y ∈ ys ++ [x], y.length = k := by
  intro y hy
  rcases List.mem_append.mp hy with hy | hy
  · exact hys y hy
  · rw [List.mem_singleton.mp hy]; exact hx

theorem aborted_ok (k : ℕ) (ys : List Bytes) : Ok k ⟨none, ys⟩ := ⟨nofun, nofun⟩

/-- After an abort there is no vector that could be a list. -/
theorem not_isList_of_aborted (ys : List Bytes) : ¬ IsList ⟨none, ys⟩ :=
  fun ⟨_, ha, _⟩ => nomatch ha

/-- A push: if the new storage is there, the bytes that are not copied decide. -/
theorem push_isList_iff {a : AlignedVec} {ys : List Bytes} {x : Bytes} (h : a.vec.Ok k)
    (hys : ∀ y ∈ ys, y.length = k) (hx : x.length = k) (hm : a.vec.MayGrow k)
    (fresh : ℕ → UInt8) :
    Ok k ⟨(a.push fresh x).val, ys ++ [x]⟩ ∧
    (a.vec.Is ys → (IsList ⟨(a.push fresh x).val, ys ++ [x]⟩ ↔ (a.vec.allocSize ≤ a.vec.size →
      MemalignAccepts a.alignment ∧ a.vec.MovesWhole fresh))) := by
  by_cases ha : a.Allocates
  · obtain ⟨hok, hi⟩ := Vec.moved_is_iff h hm hys hx fresh
    rw [AlignedVec.push_eq fresh x ha,
      Vec.extendBy_write h hm (Vec.length_moved fresh a.vec) x, Chk.pure_val]
    refine ⟨⟨fun b hb => Option.mem_some_iff.mp hb ▸ hok, fun _ => blocks_push hys hx⟩,
      fun hv => ?_⟩
    have hlist : ∀ b : AlignedVec, IsList ⟨some b, ys ++ [x]⟩ ↔ b.vec.Is (ys ++ [x]) := fun b =>
      ⟨fun ⟨c, hc, hcl⟩ => Option.mem_some_iff.mp hc ▸ hcl, fun hb => ⟨b, rfl, hb⟩⟩
    rw [hlist, hi hv]
    exact ⟨fun hw hf => ⟨ha hf, hw hf⟩, fun hw hf => (hw hf).2⟩
  · rw [AlignedVec.push_aborts fresh x ha]
    refine ⟨aborted_ok k _, fun _ => ⟨fun hl => absurd hl (not_isList_of_aborted _), fun hw => ?_⟩⟩
    exact absurd (fun hf => (hw hf).1) ha

/-- One call: everything stays in order, and the vector is still the list exactly when the call found
    new storage, if it needed any, and lost nothing. -/
theorem step_isList_iff (h : Ok k s) (ha : s.Admissible op) :
    Ok k (s.step op) ∧ (s.IsList → ((s.step op).IsList ↔ s.Keeps op)) := by
  obtain ⟨vec, ys⟩ := s
  cases vec with
  | none =>
    have hstep : (AlignedRun.mk none ys).step op = ⟨none, ((AlignedRun.mk none ys).step op).list⟩ := by
      cases op <;> rfl
    rw [hstep]
    exact ⟨aborted_ok k _, fun hl => absurd hl (not_isList_of_aborted ys)⟩
  | some a =>
    have hv := h.vec a rfl
    have hys := h.blocks rfl
    have hkeeps : (AlignedRun.mk (some a) ys).Keeps op ↔ KeepsIn a op :=
      ⟨fun hk => hk a rfl, fun hk b hb => Option.mem_some_iff.mp hb ▸ hk⟩
    have hlist : (AlignedRun.mk (some a) ys).IsList → a.vec.Is ys :=
      fun ⟨b, hb, hbl⟩ => Option.mem_some_iff.mp hb ▸ hbl
    have hpush : ∀ fresh x, Admits a (.push fresh x) →
        Ok k ⟨(a.push fresh x).val, ys ++ [x]⟩ ∧ (a.vec.Is ys →
          (IsList ⟨(a.push fresh x).val, ys ++ [x]⟩ ↔ KeepsIn a (.push fresh x))) := by
      rintro fresh x ⟨hx, hm⟩
      rw [hv.elemSize] at hx hm
      exact push_isList_iff hv hys hx hm fresh
    rw [hkeeps]
    cases op with
    | push fresh x =>
      obtain ⟨hok, hi⟩ := hpush fresh x (ha a rfl)
      exact ⟨hok, fun hl => hi (hlist hl)⟩
    | extend fresh x =>
      obtain ⟨hok, hi⟩ := hpush fresh x (ha a rfl)
      exact ⟨hok, fun hl => hi (hlist hl)⟩
    | pop =>
      obtain ⟨hok, hi⟩ := Vec.pop_is hv (ha a rfl) hys
      refine ⟨⟨fun b hb => Option.mem_some_iff.mp hb ▸ hok, fun _ y hy =>
        hys y (List.mem_of_mem_dropLast hy)⟩, fun hl => ⟨fun _ => trivial, fun _ => ?_⟩⟩
      exact ⟨{ a with vec := a.vec.pop.val }, rfl, hi (hlist hl)⟩

theorem start_ok (hk : 0 < k) : Ok k (start k alignment) :=
  ⟨fun _ ha => Option.mem_some_iff.mp ha ▸ Vec.init_ok hk, fun _ => nofun⟩

theorem start_isList (k alignment : ℕ) : (start k alignment).IsList :=
  ⟨_, rfl, Vec.init_is k⟩

/-- In every sequence of calls, with any alignment: the aligned vector is the list throughout if and
    only if every call that needs new storage finds the alignment accepted, and the new storage holds
    already what is not copied to it. -/
theorem aligned_isList_iff (hk : 0 < k) (ops : List AlignedOp)
    (hops : Meets step Admissible (start k alignment) ops) :
    Always step IsList (start k alignment) ops ↔ Meets step Keeps (start k alignment) ops :=
  always_iff_meets (J := Ok k) (fun _ _ h ha => (step_isList_iff h ha).1)
    (fun _ _ h ha => (step_isList_iff h ha).2) (start_ok hk) (start_isList k alignment) hops

/-- Elements of one byte, in storage that moves at the eleventh: copied whole. -/
theorem aligned_isList_eleven :
    Meets step Admissible (start 1 64) (List.replicate 11 (.push (fun _ => 7) [1]) ++ [.pop,
      .extend (fun _ => 7) [2]]) ∧
    Always step IsList (start 1 64) (List.replicate 11 (.push (fun _ => 7) [1]) ++ [.pop,
      .extend (fun _ => 7) [2]]) := by
  have hops : Meets step Admissible (start 1 64) (List.replicate 11 (.push (fun _ => 7) [1]) ++
      [.pop, .extend (fun _ => 7) [2]]) := by decide
  exact ⟨hops, (aligned_isList_iff (by decide) _ hops).mpr (by decide)⟩

/-- `vms_vector_aligned_init` has nothing against an alignment of 4; the first push aborts. -/
example : ((start 1 4).step (.push (fun _ => 7) [1])).vec = none := by decide

/-- Eleven times the element 1, 2: the eleventh push moves the storage and copies ten bytes, five
    elements. The sixth element is then what the new storage held. -/
theorem aligned_loses_sixth :
    Meets step Admissible (start 2 64) (List.replicate 11 (.push (fun _ => 0) [1, 2])) ∧
    ((List.replicate 11 (.push (fun _ => 0) [1, 2])).foldl step (start 2 64)).vec.map
      (fun a => a.vec.elemAt 5) = some [0, 0] ∧
    ¬ Always step IsList (start 2 64) (List.replicate 11 (.push (fun _ => 0) [1, 2])) := by
  have h5 : ((List.replicate 11 (.push (fun _ => 0) [1, 2])).foldl step (start 2 64)).vec.map
      (fun a => a.vec.elemAt 5) = some [0, 0] := by decide
  refine ⟨by decide, h5, fun h => ?_⟩
  obtain ⟨a, ha, hl⟩ := h.last
  have h5' := hl.elemAt 5 [1, 2] (by decide)
  rw [Option.mem_def.mp ha, Option.map_some, h5'] at h5
  cases h5

end AlignedRun

/-! ### Plain vectors -/

/-- A call on one plain vector; `extend` with the element that the caller writes to the slot. -/
inductive VecCall where
  | push (fresh : ℕ → UInt8) (x : Bytes)
  | extend (fresh : ℕ → UInt8) (x : Bytes)
  | pop
  | resize (fresh : ℕ → UInt8) (n : ℕ)

namespace VecCall

def run (v : Vec) : VecCall → Chk Vec
  | .push fresh x => v.push fresh x
  | .extend fresh x => v.push fresh x
  | .pop => v.pop
  | .resize fresh n => v.resize fresh n

/-- The same call on a list of blocks of `k` bytes. -/
def spec (k : ℕ) (ys : List Bytes) : VecCall → List Bytes
  | .push _ x => ys ++ [x]
  | .extend _ x => ys ++ [x]
  | .pop => ys.dropLast
  | .resize _ n => Vec.resized k n ys

/-- An element has its size, `pop` is called on a vector with elements, and the storage stays smaller
    than the address space. -/
def Admissible (v : Vec) : VecCall → Prop
  | .push _ x => x.length = v.elementSize ∧ v.MayGrow v.elementSize
  | .extend _ x => x.length = v.elementSize ∧ v.MayGrow v.elementSize
  | .pop => 0 < v.size
  | .resize _ n => n * v.elementSize < 2 ^ 64

instance (v : Vec) : (c : VecCall) → Decidable (c.Admissible v)
  | .push _ x => inferInstanceAs (Decidable (x.length = _ ∧ Vec.MayGrow _ _))
  | .extend _ x => inferInstanceAs (Decidable (x.length = _ ∧ Vec.MayGrow _ _))
  | .pop => inferInstanceAs (Decidable (0 < _))
  | .resize _ n => inferInstanceAs (Decidable (n * _ < _))

/-- If the call makes new elements, the bytes that it does not clear are 0. -/
def Clears (v : Vec) : VecCall → Prop
  | .resize fresh n => v.ZeroAlready fresh n
  | _ => True

variable {k : ℕ} {v : Vec} {ys : List Bytes} {c : VecCall}

theorem spec_blocks (hys : ∀ y ∈ ys, y.length = k) (hv : v.elementSize = k) (ha : c.Admissible v) :
    ∀ y ∈ c.spec k ys, y.length = k := by
  cases c with
  | push fresh x => exact AlignedRun.blocks_push hys (hv ▸ ha.1)
  | extend fresh x => exact AlignedRun.blocks_push hys (hv ▸ ha.1)
  | pop => exact fun y hy => hys y (List.mem_of_mem_dropLast hy)
  | resize fresh n =>
    intro y hy
    rcases List.mem_append.mp hy with hy | hy
    · exact hys y hy
    · rw [List.eq_of_mem_replicate hy, List.length_replicate]

/-- One call on one vector. -/
theorem run_is_iff (h : v.Ok k) (hys : ∀ y ∈ ys, y.length = k) (ha : c.Admissible v) :
    (c.run v).val.Ok k ∧ (v.Is ys → ((c.run v).val.Is (c.spec k ys) ↔ c.Clears v)) := by
  have hpush : ∀ fresh x, Admissible v (.push fresh x) → (v.push fresh x).val.Ok k ∧
      (v.Is ys → ((v.push fresh x).val.Is (ys ++ [x]) ↔ True)) := by
    rintro fresh x ⟨hx, hm⟩
    rw [h.elemSize] at hx hm
    obtain ⟨hok, hi⟩ := Vec.push_is h hm hys hx fresh
    exact ⟨hok, fun hv => iff_true_intro (hi hv)⟩
  cases c with
  | push fresh x => exact hpush fresh x ha
  | extend fresh x => exact hpush fresh x ha
  | pop =>
    obtain ⟨hok, hi⟩ := Vec.pop_is h ha hys
    exact ⟨hok, fun hv => iff_true_intro (hi hv)⟩
  | resize fresh n =>
    have hn : n * k < 2 ^ 64 := h.elemSize ▸ ha
    exact Vec.resize_is_iff h hn hys fresh

end VecCall

/-- A call on the vectors of a program: on one of them, or the swap of two. -/
inductive VecOp where
  | call (i : ℕ) (c : VecCall)
  | swap (i j : ℕ)

/-- The vectors of a program, and the lists that went through the same calls. -/
structure VecRun where
  vecs : ℕ → Vec
  lists : ℕ → List Bytes

namespace VecRun

/-- Each vector after `vms_vector_init`, with one element size for all. -/
def start (k : ℕ) : VecRun := ⟨fun _ => .init k, fun _ => []⟩

def step (s : VecRun) : VecOp → VecRun
  | .call i c => ⟨Function.update s.vecs i (c.run (s.vecs i)).val,
      Function.update s.lists i (c.spec (s.vecs i).elementSize (s.lists i))⟩
  | .swap i j =>
    let vw := ((s.vecs i).swap (s.vecs j)).val
    ⟨Function.update (Function.update s.vecs i vw.1) j vw.2,
      Function.update (Function.update s.lists i (s.lists j)) j (s.lists i)⟩

def Admissible (s : VecRun) : VecOp → Prop
  | .call i c => c.Admissible (s.vecs i)
  | .swap _ _ => True

instance (s : VecRun) : (op : VecOp) → Decidable (s.Admissible op)
  | .call i c => inferInstanceAs (Decidable (c.Admissible (s.vecs i)))
  | .swap _ _ => isTrue trivial

/-- Every vector is its list, and has no more elements than room. -/
def AreLists (s : VecRun) : Prop :=
  ∀ i, (s.vecs i).Is (s.lists i) ∧ (s.vecs i).size ≤ (s.vecs i).allocSize

/-- If the call makes new elements, the bytes that it does not clear are 0. -/
def Clears (s : VecRun) : VecOp → Prop
  | .call i c => c.Clears (s.vecs i)
  | .swap _ _ => True

/-- What is always true: the storage is in order and every block has the size of an element. -/
structure Ok (k : ℕ) (s : VecRun) : Prop where
  vecs : ∀ i, (s.vecs i).Ok k
  blocks : ∀ i, ∀ y ∈ s.lists i, y.length = k

variable {k : ℕ} {s : VecRun} {op : VecOp}

/-- Two vectors of one element size change places. -/
theorem swap_eq {v w : Vec} (hv : v.elementSize = k) (hw : w.elementSize = k) :
    (v.swap w).val = (w, v) := by
  obtain ⟨size, elementSize, allocSize, data⟩ := v
  obtain ⟨size', elementSize', allocSize', data'⟩ := w
  subst hv hw
  rfl

/-- After a swap, what holds of a vector and its list is what held of the other pair. -/
theorem swap_pair (h : Ok k s) (i j l : ℕ) : ∃ l', (s.step (.swap i j)).vecs l = s.vecs l' ∧
    (s.step (.swap i j)).lists l = s.lists l' := by
  simp only [step, swap_eq (h.vecs i).elemSize (h.vecs j).elemSize]
  rcases eq_or_ne l j with rfl | hj
  · exact ⟨i, by simp, by simp⟩
  · rcases eq_or_ne l i with rfl | hi
    · exact ⟨j, by simp [hj], by simp [hj]⟩
    · exact ⟨l, by simp [hi, hj], by simp [hi, hj]⟩

theorem Ok.step (h : Ok k s) (ha : s.Admissible op) : Ok k (s.step op) := by
  cases op with
  | call i c =>
    have hc := VecCall.run_is_iff (h.vecs i) (h.blocks i) ha
    have hb := VecCall.spec_blocks (h.blocks i) (h.vecs i).elemSize ha
    constructor <;> intro l <;> rcases eq_or_ne l i with rfl | hl
    · simpa [VecRun.step] using hc.1
    · simpa [VecRun.step, hl] using h.vecs l
    · simpa [VecRun.step, (h.vecs l).elemSize] using hb
    · simpa [VecRun.step, hl] using h.blocks l
  | swap i j =>
    constructor <;> intro l <;> obtain ⟨l', hv, hy⟩ := swap_pair h i j l
    · rw [hv]; exact h.vecs l'
    · rw [hy]; exact h.blocks l'

/-- One call: the vectors are still their lists exactly when the call leaves no new byte unset. -/
theorem step_areLists_iff (h : Ok k s) (ha : s.Admissible op) (hs : s.AreLists) :
    (s.step op).AreLists ↔ s.Clears op := by
  have hok := h.step ha
  cases op with
  | call i c =>
    obtain ⟨-, hc⟩ := VecCall.run_is_iff (h.vecs i) (h.blocks i) ha
    have hi : ((s.step (.call i c)).vecs i).Is ((s.step (.call i c)).lists i) ↔
        c.Clears (s.vecs i) := by
      simpa [VecRun.step, (h.vecs i).elemSize] using hc (hs i).1
    refine ⟨fun hall => hi.mp (hall i).1, fun hp l => ⟨?_, (hok.vecs l).le⟩⟩
    rcases eq_or_ne l i with rfl | hl
    · exact hi.mpr hp
    · simpa [VecRun.step, hl] using (hs l).1
  | swap i j =>
    refine iff_true_intro fun l => ⟨?_, (hok.vecs l).le⟩
    obtain ⟨l', hv, hy⟩ := swap_pair h i j l
    rw [hv, hy]
    exact (hs l').1

/-- In every sequence of calls: the vectors are their lists throughout if and only if no `resize`
    finds a byte other than 0 where it does not clear. -/
theorem areLists_iff (hk : 0 < k) (ops : List VecOp) (hops : Meets step Admissible (start k) ops) :
    Always step AreLists (start k) ops ↔ Meets step Clears (start k) ops :=
  always_iff_meets (J := Ok k) (fun _ _ => Ok.step) (fun _ _ => step_areLists_iff)
    ⟨fun _ => Vec.init_ok hk, fun _ => nofun⟩ (fun _ => ⟨Vec.init_is k, le_rfl⟩) hops

/-- New memory that holds zeros: elements of two bytes, in two vectors that are swapped. -/
theorem areLists_five :
    Meets step Admissible (start 2) [.call 0 (.push (fun _ => 0) [1, 2]), .swap 0 1,
      .call 1 (.resize (fun _ => 0) 3), .call 1 .pop, .call 0 (.extend (fun _ => 0) [3, 4])] ∧
    Always step AreLists (start 2) [.call 0 (.push (fun _ => 0) [1, 2]), .swap 0 1,
      .call 1 (.resize (fun _ => 0) 3), .call 1 .pop, .call 0 (.extend (fun _ => 0) [3, 4])] := by
  have hops : Meets step Admissible (start 2) [.call 0 (.push (fun _ => 0) [1, 2]), .swap 0 1,
      .call 1 (.resize (fun _ => 0) 3), .call 1 .pop, .call 0 (.extend (fun _ => 0) [3, 4])] := by
    decide
  refine ⟨hops, (areLists_iff (by decide) _ hops).mpr
    ⟨trivial, trivial, fun b h1 h2 => ?_, trivial, trivial, trivial⟩⟩
  have hb4 : 4 ≤ b := h1
  have hb6 : b < 6 := h2
  interval_cases b <;> decide

/-- The first element of a vector in memory that holds sevens: its second byte stays a seven. -/
theorem resize_leaves_seven :
    Meets step Admissible (start 2) [.call 0 (.resize (fun _ => 7) 1)] ∧
    (((start 2).step (.call 0 (.resize (fun _ => 7) 1))).vecs 0).elemAt 0 = [0, 7] ∧
    ¬ Always step AreLists (start 2) [.call 0 (.resize (fun _ => 7) 1)] := by
  have h0 : (((start 2).step (.call 0 (.resize (fun _ => 7) 1))).vecs 0).elemAt 0 = [0, 7] := by
    decide
  refine ⟨by decide, h0, fun h => ?_⟩
  have h0' := (h.last 0).1.elemAt 0 [0, 0] (by decide)
  rw [List.foldl_cons, List.foldl_nil, h0] at h0'
  cases h0'

end VecRun

end Vamos
