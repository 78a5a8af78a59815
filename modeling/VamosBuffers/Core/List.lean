import Mathlib.Tactic
import VamosBuffers.Schemes.Checked
import VamosBuffers.Schemes.Links
import VamosBuffers.Schemes.Operations

/-! `src/core/list.c`: a doubly linked list that is not circular.

        first ─▶ e₀ ⇄ e₁ ⇄ … ⇄ eₙ ◀─ last          e₀->prev = NULL,  eₙ->next = NULL

    Every operation returns the new size. A node comes from `malloc` or from the caller; either way it
    is not in the list when it is linked in. Removing does not free. -/

namespace Vamos
open Schemes

/-- `vms_list` and the fields of all `vms_list_elem` in memory, by address. -/
structure ListMem (α δ : Type) where
  next : α → Option α
  prev : α → Option α
  data : α → δ
  first : Option α
  last : Option α
  size : ℕ

namespace ListMem

variable {α δ : Type} [DecidableEq α]

def setNext (x : α) (p : Option α) (m : ListMem α δ) : ListMem α δ :=
  { m with next := Function.update m.next x p }

def setPrev (x : α) (p : Option α) (m : ListMem α δ) : ListMem α δ :=
  { m with prev := Function.update m.prev x p }

def setData (x : α) (d : δ) (m : ListMem α δ) : ListMem α δ :=
  { m with data := Function.update m.data x d }

/-- `if (p) p->next = v`. -/
def setNextIf (p v : Option α) (m : ListMem α δ) : ListMem α δ :=
  match p with
  | some x => m.setNext x v
  | none => m

/-- `if (p) p->prev = v`. -/
def setPrevIf (p v : Option α) (m : ListMem α δ) : ListMem α δ :=
  match p with
  | some x => m.setPrev x v
  | none => m

/-- `assert(!list->first == !list->last)`, and `++list->size`. -/
def grown (m : ListMem α δ) : Chk (ListMem α δ) := do
  Chk.require (m.first.isNone = m.last.isNone)
  pure { m with size := m.size + 1 }

/-- `vms_list_init`: the header is cleared, the rest of the memory is what it was. -/
def init (m : ListMem α δ) : ListMem α δ := { m with first := none, last := none, size := 0 }

/-- `vms_list_insert_elem_after`. -/
def insertElemAfter (elem new : α) (m : ListMem α δ) : Chk (ListMem α δ) :=
  let m := m.setNext new (m.next elem)
  let m := m.setPrev new (some elem)
  let m := m.setPrevIf (m.next elem) (some new)
  let m := m.setNext elem (some new)
  grown { m with last := if some elem = m.last then some new else m.last }

/-- `vms_list_insert_after`; `malloc` returned `new`. -/
def insertAfter (elem new : α) (data : δ) (m : ListMem α δ) : Chk (ListMem α δ) :=
  (m.setData new data).insertElemAfter elem new

/-- `vms_list_insert_before`. -/
def insertBefore (elem new : α) (data : δ) (m : ListMem α δ) : Chk (ListMem α δ) := do
  let m := m.setData new data
  let m := m.setNext new (some elem)
  let m := m.setNextIf (m.prev elem) (some new)
  let m := m.setPrev new (m.prev elem)
  let m := m.setPrev elem (some new)
  Chk.require (some elem = m.first → m.prev new = none)
  grown { m with first := if some elem = m.first then some new else m.first }

/-- `vms_list_prepend`. The back pointer of the old first element is not set. -/
def prepend (new : α) (data : δ) (m : ListMem α δ) : Chk (ListMem α δ) := do
  Chk.require (∀ x ∈ m.first, m.prev x = none)
  let m := m.setData new data
  let m := m.setNext new m.first
  let m := m.setPrev new none
  grown { m with first := some new, last := if m.last = none then some new else m.last }

/-- `vms_list_append_elem`. -/
def appendElem (elem : α) (m : ListMem α δ) : Chk (ListMem α δ) := do
  Chk.require (∀ x ∈ m.last, m.next x = none)
  let m := m.setNext elem none
  let m := m.setPrev elem m.last
  let m := m.setNextIf m.last (some elem)
  grown { m with last := some elem, first := if m.first = none then some elem else m.first }

/-- `vms_list_append`: the same for a node from `malloc`. -/
def append (new : α) (data : δ) (m : ListMem α δ) : Chk (ListMem α δ) :=
  (m.setData new data).appendElem new

/-- `vms_list_remove`. -/
def remove (elem : α) (m : ListMem α δ) : Chk (ListMem α δ) := do
  Chk.require (0 < m.size ∧ m.first.isSome ∧ m.last.isSome)
  let m := m.setPrevIf (m.next elem) (m.prev elem)
  let m := m.setNextIf (m.prev elem) (m.next elem)
  let m := { m with first := if some elem = m.first then m.next elem else m.first,
                    last := if some elem = m.last then m.prev elem else m.last }
  Chk.require (m.first.isNone = m.last.isNone)
  pure { m with size := m.size - 1 }

end ListMem

/-- A call, with the address that `malloc` returns in it. -/
inductive ListOp (α δ : Type) where
  | append (new : α) (data : δ)
  | prepend (new : α) (data : δ)
  | appendElem (elem : α)
  | insertAfter (elem new : α) (data : δ)
  | insertElemAfter (elem new : α)
  | insertBefore (elem new : α) (data : δ)
  | remove (elem : α)
  deriving DecidableEq, Repr

namespace ListOp

variable {α δ : Type} [DecidableEq α]

def run : ListOp α δ → ListMem α δ → Chk (ListMem α δ)
  | append new data => ListMem.append new data
  | prepend new data => ListMem.prepend new data
  | appendElem elem => ListMem.appendElem elem
  | insertAfter elem new data => ListMem.insertAfter elem new data
  | insertElemAfter elem new => ListMem.insertElemAfter elem new
  | insertBefore elem new data => ListMem.insertBefore elem new data
  | remove elem => ListMem.remove elem

/-- `new` put after `elem`. -/
def putAfter (elem new : α) : List α → List α
  | [] => []
  | x :: xs => if x = elem then x :: new :: xs else x :: putAfter elem new xs

/-- `new` put before `elem`. -/
def putBefore (elem new : α) : List α → List α
  | [] => []
  | x :: xs => if x = elem then new :: x :: xs else x :: putBefore elem new xs

/-- What the call is to do to an ordinary list. -/
def spec : ListOp α δ → List α → List α
  | append new _, xs => xs ++ [new]
  | prepend new _, xs => new :: xs
  | appendElem elem, xs => xs ++ [elem]
  | insertAfter elem new _, xs => putAfter elem new xs
  | insertElemAfter elem new, xs => putAfter elem new xs
  | insertBefore elem new _, xs => putBefore elem new xs
  | remove elem, xs => xs.erase elem

/-- Elements passed in belong to the list, inserted ones do not. -/
def Admissible (xs : List α) : ListOp α δ → Prop
  | append new _ => new ∉ xs
  | prepend new _ => new ∉ xs
  | appendElem elem => elem ∉ xs
  | insertAfter elem new _ => elem ∈ xs ∧ new ∉ xs
  | insertElemAfter elem new => elem ∈ xs ∧ new ∉ xs
  | insertBefore elem new _ => elem ∈ xs ∧ new ∉ xs
  | remove elem => elem ∈ xs

instance (xs : List α) : (op : ListOp α δ) → Decidable (op.Admissible xs)
  | append new _ => inferInstanceAs (Decidable (new ∉ xs))
  | prepend new _ => inferInstanceAs (Decidable (new ∉ xs))
  | appendElem elem => inferInstanceAs (Decidable (elem ∉ xs))
  | insertAfter elem new _ => inferInstanceAs (Decidable (elem ∈ xs ∧ new ∉ xs))
  | insertElemAfter elem new => inferInstanceAs (Decidable (elem ∈ xs ∧ new ∉ xs))
  | insertBefore elem new _ => inferInstanceAs (Decidable (elem ∈ xs ∧ new ∉ xs))
  | remove elem => inferInstanceAs (Decidable (elem ∈ xs))

end ListOp

/-- The memory and the ordinary list that went through the same calls. -/
structure ListRun (α δ : Type) where
  mem : ListMem α δ
  list : List α

namespace ListRun

variable {α δ : Type} [DecidableEq α]

/-- A list as `vms_list_init` leaves it in memory `m`. -/
def start (m : ListMem α δ) : ListRun α δ := ⟨m.init, []⟩

def step (s : ListRun α δ) (op : ListOp α δ) : ListRun α δ := ⟨(op.run s.mem).val, op.spec s.list⟩

def Admissible (s : ListRun α δ) (op : ListOp α δ) : Prop := op.Admissible s.list

instance (s : ListRun α δ) (op : ListOp α δ) : Decidable (Admissible s op) :=
  inferInstanceAs (Decidable (op.Admissible s.list))

/-- The chain of `next` pointers, the reverse of the chain of `prev` pointers and the ordinary list
    are the same; the ends are null, and the size is the length. -/
structure Represents (s : ListRun α δ) : Prop where
  forward : Chain s.mem.next s.mem.first s.list none
  backward : Chain s.mem.prev s.mem.last s.list.reverse none
  first_prev : ∀ x ∈ s.mem.first, s.mem.prev x = none
  last_next : ∀ x ∈ s.mem.last, s.mem.next x = none
  size : s.mem.size = s.list.length

/-- The call is not a `prepend`, or the list is empty. -/
def PrependsToEmpty (s : ListRun α δ) (op : ListOp α δ) : Prop :=
  ∀ new data, op = .prepend new data → s.mem.first = none

end ListRun

/-! ### Stores -/

namespace ListMem

variable {α δ : Type} [DecidableEq α]

@[simp] theorem setNext_next (x y : α) (p : Option α) (m : ListMem α δ) :
    (m.setNext x p).next y = if y = x then p else m.next y := Function.update_apply ..

@[simp] theorem setNext_prev (x : α) (p : Option α) (m : ListMem α δ) :
    (m.setNext x p).prev = m.prev := rfl

@[simp] theorem setNext_first (x : α) (p : Option α) (m : ListMem α δ) :
    (m.setNext x p).first = m.first := rfl

@[simp] theorem setNext_last (x : α) (p : Option α) (m : ListMem α δ) :
    (m.setNext x p).last = m.last := rfl

@[simp] theorem setNext_size (x : α) (p : Option α) (m : ListMem α δ) :
    (m.setNext x p).size = m.size := rfl

@[simp] theorem setPrev_prev (x y : α) (p : Option α) (m : ListMem α δ) :
    (m.setPrev x p).prev y = if y = x then p else m.prev y := Function.update_apply ..

@[simp] theorem setPrev_next (x : α) (p : Option α) (m : ListMem α δ) :
    (m.setPrev x p).next = m.next := rfl

@[simp] theorem setPrev_first (x : α) (p : Option α) (m : ListMem α δ) :
    (m.setPrev x p).first = m.first := rfl

@[simp] theorem setPrev_last (x : α) (p : Option α) (m : ListMem α δ) :
    (m.setPrev x p).last = m.last := rfl

@[simp] theorem setPrev_size (x : α) (p : Option α) (m : ListMem α δ) :
    (m.setPrev x p).size = m.size := rfl

@[simp] theorem setNextIf_next (p v : Option α) (y : α) (m : ListMem α δ) :
    (m.setNextIf p v).next y = if p = some y then v else m.next y := by
  cases p with
  | none => simp [setNextIf]
  | some x => simp [setNextIf, eq_comm]

@[simp] theorem setNextIf_prev (p v : Option α) (m : ListMem α δ) :
    (m.setNextIf p v).prev = m.prev := by cases p <;> rfl

@[simp] theorem setNextIf_first (p v : Option α) (m : ListMem α δ) :
    (m.setNextIf p v).first = m.first := by cases p <;> rfl

@[simp] theorem setNextIf_last (p v : Option α) (m : ListMem α δ) :
    (m.setNextIf p v).last = m.last := by cases p <;> rfl

@[simp] theorem setNextIf_size (p v : Option α) (m : ListMem α δ) :
    (m.setNextIf p v).size = m.size := by cases p <;> rfl

@[simp] theorem setPrevIf_prev (p v : Option α) (y : α) (m : ListMem α δ) :
    (m.setPrevIf p v).prev y = if p = some y then v else m.prev y := by
  cases p with
  | none => simp [setPrevIf]
  | some x => simp [setPrevIf, eq_comm]

@[simp] theorem setPrevIf_next (p v : Option α) (m : ListMem α δ) :
    (m.setPrevIf p v).next = m.next := by cases p <;> rfl

@[simp] theorem setPrevIf_first (p v : Option α) (m : ListMem α δ) :
    (m.setPrevIf p v).first = m.first := by cases p <;> rfl

@[simp] theorem setPrevIf_last (p v : Option α) (m : ListMem α δ) :
    (m.setPrevIf p v).last = m.last := by cases p <;> rfl

@[simp] theorem setPrevIf_size (p v : Option α) (m : ListMem α δ) :
    (m.setPrevIf p v).size = m.size := by cases p <;> rfl

omit [DecidableEq α] in
@[simp] theorem grown_val (m : ListMem α δ) : m.grown.val = { m with size := m.size + 1 } := rfl

/-- The nodes `xs` form the list of memory `m`. -/
abbrev IsList (m : ListMem α δ) (xs : List α) : Prop := Linked m.next m.prev m.first m.last xs

variable {m : ListMem α δ} {xs l r : List α} {elem new : α}

/-! ### Linking a node in -/

/-- `vms_list_insert_elem_after`. -/
theorem insertElemAfter_isList (h : m.IsList (l ++ elem :: r)) (hn : new ∉ l ++ elem :: r) :
    (m.insertElemAfter elem new).val.IsList (l ++ elem :: new :: r) := by
  have hne : elem ≠ new := fun he => hn (by simp [he])
  -- the memory afterwards
  have hnext : ∀ y, (m.insertElemAfter elem new).val.next y =
      if y = elem then some new else if y = new then m.next elem else m.next y := by
    simp [insertElemAfter]
  have hprev : ∀ y, (m.insertElemAfter elem new).val.prev y =
      if m.next elem = some y then some new else if y = new then some elem else m.prev y := by
    simp [insertElemAfter, hne]
  have hfirst : (m.insertElemAfter elem new).val.first = m.first := by
    simp [insertElemAfter]
  have hlast : (m.insertElemAfter elem new).val.last =
      if some elem = m.last then some new else m.last := by
    simp [insertElemAfter]
  generalize (m.insertElemAfter elem new).val = m' at hnext hprev hfirst hlast
  rw [h.next_eq] at hnext hprev
  have hlast' := h.last_iff
  rw [show l ++ elem :: r = (l ++ [elem]) ++ r by simp] at h hn
  rw [show l ++ elem :: new :: r = (l ++ [elem]) ++ new :: r by simp]
  have hend : (l ++ [elem]).getLast? = some elem := by simp
  have hhead : ∀ y, r.head? = some y → y ∈ r := fun _ => List.mem_of_head?
  refine h.insert hn (by grind) (by grind) (by grind) (by grind) (by grind) (by grind) ?_ ?_
  · rw [hfirst, h.first_or (by simp)]
  · rw [hlast]
    split
    case isTrue hr => rw [hlast'.mp hr]; rfl
    case isFalse hr => rw [h.last_or (mt hlast'.mpr hr)]

/-- `vms_list_insert_before`. -/
theorem insertBefore_isList (h : m.IsList (l ++ elem :: r)) (hn : new ∉ l ++ elem :: r) (d : δ) :
    (m.insertBefore elem new d).val.IsList (l ++ new :: elem :: r) := by
  have hne : elem ≠ new := fun he => hn (by simp [he])
  have hnext : ∀ y, (m.insertBefore elem new d).val.next y =
      if m.prev elem = some y then some new else if y = new then some elem else m.next y := by
    simp [insertBefore, setData]
  have hprev : ∀ y, (m.insertBefore elem new d).val.prev y =
      if y = elem then some new else if y = new then m.prev elem else m.prev y := by
    simp [insertBefore, setData]
  have hfirst : (m.insertBefore elem new d).val.first =
      if some elem = m.first then some new else m.first := by
    simp [insertBefore, setData]
  have hlast : (m.insertBefore elem new d).val.last = m.last := by
    simp [insertBefore, setData]
  generalize (m.insertBefore elem new d).val = m' at hnext hprev hfirst hlast
  rw [h.prev_eq] at hnext hprev
  have hfirst' := h.first_iff
  have hend : ∀ y, l.getLast? = some y → y ∈ l := fun _ => List.mem_of_getLast?
  refine h.insert hn (by grind) (by grind) (by grind) (by grind) (by grind) (by grind) ?_ ?_
  · rw [hfirst]
    split
    case isTrue hl => rw [hfirst'.mp hl]; rfl
    case isFalse hl => rw [h.first_or (mt hfirst'.mpr hl)]
  · rw [hlast, h.last_or (by simp)]

/-- `vms_list_append_elem`. -/
theorem appendElem_isList (h : m.IsList xs) (hn : elem ∉ xs) :
    (m.appendElem elem).val.IsList (xs ++ [elem]) := by
  have hnext : ∀ y, (m.appendElem elem).val.next y =
      if m.last = some y then some elem else if y = elem then none else m.next y := by
    simp [appendElem]
  have hprev : ∀ y, (m.appendElem elem).val.prev y = if y = elem then m.last else m.prev y := by
    simp [appendElem]
  have hfirst : (m.appendElem elem).val.first = if m.first = none then some elem else m.first := by
    simp [appendElem]
  have hlast : (m.appendElem elem).val.last = some elem := by
    simp [appendElem]
  generalize (m.appendElem elem).val = m' at hnext hprev hfirst hlast
  rw [h.last_eq] at hnext hprev
  rw [h.first_eq] at hfirst
  have hend : ∀ y, xs.getLast? = some y → y ∈ xs := fun _ => List.mem_of_getLast?
  rw [← List.append_nil xs] at h hn
  refine h.insert hn (by grind) (by grind) (by grind) (by grind) (by grind) (by grind) ?_ hlast
  rw [hfirst]
  cases xs <;> rfl

/-- `vms_list_prepend` to an empty list. -/
theorem prepend_isList (h : m.IsList []) (d : δ) :
    (m.prepend new d).val.IsList [new] := by
  have hfirst : m.first = none := h.first_eq
  have hlast : m.last = none := h.last_eq
  exact ⟨List.nodup_singleton new, by simp [Chain, prepend, hfirst, setData],
    by simp [Chain, prepend, hlast, setData]⟩

/-! ### Taking a node out -/

/-- `vms_list_remove`. -/
theorem remove_isList (h : m.IsList (l ++ elem :: r)) :
    (m.remove elem).val.IsList (l ++ r) := by
  have hn := List.nodup_middle.mp h.nodup
  have hhead : ∀ y, r.head? = some y → y ∈ r := fun _ => List.mem_of_head?
  have hend : ∀ y, l.getLast? = some y → y ∈ l := fun _ => List.mem_of_getLast?
  have hne : m.next elem ≠ some elem ∧ m.prev elem ≠ some elem := by
    rw [h.next_eq, h.prev_eq]
    grind
  have hnext : ∀ y, (m.remove elem).val.next y =
      if m.prev elem = some y then m.next elem else m.next y := by
    simp [remove, hne]
  have hprev : ∀ y, (m.remove elem).val.prev y =
      if m.next elem = some y then m.prev elem else m.prev y := by
    simp [remove]
  have hfirst : (m.remove elem).val.first = if some elem = m.first then m.next elem else m.first := by
    simp [remove, hne]
  have hlast : (m.remove elem).val.last = if some elem = m.last then m.prev elem else m.last := by
    simp [remove, hne]
  generalize (m.remove elem).val = m' at hnext hprev hfirst hlast
  rw [h.next_eq, h.prev_eq] at hnext hprev
  rw [h.next_eq] at hfirst
  rw [h.prev_eq] at hlast
  refine h.remove (by grind) (by grind) (by grind) (by grind) ?_ ?_
  · rw [hfirst]
    split
    case isTrue hl => rw [h.first_iff.mp hl]; rfl
    case isFalse hl => rw [← h.first_or (mt h.first_iff.mpr hl), List.head?_append]
  · rw [hlast]
    split
    case isTrue hr => rw [h.last_iff.mp hr, List.append_nil]
    case isFalse hr =>
      have hr' := mt h.last_iff.mpr hr
      rw [h.last_eq, List.getLast?_append, List.getLast?_append]
      obtain ⟨y, r, rfl⟩ := List.exists_cons_of_ne_nil hr'
      rfl

end ListMem

/-! ### Runs -/

namespace ListOp

variable {α δ : Type} [DecidableEq α] {elem new : α} {l r xs : List α}

theorem putAfter_eq (h : elem ∉ l) : putAfter elem new (l ++ elem :: r) = l ++ elem :: new :: r := by
  induction l with
  | nil => simp [putAfter]
  | cons x l ih =>
    simp only [List.mem_cons, not_or] at h
    simp [putAfter, Ne.symm h.1, ih h.2]

theorem putBefore_eq (h : elem ∉ l) :
    putBefore elem new (l ++ elem :: r) = l ++ new :: elem :: r := by
  induction l with
  | nil => simp [putBefore]
  | cons x l ih =>
    simp only [List.mem_cons, not_or] at h
    simp [putBefore, Ne.symm h.1, ih h.2]

omit [DecidableEq α] in
/-- An element of the list and what lies around it. -/
theorem split_at (hn : xs.Nodup) (h : elem ∈ xs) : ∃ l r, xs = l ++ elem :: r ∧ elem ∉ l := by
  obtain ⟨l, r, rfl⟩ := List.append_of_mem h
  have hd := (List.nodup_cons.mp (List.nodup_middle.mp hn)).1
  exact ⟨l, r, rfl, fun hl => hd (List.mem_append_left r hl)⟩

/-- The element that a call puts into the list. -/
def added : ListOp α δ → Option α
  | append new _ => some new
  | prepend new _ => some new
  | appendElem elem => some elem
  | insertAfter _ new _ => some new
  | insertElemAfter _ new => some new
  | insertBefore _ new _ => some new
  | remove _ => none

/-- Putting an element in adds it, wherever it goes. -/
theorem spec_perm {op : ListOp α δ} (hn : xs.Nodup) (h : op.Admissible xs)
    (ha : op.added = some new) : new ∉ xs ∧ (op.spec xs).Perm (new :: xs) := by
  cases op with
  | append x d => cases ha; exact ⟨h, List.perm_append_singleton new xs⟩
  | prepend x d => cases ha; exact ⟨h, .refl _⟩
  | appendElem x => cases ha; exact ⟨h, List.perm_append_singleton new xs⟩
  | insertAfter elem x d =>
    cases ha
    obtain ⟨l, r, rfl, hl⟩ := split_at hn h.1
    refine ⟨h.2, ?_⟩
    have hp : (l ++ [elem] ++ new :: r).Perm (new :: (l ++ [elem] ++ r)) := List.perm_middle
    rw [spec, putAfter_eq hl]
    simpa using hp
  | insertElemAfter elem x =>
    cases ha
    obtain ⟨l, r, rfl, hl⟩ := split_at hn h.1
    refine ⟨h.2, ?_⟩
    have hp : (l ++ [elem] ++ new :: r).Perm (new :: (l ++ [elem] ++ r)) := List.perm_middle
    rw [spec, putAfter_eq hl]
    simpa using hp
  | insertBefore elem x d =>
    cases ha
    obtain ⟨l, r, rfl, hl⟩ := split_at hn h.1
    refine ⟨h.2, ?_⟩
    rw [spec, putBefore_eq hl]
    exact List.perm_middle
  | remove elem => cases ha

theorem spec_nodup {op : ListOp α δ} (hn : xs.Nodup) (h : op.Admissible xs) :
    (op.spec xs).Nodup := by
  cases ha : op.added with
  | some new =>
    obtain ⟨hnew, hp⟩ := spec_perm hn h ha
    exact hp.nodup_iff.mpr (List.nodup_cons.mpr ⟨hnew, hn⟩)
  | none =>
    cases op with
    | remove elem => exact hn.erase elem
    | _ => cases ha

end ListOp

namespace ListRun

variable {α δ : Type} [DecidableEq α] {s : ListRun α δ} {op : ListOp α δ}

omit [DecidableEq α] in
theorem represents_iff (hn : s.list.Nodup) :
    Represents s ↔ s.mem.IsList s.list ∧ s.mem.size = s.list.length := by
  constructor
  · exact fun h => ⟨⟨hn, h.forward, h.backward⟩, h.size⟩
  · rintro ⟨h, hsize⟩
    refine ⟨h.forward, h.backward, fun x hx => ?_, fun x hx => ?_, hsize⟩
    · rw [h.first_eq] at hx
      obtain ⟨r, hr⟩ : ∃ r, s.list = x :: r := List.head?_eq_some_iff.mp hx
      rw [hr] at h
      exact h.prev_eq (l := [])
    · rw [h.last_eq] at hx
      obtain ⟨l, hl⟩ : ∃ l, s.list = l ++ [x] := List.getLast?_eq_some_iff.mp hx
      rw [hl] at h
      exact h.next_eq

/-- A call that is not a `prepend` to a list with elements keeps the list linked. -/
theorem step_isList (ha : Admissible s op) (hp : PrependsToEmpty s op) (h : s.mem.IsList s.list) :
    (s.step op).mem.IsList (s.step op).list := by
  obtain ⟨m, xs⟩ := s
  cases op with
  | append new d =>
    have hd : (m.setData new d).IsList xs := h
    exact ListMem.appendElem_isList hd ha
  | prepend new d =>
    have hnil : xs = [] := List.head?_eq_none_iff.mp (h.first_eq.symm.trans (hp new d rfl))
    subst hnil
    exact ListMem.prepend_isList h d
  | appendElem elem => exact ListMem.appendElem_isList h ha
  | insertAfter elem new d =>
    obtain ⟨l, r, rfl, hel⟩ := ListOp.split_at h.nodup ha.1
    have hd : (m.setData new d).IsList (l ++ elem :: r) := h
    have hl := ListMem.insertElemAfter_isList hd ha.2
    rw [← ListOp.putAfter_eq hel] at hl
    exact hl
  | insertElemAfter elem new =>
    obtain ⟨l, r, rfl, hel⟩ := ListOp.split_at h.nodup ha.1
    have hl := ListMem.insertElemAfter_isList h ha.2
    rw [← ListOp.putAfter_eq hel] at hl
    exact hl
  | insertBefore elem new d =>
    obtain ⟨l, r, rfl, hel⟩ := ListOp.split_at h.nodup ha.1
    have hl := ListMem.insertBefore_isList h ha.2 d
    rw [← ListOp.putBefore_eq hel] at hl
    exact hl
  | remove elem =>
    obtain ⟨l, r, rfl, hel⟩ := ListOp.split_at h.nodup ha
    have hl := ListMem.remove_isList h
    rw [show l ++ r = (l ++ elem :: r).erase elem by
      rw [List.erase_append_right _ hel, List.erase_cons_head]] at hl
    exact hl

theorem run_size (op : ListOp α δ) (m : ListMem α δ) :
    (op.run m).val.size = if op.added.isSome then m.size + 1 else m.size - 1 := by
  cases op <;> simp [ListOp.run, ListOp.added, ListMem.append, ListMem.prepend, ListMem.appendElem,
    ListMem.insertAfter, ListMem.insertElemAfter, ListMem.insertBefore, ListMem.remove,
    ListMem.setData]

/-- The size counts the elements. -/
theorem step_size (hn : s.list.Nodup) (ha : Admissible s op) (hs : s.mem.size = s.list.length) :
    (s.step op).mem.size = (s.step op).list.length := by
  rw [step, run_size]
  cases hadd : op.added with
  | some new =>
    rw [(ListOp.spec_perm hn ha hadd).2.length_eq, hs]
    rfl
  | none =>
    cases op with
    | remove elem => simp [ListOp.spec, List.length_erase_of_mem ha, hs]
    | _ => cases hadd

/-- `prepend` to a list with elements leaves the old first element without a back pointer. -/
theorem prepend_breaks {new : α} {d : δ} (ha : Admissible s (.prepend new d)) (hs : Represents s)
    (hn : s.list.Nodup) (hr : Represents (s.step (.prepend new d))) : s.mem.first = none := by
  obtain ⟨h, -⟩ := (represents_iff hn).mp hs
  obtain ⟨h', -⟩ := (represents_iff (ListOp.spec_nodup hn ha)).mp hr
  obtain ⟨m, xs⟩ := s
  cases xs with
  | nil => exact h.first_eq
  | cons y r =>
    have hne : y ≠ new := by
      rintro rfl
      exact ha List.mem_cons_self
    have hold : m.prev y = none := h.prev_eq (l := [])
    have hnew : (m.prepend new d).val.prev y = some new := h'.prev_eq (l := [new])
    rw [show (m.prepend new d).val.prev y = m.prev y by
      simp [ListMem.prepend, ListMem.setData, hne], hold] at hnew
    cases hnew

/-- One call: the list represents the ordinary one afterwards if and only if the call is not a
    `prepend` to a list with elements. -/
theorem step_represents_iff (hn : s.list.Nodup) (ha : Admissible s op) (hs : Represents s) :
    Represents (s.step op) ↔ PrependsToEmpty s op := by
  constructor
  · rintro h new d rfl
    exact prepend_breaks ha hs hn h
  · intro hp
    obtain ⟨h, hsize⟩ := (represents_iff hn).mp hs
    exact (represents_iff (ListOp.spec_nodup hn ha)).mpr ⟨step_isList ha hp h, step_size hn ha hsize⟩

/-- In every sequence of calls from `vms_list_init`, the two chains and the ordinary list coincide
    throughout if and only if `prepend` is called on empty lists only. -/
theorem represents_always_iff (m : ListMem α δ) (ops : List (ListOp α δ))
    (hops : Meets step Admissible (start m) ops) :
    Always step Represents (start m) ops ↔ Meets step PrependsToEmpty (start m) ops := by
  have hstart : Represents (start m) := ⟨rfl, rfl, nofun, nofun, rfl⟩
  exact always_iff_meets (J := fun s : ListRun α δ => s.list.Nodup)
    (fun _ _ hn ha => ListOp.spec_nodup hn ha) (fun _ _ => step_represents_iff) List.nodup_nil
    hstart hops

/-- Memory in which nothing is linked. -/
def blank : ListMem ℕ Unit := ⟨fun _ => none, fun _ => none, fun _ => (), none, none, 0⟩

/-- A `prepend`, an `append`, an insertion before the first element, and a removal. -/
theorem represents_always_four :
    Always step Represents (start blank)
      [.prepend 1 (), .append 2 (), .insertBefore 1 3 (), .remove 1] := by
  refine (represents_always_iff blank _ (by decide)).mpr ⟨?_, ?_, ?_, ?_, trivial⟩
  · exact fun _ _ _ => rfl
  · exact nofun
  · exact nofun
  · exact nofun

/-- The second `prepend` leaves the element 1 without a back pointer: the chain of `prev` pointers
    from the last element is 1 alone, and the ordinary list is 2, 1. -/
theorem prepend_twice : Meets step Admissible (start blank) [.prepend 1 (), .prepend 2 ()] ∧
    (([.prepend 1 (), .prepend 2 ()] : List (ListOp ℕ Unit)).foldl step (start blank)).list = [2, 1] ∧
    Chain (([.prepend 1 (), .prepend 2 ()] : List (ListOp ℕ Unit)).foldl step (start blank)).mem.prev
      (([.prepend 1 (), .prepend 2 ()] : List (ListOp ℕ Unit)).foldl step (start blank)).mem.last [1]
      none ∧
    ¬ Always step Represents (start blank) [.prepend 1 (), .prepend 2 ()] := by
  refine ⟨by decide, rfl, ⟨rfl, rfl⟩, fun h => ?_⟩
  have hb := h.last.backward
  obtain ⟨-, hp, -⟩ := hb
  cases hp

end ListRun

end Vamos
