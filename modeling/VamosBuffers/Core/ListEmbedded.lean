import Mathlib.Tactic
import VamosBuffers.Schemes.Checked
import VamosBuffers.Schemes.Links
import VamosBuffers.Schemes.Operations

/-! `src/core/list-embedded.c`: a circular doubly linked list whose nodes lie inside the objects of the
    program. The head is a node like the others, but in no object.

        ┌─▶ head ⇄ e₀ ⇄ e₁ ⇄ … ⇄ eₙ ◀─┐          empty:  head->next = head->prev = head
        └──────────────────────────────┘

    A whole list is moved behind a node by four stores. The flag of a result says that no null pointer
    was followed. -/

namespace Vamos
open Schemes

/-- The pointers of all `vms_list_embedded` in memory, by address. -/
structure EmbeddedMem (α : Type) where
  next : α → Option α
  prev : α → Option α

namespace EmbeddedMem

variable {α : Type} [DecidableEq α]

def setNext (x : α) (p : Option α) (m : EmbeddedMem α) : EmbeddedMem α :=
  { m with next := Function.update m.next x p }

def setPrev (x : α) (p : Option α) (m : EmbeddedMem α) : EmbeddedMem α :=
  { m with prev := Function.update m.prev x p }

/-- `p->next = v`. -/
def storeNext (p v : Option α) (m : EmbeddedMem α) : Chk (EmbeddedMem α) := do
  Chk.require p.isSome
  pure (p.elim m fun x => m.setNext x v)

/-- `p->prev = v`. -/
def storePrev (p v : Option α) (m : EmbeddedMem α) : Chk (EmbeddedMem α) := do
  Chk.require p.isSome
  pure (p.elim m fun x => m.setPrev x v)

/-- `vms_list_embedded_init`. -/
def init (list : α) (m : EmbeddedMem α) : EmbeddedMem α :=
  (m.setPrev list (some list)).setNext list (some list)

/-- `vms_list_embedded_insert_after`. -/
def insertAfter (list elm : α) (m : EmbeddedMem α) : Chk (EmbeddedMem α) := do
  let m := m.setPrev elm (some list)
  let m := m.setNext elm (m.next list)
  let m := m.setNext list (some elm)
  m.storePrev (m.next elm) (some elm)

/-- `vms_list_embedded_empty`. -/
def empty (list : α) (m : EmbeddedMem α) : Bool := m.next list = some list

/-- `vms_list_embedded_insert_list`. The head of the other list keeps its pointers. -/
def insertList (list other : α) (m : EmbeddedMem α) : Chk (EmbeddedMem α) :=
  if m.empty other then pure m
  else do
    let m ← m.storePrev (m.next other) (some list)
    let m ← m.storeNext (m.prev other) (m.next list)
    let m ← m.storePrev (m.next list) (m.prev other)
    pure (m.setNext list (m.next other))

/-- `vms_list_embedded_remove`. -/
def remove (elm : α) (m : EmbeddedMem α) : Chk (EmbeddedMem α) := do
  let m ← m.storeNext (m.prev elm) (m.next elm)
  let m ← m.storePrev (m.next elm) (m.prev elm)
  pure ((m.setPrev elm none).setNext elm none)

/-- The loop of `vms_list_embedded_size`: what the first `fuel` tests of its condition come to, nothing
    if it still goes on, or follows a null pointer. -/
def sizeFrom (list : α) (m : EmbeddedMem α) : ℕ → Option α → ℕ → Option ℕ
  | 0, _, _ => none
  | fuel + 1, cur, n =>
    if cur = some list then some n
    else cur.bind fun x => sizeFrom list m fuel (m.next x) (n + 1)

/-- `vms_list_embedded_size`. -/
def size (fuel : ℕ) (list : α) (m : EmbeddedMem α) : Option ℕ := m.sizeFrom list fuel (m.next list) 0

/-- The nodes that a loop over the pointers `f` is at, from `pos` on until it is at the head. -/
def passes (f : α → Option α) (head : α) : ℕ → Option α → Option (List α)
  | 0, _ => none
  | fuel + 1, pos =>
    if pos = some head then some []
    else pos.bind fun x => (passes f head fuel (f x)).map (x :: ·)

/-- `vms_list_embedded_foreach`. -/
def foreach (fuel : ℕ) (head : α) (m : EmbeddedMem α) : Option (List α) :=
  passes m.next head fuel (m.next head)

/-- `vms_list_embedded_foreach_reverse`. -/
def foreachReverse (fuel : ℕ) (head : α) (m : EmbeddedMem α) : Option (List α) :=
  passes m.prev head fuel (m.prev head)

end EmbeddedMem

/-- A call on the list, or what the rest of the program does in between. -/
inductive EmbeddedOp (α : Type) where
  | insertAfter (list elm : α)
  /-- `members` are the nodes on the other list -/
  | insertList (list other : α) (members : List α)
  | remove (elm : α)
  /-- afterwards the memory is `m` -/
  | elsewhere (m : EmbeddedMem α)

namespace EmbeddedOp

variable {α : Type} [DecidableEq α]

def run : EmbeddedOp α → EmbeddedMem α → Chk (EmbeddedMem α)
  | insertAfter list elm => EmbeddedMem.insertAfter list elm
  | insertList list other _ => EmbeddedMem.insertList list other
  | remove elm => EmbeddedMem.remove elm
  | elsewhere m => fun _ => pure m

/-- `ys` put behind the member `pos`. -/
def putBehind (pos : α) (ys : List α) : List α → List α
  | [] => []
  | x :: xs => if x = pos then x :: (ys ++ xs) else x :: putBehind pos ys xs

/-- `ys` put behind `pos`, the head or a member. -/
def put (head pos : α) (ys xs : List α) : List α := if pos = head then ys ++ xs else putBehind pos ys xs

/-- What the call is to do to an ordinary list. -/
def spec (head : α) : EmbeddedOp α → List α → List α
  | insertAfter list elm, xs => put head list [elm] xs
  | insertList list _ members, xs => put head list members xs
  | remove elm, xs => xs.erase elm
  | elsewhere _, xs => xs

/-- A node is inserted behind the head or a member and is neither itself; another list is well formed,
    and it and this one have no node in common; a removed node is a member. The rest of the program
    leaves the head and the members alone. -/
def Admissible (head : α) (xs : List α) (m : EmbeddedMem α) : EmbeddedOp α → Prop
  | insertAfter list elm => list ∈ head :: xs ∧ elm ∉ head :: xs
  | insertList list other members => list ∈ head :: xs ∧ Ring m.next m.prev other members ∧
      ∀ x ∈ other :: members, x ∉ head :: xs
  | remove elm => elm ∈ xs
  | elsewhere m' => ∀ x ∈ head :: xs, m'.next x = m.next x ∧ m'.prev x = m.prev x

end EmbeddedOp

/-- The memory and the ordinary list that went through the same calls. -/
structure EmbeddedRun (α : Type) where
  mem : Chk (EmbeddedMem α)
  list : List α

namespace EmbeddedRun

variable {α : Type} [DecidableEq α]

/-- A list as `vms_list_embedded_init` leaves it in memory `m`. -/
def start (head : α) (m : EmbeddedMem α) : EmbeddedRun α := ⟨pure (m.init head), []⟩

def step (head : α) (s : EmbeddedRun α) (op : EmbeddedOp α) : EmbeddedRun α :=
  ⟨s.mem >>= op.run, op.spec head s.list⟩

def Admissible (head : α) (s : EmbeddedRun α) (op : EmbeddedOp α) : Prop :=
  op.Admissible head s.list s.mem.val

/-- Following `next` from the head one passes the members in the order of the ordinary list and comes
    back to the head, following `prev` one passes them in reverse, and the size is their number. -/
structure Represents (head : α) (s : EmbeddedRun α) : Prop where
  sound : s.mem.ok = true
  forward : Chain s.mem.val.next (s.mem.val.next head) s.list (some head)
  backward : Chain s.mem.val.prev (s.mem.val.prev head) s.list.reverse (some head)
  foreach : ∀ fuel, s.list.length < fuel → s.mem.val.foreach fuel head = some s.list
  foreachReverse : ∀ fuel, s.list.length < fuel →
    s.mem.val.foreachReverse fuel head = some s.list.reverse
  size : ∀ fuel, s.list.length < fuel → s.mem.val.size fuel head = some s.list.length

end EmbeddedRun

/-! ### Stores -/

namespace EmbeddedMem

variable {α : Type} [DecidableEq α]

@[simp] theorem setNext_next (x y : α) (p : Option α) (m : EmbeddedMem α) :
    (m.setNext x p).next y = if y = x then p else m.next y := Function.update_apply ..

@[simp] theorem setNext_prev (x : α) (p : Option α) (m : EmbeddedMem α) :
    (m.setNext x p).prev = m.prev := rfl

@[simp] theorem setPrev_prev (x y : α) (p : Option α) (m : EmbeddedMem α) :
    (m.setPrev x p).prev y = if y = x then p else m.prev y := Function.update_apply ..

@[simp] theorem setPrev_next (x : α) (p : Option α) (m : EmbeddedMem α) :
    (m.setPrev x p).next = m.next := rfl

@[simp] theorem storeNext_some (x : α) (v : Option α) (m : EmbeddedMem α) :
    m.storeNext (some x) v = pure (m.setNext x v) := rfl

@[simp] theorem storePrev_some (x : α) (v : Option α) (m : EmbeddedMem α) :
    m.storePrev (some x) v = pure (m.setPrev x v) := rfl

/-- The nodes `xs` form the list of `head` in memory `m`. -/
abbrev IsRing (m : EmbeddedMem α) (head : α) (xs : List α) : Prop := Ring m.next m.prev head xs

variable {m : EmbeddedMem α} {head pos elm other : α} {xs ys l r : List α}

theorem init_isRing (head : α) (m : EmbeddedMem α) : (m.init head).IsRing head [] :=
  ⟨List.nodup_singleton head, by simp [Chain, init], by simp [Chain, init]⟩

omit [DecidableEq α] in
/-- The neighbours at a cut, and that they are on the list. -/
theorem IsRing.neighbours (h : m.IsRing head (l ++ r)) (hp : (head :: l).getLast? = some pos) :
    ∃ b, (head :: r.reverse).getLast? = some b ∧ m.next pos = some b ∧ m.prev b = some pos ∧
      pos ∈ head :: (l ++ r) ∧ b ∈ head :: (l ++ r) := by
  obtain ⟨b, hb⟩ := Ring.exists_after head r
  have hpm := List.mem_of_getLast? hp
  have hbm := List.mem_of_getLast? hb
  exact ⟨b, hb, h.next_eq hp hb, h.prev_eq hp hb, by grind, by grind⟩

/-! ### Linking in -/

/-- `vms_list_embedded_insert_after`. -/
theorem insertAfter_isRing (h : m.IsRing head (l ++ r)) (hp : (head :: l).getLast? = some pos)
    (hn : elm ∉ head :: (l ++ r)) : (m.insertAfter pos elm).ok = true ∧
      (m.insertAfter pos elm).val.IsRing head (l ++ ([elm] ++ r)) := by
  obtain ⟨b, hb, hnext, hprev, hpm, hbm⟩ := h.neighbours hp
  have hep : elm ≠ pos := fun he => hn (he ▸ hpm)
  have hrun : m.insertAfter pos elm = pure ((((m.setPrev elm (some pos)).setNext elm
      (some b)).setNext pos (some elm)).setPrev b (some elm)) := by
    simp [insertAfter, hep, hnext]
  rw [hrun]
  refine ⟨rfl, h.splice hp hb ⟨rfl, rfl⟩ ⟨rfl, rfl⟩ (List.nodup_singleton elm) ?_ rfl rfl⟩
  intro x hx
  rwa [List.mem_singleton.mp hx]

/-- `vms_list_embedded_insert_list`. -/
theorem insertList_isRing (h : m.IsRing head (l ++ r)) (hp : (head :: l).getLast? = some pos)
    (hy : m.IsRing other ys) (hd : ∀ x ∈ other :: ys, x ∉ head :: (l ++ r)) :
    (m.insertList pos other).ok = true ∧
      (m.insertList pos other).val.IsRing head (l ++ (ys ++ r)) := by
  obtain ⟨b, hb, hnext, hprev, hpm, hbm⟩ := h.neighbours hp
  have hfirst := hy.first_eq
  have hlast := hy.last_eq
  obtain ⟨hon, hyn⟩ := List.nodup_cons.mp hy.nodup
  cases h₀ : ys.head? with
  | none =>
    -- the other list is empty: nothing happens
    obtain rfl := List.head?_eq_none_iff.mp h₀
    have hrun : m.insertList pos other = pure m := by simp [insertList, empty, hfirst]
    rw [hrun]
    exact ⟨rfl, h⟩
  | some y₀ =>
    have hne : ys ≠ [] := List.ne_nil_of_mem (List.mem_of_head? h₀)
    have h₁ := List.getLast?_eq_some_getLast hne
    generalize ys.getLast hne = y₁ at h₁
    rw [h₀, Option.some_or] at hfirst
    rw [h₁, Option.some_or] at hlast
    -- the other head is no member of its list, and the end of that list is not on this one
    have ho₀ : other ≠ y₀ := fun ho => hon (ho ▸ List.mem_of_head? h₀)
    have ho₁ : other ≠ y₁ := fun ho => hon (ho ▸ List.mem_of_getLast? h₁)
    have hp₁ : pos ≠ y₁ := by
      rintro rfl
      exact hd pos (List.mem_cons_of_mem other (List.mem_of_getLast? h₁)) hpm
    have hrun : m.insertList pos other = pure ((((m.setPrev y₀ (some pos)).setNext y₁
        (some b)).setPrev b (some y₁)).setNext pos (some y₀)) := by
      simp [insertList, empty, hfirst, hlast, hnext, Ne.symm ho₀, ho₀, ho₁, hp₁]
    rw [hrun]
    exact ⟨rfl, h.splice hp hb hy.forward.2 hy.backward.2 hyn
      (fun x hx => hd x (List.mem_cons_of_mem other hx)) h₀ h₁⟩

/-! ### Taking out -/

/-- `vms_list_embedded_remove`. -/
theorem remove_isRing (h : m.IsRing head (l ++ ([elm] ++ r))) :
    (m.remove elm).ok = true ∧ (m.remove elm).val.IsRing head (l ++ r) := by
  obtain ⟨p, hp⟩ : ∃ p, (head :: l).getLast? = some p :=
    ⟨_, List.getLast?_eq_some_getLast (List.cons_ne_nil head l)⟩
  obtain ⟨b, hb⟩ := Ring.exists_after head r
  have hprev : m.prev elm = some p := h.prev_eq hp (by
    rw [List.reverse_append, List.reverse_singleton, ← List.cons_append, List.getLast?_concat])
  have hnext : m.next elm = some b := by
    rw [← List.append_assoc] at h
    exact h.next_eq (by rw [← List.cons_append, List.getLast?_concat]) hb
  have hcut := h.cut hp hb
  -- what is removed is none of the nodes that stay
  have hout : ∀ x ∈ head :: (l ++ r), x ≠ elm := by
    have hn : (head :: l ++ elm :: r).Nodup := h.nodup
    rintro x hx rfl
    exact (List.nodup_cons.mp (List.nodup_middle.mp hn)).1 hx
  have hep : elm ≠ p := by
    rintro rfl
    exact hout elm (List.mem_append_left r (List.mem_of_getLast? hp)) rfl
  have hrun : m.remove elm =
      pure ((((m.setNext p (some b)).setPrev b (some p)).setPrev elm none).setNext elm none) := by
    simp [remove, hprev, hnext, hep]
  rw [hrun]
  exact ⟨rfl, hcut.congr (fun x hx => Function.update_of_ne (hout x hx) ..)
    fun x hx => Function.update_of_ne (hout x hx) ..⟩

/-! ### Walking -/

/-- A loop along a chain of pointers to the head passes its nodes. -/
theorem passes_chain {f : α → Option α} {p : Option α} (h : Chain f p xs (some head))
    (hh : head ∉ xs) {fuel : ℕ} (hf : xs.length < fuel) : passes f head fuel p = some xs := by
  induction xs generalizing p fuel with
  | nil =>
    obtain ⟨fuel, rfl⟩ := Nat.exists_eq_succ_of_ne_zero (Nat.ne_of_gt hf)
    have hp : p = some head := h
    rw [passes, if_pos hp]
  | cons x xs ih =>
    obtain ⟨fuel, rfl⟩ := Nat.exists_eq_succ_of_ne_zero (Nat.ne_of_gt (Nat.zero_lt_of_lt hf))
    obtain ⟨rfl, hrest⟩ := h
    have hne : some x ≠ some head := by
      rintro ⟨⟩
      exact hh List.mem_cons_self
    rw [passes, if_neg hne, Option.bind_some,
      ih hrest (fun hm => hh (List.mem_cons_of_mem x hm)) (Nat.lt_of_succ_lt_succ hf)]
    rfl

/-- The loop of `vms_list_embedded_size` counts what a loop along `next` passes. -/
theorem sizeFrom_eq (head : α) (m : EmbeddedMem α) (fuel : ℕ) (cur : Option α) (n : ℕ) :
    m.sizeFrom head fuel cur n = (passes m.next head fuel cur).map fun xs => n + xs.length := by
  induction fuel generalizing cur n with
  | zero => rfl
  | succ fuel ih =>
    rw [sizeFrom, passes]
    split
    · rfl
    · cases cur with
      | none => rfl
      | some x =>
        rw [Option.bind_some, Option.bind_some, ih, Option.map_map]
        congr 1
        funext xs
        simp only [Function.comp_apply, List.length_cons]
        omega

end EmbeddedMem

/-! ### Runs -/

namespace EmbeddedOp

variable {α : Type} [DecidableEq α] {head pos : α} {xs : List α}

theorem putBehind_eq {l r : List α} (ys : List α) (h : pos ∉ l) :
    putBehind pos ys (l ++ pos :: r) = l ++ pos :: (ys ++ r) := by
  induction l with
  | nil => simp [putBehind]
  | cons x l ih =>
    simp only [List.mem_cons, not_or] at h
    simp [putBehind, Ne.symm h.1, ih h.2]

/-- The head or a member, and what comes before and after. -/
theorem split_at (hn : (head :: xs).Nodup) (h : pos ∈ head :: xs) : ∃ l r, xs = l ++ r ∧
    (head :: l).getLast? = some pos ∧ ∀ ys, put head pos ys xs = l ++ (ys ++ r) := by
  obtain ⟨hh, hx⟩ := List.nodup_cons.mp hn
  rcases List.mem_cons.mp h with rfl | hm
  · exact ⟨[], xs, rfl, rfl, fun ys => if_pos rfl⟩
  · obtain ⟨l, r, rfl⟩ := List.append_of_mem hm
    have hl : pos ∉ l := fun hl =>
      (List.nodup_cons.mp (List.nodup_middle.mp hx)).1 (List.mem_append_left r hl)
    have hne : pos ≠ head := fun he => hh (he ▸ hm)
    refine ⟨l ++ [pos], r, by simp, ?_, fun ys => ?_⟩
    · rw [← List.cons_append, List.getLast?_concat]
    · rw [put, if_neg hne, putBehind_eq ys hl]
      simp

end EmbeddedOp

namespace EmbeddedRun

variable {α : Type} [DecidableEq α] {head : α} {s : EmbeddedRun α} {op : EmbeddedOp α}

/-- No null pointer was followed, and the members of the ordinary list form the one in memory. -/
structure InRing (head : α) (s : EmbeddedRun α) : Prop where
  sound : s.mem.ok = true
  ring : s.mem.val.IsRing head s.list

theorem InRing.represents (h : InRing head s) : Represents head s := by
  obtain ⟨hs, hr⟩ := h
  have hh := (List.nodup_cons.mp hr.nodup).1
  have hh' : head ∉ s.list.reverse := fun hm => hh (List.mem_reverse.mp hm)
  have hforeach : ∀ fuel, s.list.length < fuel → s.mem.val.foreach fuel head = some s.list :=
    fun _ => EmbeddedMem.passes_chain hr.forward.2 hh
  refine ⟨hs, hr.forward.2, hr.backward.2, hforeach, fun fuel hf => ?_, fun fuel hf => ?_⟩
  · exact EmbeddedMem.passes_chain hr.backward.2 hh' (by rwa [List.length_reverse])
  · have hpass : EmbeddedMem.passes s.mem.val.next head fuel (s.mem.val.next head) = some s.list :=
      hforeach fuel hf
    rw [EmbeddedMem.size, EmbeddedMem.sizeFrom_eq, hpass, Option.map_some, Nat.zero_add]

/-- One call, or what the rest of the program does in between. -/
theorem step_inRing (h : InRing head s) (ha : Admissible head s op) : InRing head (step head s op) := by
  obtain ⟨mem, xs⟩ := s
  obtain ⟨hs, hr⟩ := h
  cases op with
  | insertAfter pos elm =>
    obtain ⟨l, r, rfl, hp, hput⟩ := EmbeddedOp.split_at hr.nodup ha.1
    obtain ⟨hok, hring⟩ := EmbeddedMem.insertAfter_isRing hr hp ha.2
    exact ⟨Chk.bind_ok .. |>.mpr ⟨hs, hok⟩, by rw [step, EmbeddedOp.spec, hput]; exact hring⟩
  | insertList pos other members =>
    obtain ⟨hpos, hy, hd⟩ := ha
    obtain ⟨l, r, rfl, hp, hput⟩ := EmbeddedOp.split_at hr.nodup hpos
    obtain ⟨hok, hring⟩ := EmbeddedMem.insertList_isRing hr hp hy hd
    exact ⟨Chk.bind_ok .. |>.mpr ⟨hs, hok⟩, by rw [step, EmbeddedOp.spec, hput]; exact hring⟩
  | remove elm =>
    obtain ⟨l, r, -, rfl, herase⟩ := List.exists_erase_eq ha
    obtain ⟨hok, hring⟩ := EmbeddedMem.remove_isRing hr
    exact ⟨Chk.bind_ok .. |>.mpr ⟨hs, hok⟩, by rw [step, EmbeddedOp.spec, herase]; exact hring⟩
  | elsewhere m' =>
    exact ⟨Chk.bind_ok .. |>.mpr ⟨hs, rfl⟩,
      hr.congr (fun x hx => (ha x hx).1) fun x hx => (ha x hx).2⟩

/-- In every sequence of calls from `vms_list_embedded_init`, whatever the rest of the program does in
    between, the list in memory and the ordinary one are the same throughout. -/
theorem embedded_is_list (head : α) (m : EmbeddedMem α) (ops : List (EmbeddedOp α))
    (hops : Meets (step head) (Admissible head) (start head m) ops) :
    Always (step head) (Represents head) (start head m) ops :=
  always_of_kept (fun _ _ => step_inRing) (fun _ => InRing.represents)
    ⟨rfl, EmbeddedMem.init_isRing head m⟩ hops

/-- Memory in which the node 10 is the head of a list with the members 11 and 12. -/
def besideTwo : EmbeddedMem ℕ :=
  (EmbeddedMem.insertAfter 10 12 (EmbeddedMem.init 10 ⟨fun _ => none, fun _ => none⟩) >>=
    EmbeddedMem.insertAfter 10 11).val

/-- Two insertions, the other list moved in between the two members, and the first member removed. -/
theorem embedded_is_list_four : Always (step 0) (Represents 0) (start 0 besideTwo)
    [.insertAfter 0 2, .insertAfter 0 1, .insertList 1 10 [11, 12], .remove 1] := by
  have hmember : 1 ∈ [1, 11, 12, 2] := by decide
  exact embedded_is_list 0 besideTwo _ ⟨⟨by decide, by decide⟩, ⟨by decide, by decide⟩,
    ⟨by decide, ⟨by decide, ⟨rfl, rfl, rfl, rfl⟩, ⟨rfl, rfl, rfl, rfl⟩⟩, by decide⟩, hmember, trivial⟩

/-- What the four calls leave: the head, 11, 12 and 2. -/
example : ((([.insertAfter 0 2, .insertAfter 0 1, .insertList 1 10 [11, 12], .remove 1] :
    List (EmbeddedOp ℕ)).foldl (step 0) (start 0 besideTwo)).mem.val.foreach 4 0) =
      some [11, 12, 2] := by
  decide

end EmbeddedRun

end Vamos
