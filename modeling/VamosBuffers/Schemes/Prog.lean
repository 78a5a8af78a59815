import Mathlib.Tactic
import VamosBuffers.Schemes.Checked

/-! Shared-memory programs, one access at a time. A program over a memory `σ` is a tree: it has
    returned, or its next access reads the memory, updates it, and goes on with what it read. A
    sequentially consistent run of several threads interleaves these accesses in any order; the same
    tree run alone (`run`) is the ordinary sequential meaning of the function.

        act l f k   in memory s:   s ──l──▶ f s,   then k s        (l names the location)
        fault p     a check failed here (a wrapped operation, a failed assert); goes on as p
        ret a       no access left

    A thread is a client: at each of its locations it picks a call that the location permits, runs
    the call's program, and the value returned is its next location. Loops of the code are clients
    whose locations are the loop heads, so programs themselves are finite trees. -/

namespace Schemes

/-- What an access is: a load from a location or a store to it. -/
inductive Acc (ℓ : Type) where
  | load (x : ℓ)
  | store (x : ℓ)
  deriving DecidableEq, Repr

/-- The same access, the location named from outside. -/
def Acc.map {ℓ ℓ' : Type} (φ : ℓ → ℓ') : Acc ℓ → Acc ℓ'
  | load x => load (φ x)
  | store x => store (φ x)

/-- A program over memory `σ` whose accesses carry labels `Λ` and that returns an `α`. -/
inductive Prog (σ Λ α : Type) : Type
  | ret (a : α)
  | fault (p : Prog σ Λ α)
  | act (l : Λ) (f : σ → σ) (k : σ → Prog σ Λ α)

namespace Prog

variable {σ τ Λ Λ' α β γ : Type}

/-- Sequencing. -/
def bind : Prog σ Λ α → (α → Prog σ Λ β) → Prog σ Λ β
  | ret a, g => g a
  | fault p, g => fault (p.bind g)
  | act l f k, g => act l f fun s => (k s).bind g

instance : Monad (Prog σ Λ) where
  pure := ret
  bind := bind

@[simp] theorem pure_eq_ret (a : α) : (pure a : Prog σ Λ α) = ret a := rfl

@[simp] theorem ret_bind (a : α) (g : α → Prog σ Λ β) : (ret a >>= g) = g a := rfl

@[simp] theorem fault_bind (p : Prog σ Λ α) (g : α → Prog σ Λ β) :
    (fault p >>= g) = fault (p >>= g) := rfl

@[simp] theorem act_bind (l : Λ) (f : σ → σ) (k : σ → Prog σ Λ α) (g : α → Prog σ Λ β) :
    (act l f k >>= g) = act l f fun s => k s >>= g := rfl

theorem bind_assoc : ∀ (p : Prog σ Λ α) (g : α → Prog σ Λ β) (h : β → Prog σ Λ γ),
    (p >>= g) >>= h = p >>= fun a => g a >>= h
  | ret _, _, _ => rfl
  | fault p, g, h => congrArg fault (bind_assoc p g h)
  | act l f k, g, h => congrArg (act l f) (funext fun s => bind_assoc (k s) g h)

/-- One access: read `get`, then update the memory by `f`. -/
def access (l : Λ) (get : σ → α) (f : σ → σ) : Prog σ Λ α := act l f fun s => ret (get s)

/-- A load from location `x`. -/
def load {ℓ : Type} (x : ℓ) (get : σ → α) : Prog σ (Acc ℓ) α := access (.load x) get id

/-- A store to location `x`. -/
def store {ℓ : Type} (x : ℓ) (f : σ → σ) : Prog σ (Acc ℓ) Unit := access (.store x) (fun _ => ()) f

/-- A checked computation on local values: no access, a fault if a check failed. -/
def ofChk : Chk α → Prog σ Λ α
  | ⟨a, true⟩ => ret a
  | ⟨a, false⟩ => fault (ret a)

@[simp] theorem ofChk_pure (a : α) : (ofChk (pure a) : Prog σ Λ α) = ret a := rfl

/-- The label of the next access. -/
def next : Prog σ Λ α → Option Λ
  | act l _ _ => some l
  | _ => none

/-- What the program has returned, if it has. -/
def done : Prog σ Λ α → Option α
  | ret a => some a
  | _ => none

theorem done_eq_some {p : Prog σ Λ α} {a : α} : p.done = some a ↔ p = .ret a := by
  cases p <;> simp [done]

/-- Is the program standing at a failed check? -/
def faulty : Prog σ Λ α → Bool
  | fault _ => true
  | _ => false

/-- The program run alone: its result and the memory it leaves. -/
def run : Prog σ Λ α → σ → α × σ
  | ret a, s => (a, s)
  | fault p, s => p.run s
  | act _ f k, s => (k s).run (f s)

/-- Did every check of the program, run alone, hold? -/
def runOk : Prog σ Λ α → σ → Bool
  | ret _, _ => true
  | fault _, _ => false
  | act _ f k, s => (k s).runOk (f s)

/-- Does the program, run alone, make every access where `A` admits it? -/
def within (A : Λ → σ → Prop) : Prog σ Λ α → σ → Prop
  | ret _, _ => True
  | fault p, s => p.within A s
  | act l f k, s => A l s ∧ (k s).within A (f s)

instance decidableWithin {A : Λ → σ → Prop} [∀ l s, Decidable (A l s)] :
    ∀ (p : Prog σ Λ α) (s : σ), Decidable (p.within A s)
  | ret _, _ => isTrue trivial
  | fault p, s => decidableWithin p s
  | act _ f k, s => @instDecidableAnd _ _ _ (decidableWithin (k s) (f s))

theorem within_mono {A B : Λ → σ → Prop} (h : ∀ l s, A l s → B l s) :
    ∀ (p : Prog σ Λ α) (s : σ), p.within A s → p.within B s
  | ret _, _, _ => trivial
  | fault p, s, hp => within_mono h p s hp
  | act l f k, s, hp => ⟨h l s hp.1, within_mono h (k s) (f s) hp.2⟩

theorem within_of_forall {A : Λ → σ → Prop} (h : ∀ l s, A l s) :
    ∀ (p : Prog σ Λ α) (s : σ), p.within A s
  | ret _, _ => trivial
  | fault p, s => within_of_forall h p s
  | act l f k, s => ⟨h l s, within_of_forall h (k s) (f s)⟩

/-- The program of a process that is killed, if it has not returned by then, after `n` accesses. -/
def upTo : Prog σ Λ α → ℕ → Prog σ Λ (Option α)
  | ret a, _ => ret (some a)
  | fault p, n => fault (p.upTo n)
  | act _ _ _, 0 => ret none
  | act l f k, n + 1 => act l f fun s => (k s).upTo n

@[simp] theorem run_bind : ∀ (p : Prog σ Λ α) (g : α → Prog σ Λ β) (s : σ),
    (p >>= g).run s = (g (p.run s).1).run (p.run s).2
  | ret _, _, _ => rfl
  | fault p, g, s => run_bind p g s
  | act _ f k, g, s => run_bind (k s) g (f s)

@[simp] theorem run_ret (a : α) (s : σ) : (ret a : Prog σ Λ α).run s = (a, s) := rfl

@[simp] theorem run_access (l : Λ) (get : σ → α) (f : σ → σ) (s : σ) :
    (access l get f).run s = (get s, f s) := rfl

@[simp] theorem run_load {ℓ : Type} (x : ℓ) (get : σ → α) (s : σ) :
    (load x get).run s = (get s, s) := rfl

@[simp] theorem run_store {ℓ : Type} (x : ℓ) (f : σ → σ) (s : σ) :
    (store x f).run s = ((), f s) := rfl

/-- Run alone, a computation goes on with its value whether or not its checks held. -/
@[simp] theorem run_ofChk (c : Chk α) (s : σ) : (ofChk c : Prog σ Λ α).run s = (c.val, s) := by
  obtain ⟨a, ok⟩ := c
  cases ok <;> rfl

@[simp] theorem runOk_bind : ∀ (p : Prog σ Λ α) (g : α → Prog σ Λ β) (s : σ),
    (p >>= g).runOk s = (p.runOk s && (g (p.run s).1).runOk (p.run s).2)
  | ret _, _, _ => rfl
  | fault _, _, _ => rfl
  | act _ f k, g, s => runOk_bind (k s) g (f s)

@[simp] theorem runOk_ret (a : α) (s : σ) : (ret a : Prog σ Λ α).runOk s = true := rfl

@[simp] theorem runOk_load {ℓ : Type} (x : ℓ) (get : σ → α) (s : σ) :
    (load x get).runOk s = true := rfl

@[simp] theorem runOk_ofChk (c : Chk α) (s : σ) : (ofChk c : Prog σ Λ α).runOk s = c.ok := by
  obtain ⟨a, ok⟩ := c
  cases ok <;> rfl

end Prog

/-- A part of the memory: `get` reads it, `set` replaces it, and the two fit. -/
structure Lens (σ τ : Type) where
  get : σ → τ
  set : τ → σ → σ
  get_set : ∀ t s, get (set t s) = t
  set_get : ∀ s, set (get s) s = s

/-- A part of a part. -/
def Lens.comp {σ τ υ : Type} (L : Lens σ τ) (M : Lens τ υ) : Lens σ υ where
  get s := M.get (L.get s)
  set u s := L.set (M.set u (L.get s)) s
  get_set u s := by rw [L.get_set, M.get_set]
  set_get s := by rw [M.set_get, L.set_get]

namespace Prog

variable {σ τ υ Λ Λ' Λ'' α β : Type}

/-- A program on a part of the memory, as a program on the whole. -/
def zoom (L : Lens σ τ) (φ : Λ' → Λ) : Prog τ Λ' α → Prog σ Λ α
  | ret a => ret a
  | fault p => fault (p.zoom L φ)
  | act l f k => act (φ l) (fun s => L.set (f (L.get s)) s) fun s => (k (L.get s)).zoom L φ

theorem zoom_bind (L : Lens σ τ) (φ : Λ' → Λ) : ∀ (p : Prog τ Λ' α) (g : α → Prog τ Λ' β),
    (p >>= g).zoom L φ = p.zoom L φ >>= fun a => (g a).zoom L φ
  | ret _, _ => rfl
  | fault p, g => congrArg fault (zoom_bind L φ p g)
  | act l _ k, g => congrArg (act (φ l) _) (funext fun s => zoom_bind L φ (k (L.get s)) g)

theorem zoom_zoom (L : Lens σ τ) (M : Lens τ υ) (φ : Λ' → Λ) (ψ : Λ'' → Λ') :
    ∀ p : Prog υ Λ'' α, (p.zoom M ψ).zoom L φ = p.zoom (L.comp M) fun l => φ (ψ l)
  | ret _ => rfl
  | fault p => congrArg fault (zoom_zoom L M φ ψ p)
  | act l f k => by
    simp only [zoom]
    congr 1
    funext s
    exact zoom_zoom L M φ ψ (k (M.get (L.get s)))

/-- On a part, the same checks are made. -/
theorem runOk_zoom (L : Lens σ τ) (φ : Λ' → Λ) : ∀ (p : Prog τ Λ' α) (s : σ),
    (p.zoom L φ).runOk s = p.runOk (L.get s)
  | ret _, _ => rfl
  | fault _, _ => rfl
  | act _ f k, s => by
    simp only [zoom, runOk]
    rw [runOk_zoom L φ (k (L.get s)), L.get_set]

/-- A program on a part, run alone, changes that part only. -/
theorem run_zoom {L : Lens σ τ} (hL : ∀ t t' s, L.set t (L.set t' s) = L.set t s) (φ : Λ' → Λ) :
    ∀ (p : Prog τ Λ' α) (s : σ),
      (p.zoom L φ).run s = ((p.run (L.get s)).1, L.set (p.run (L.get s)).2 s)
  | ret a, s => by simp only [zoom, run_ret, L.set_get]
  | fault p, s => run_zoom hL φ p s
  | act _ f k, s => by
    simp only [zoom, run]
    rw [run_zoom hL φ (k (L.get s)), L.get_set, hL]

end Prog

/-! ### Threads -/

/-- What a thread may do: at location `i` it may make call `x` when `enabled`, and the value its
    program returns is the next location. Runs may be restricted to those in which an access
    labelled `l` is made only in memories that `allowed` admits. -/
structure Client (σ Λ ι κ : Type) where
  enabled : ι → κ → σ → Prop
  body : ι → κ → Prog σ Λ ι
  allowed : Λ → σ → Prop := fun _ _ => True

/-- A configuration: the memory and what each thread still has to run. -/
structure Cfg (σ Λ : Type) {T : Type} (ι : T → Type) where
  mem : σ
  prog : (t : T) → Prog σ Λ (ι t)

section System

variable {σ Λ T : Type} [DecidableEq T] {ι κ : T → Type}

/-- Thread `t` takes a step: it starts a call, makes its next access, or passes a failed check. -/
inductive Step (C : (t : T) → Client σ Λ (ι t) (κ t)) (t : T) : Cfg σ Λ ι → Cfg σ Λ ι → Prop
  | call {c : Cfg σ Λ ι} {i : ι t} (x : κ t) (hp : c.prog t = .ret i)
      (he : (C t).enabled i x c.mem) :
      Step C t c ⟨c.mem, Function.update c.prog t ((C t).body i x)⟩
  | act {c : Cfg σ Λ ι} {l : Λ} {f : σ → σ} {k : σ → Prog σ Λ (ι t)} (hp : c.prog t = .act l f k)
      (ha : (C t).allowed l c.mem) :
      Step C t c ⟨f c.mem, Function.update c.prog t (k c.mem)⟩
  | skip {c : Cfg σ Λ ι} {p : Prog σ Λ (ι t)} (hp : c.prog t = .fault p) :
      Step C t c ⟨c.mem, Function.update c.prog t p⟩

/-- The configurations that runs from `c₀` reach, over every interleaving of the threads. -/
inductive Reach (C : (t : T) → Client σ Λ (ι t) (κ t)) (c₀ : Cfg σ Λ ι) : Cfg σ Λ ι → Prop
  | start : Reach C c₀ c₀
  | step {c c' : Cfg σ Λ ι} (t : T) : Reach C c₀ c → Step C t c c' → Reach C c₀ c'

/-- A run that goes on from where another one ended. -/
theorem Reach.trans {C : (t : T) → Client σ Λ (ι t) (κ t)} {c₀ c c' : Cfg σ Λ ι}
    (h : Reach C c₀ c) (h' : Reach C c c') : Reach C c₀ c' := by
  induction h' with
  | start => exact h
  | step t _ hst ih => exact .step t ih hst

/-! ### Schedules

A run is often given by a schedule: start this call, let that thread make one access, let it run to
the end of its call. -/

/-- Thread `t` starts running `p`. -/
def Cfg.begin (c : Cfg σ Λ ι) (t : T) (p : Prog σ Λ (ι t)) : Cfg σ Λ ι :=
  ⟨c.mem, Function.update c.prog t p⟩

/-- Thread `t` makes its next access, if it has one. -/
def Cfg.once (c : Cfg σ Λ ι) (t : T) : Cfg σ Λ ι :=
  match c.prog t with
  | .ret _ => c
  | .fault p => c.begin t p
  | .act _ f k => ⟨f c.mem, Function.update c.prog t (k c.mem)⟩

/-- Thread `t` runs to the end of its call while the others wait. -/
def Cfg.finish (c : Cfg σ Λ ι) (t : T) : Cfg σ Λ ι :=
  ⟨((c.prog t).run c.mem).2, Function.update c.prog t (.ret ((c.prog t).run c.mem).1)⟩

/-! What a whole call leaves. -/

section Call

variable (c : Cfg σ Λ ι) (t : T) (p : Prog σ Λ (ι t))

@[simp] theorem Cfg.call_mem : ((c.begin t p).finish t).mem = (p.run c.mem).2 := by
  simp [Cfg.begin, Cfg.finish]

@[simp] theorem Cfg.call_self : ((c.begin t p).finish t).prog t = .ret (p.run c.mem).1 := by
  simp [Cfg.begin, Cfg.finish]

theorem Cfg.call_other {u : T} (hu : u ≠ t) : ((c.begin t p).finish t).prog u = c.prog u := by
  simp [Cfg.begin, Cfg.finish, Function.update_of_ne hu]

end Call

variable {C : (t : T) → Client σ Λ (ι t) (κ t)} {c₀ c : Cfg σ Λ ι}

theorem Reach.begin (h : Reach C c₀ c) (t : T) {i : ι t} (x : κ t) (hp : c.prog t = .ret i)
    (he : (C t).enabled i x c.mem) : Reach C c₀ (c.begin t ((C t).body i x)) :=
  .step t h (.call x hp he)

theorem Reach.once (h : Reach C c₀ c) (t : T)
    (ha : ∀ l, (c.prog t).next = some l → (C t).allowed l c.mem) : Reach C c₀ (c.once t) := by
  unfold Cfg.once
  split
  · exact h
  · rename_i p hp; exact .step t h (.skip hp)
  · rename_i l f k hp; exact .step t h (.act hp (ha l (by rw [hp]; rfl)))

theorem Reach.finish (h : Reach C c₀ c) (t : T) (ha : (c.prog t).within (C t).allowed c.mem) :
    Reach C c₀ (c.finish t) := by
  -- by induction on what the thread still has to run
  suffices hr : ∀ (p : Prog σ Λ (ι t)) (m : σ), p.within (C t).allowed m →
      Reach C c₀ ⟨m, Function.update c.prog t p⟩ →
      Reach C c₀ ⟨(p.run m).2, Function.update c.prog t (.ret (p.run m).1)⟩ by
    refine hr (c.prog t) c.mem ha ?_
    rw [Function.update_eq_self]; exact h
  intro p
  induction p with
  | ret a => exact fun m _ hm => hm
  | fault p ih =>
    intro m hw hm
    refine ih m hw ?_
    simpa using Reach.step t hm (.skip (p := p) (by simp))
  | act l f k ih =>
    intro m hw hm
    refine ih m (f m) hw.2 ?_
    simpa using Reach.step t hm (.act (l := l) (f := f) (k := k) (by simp) hw.1)

/-- A whole call, while the others wait. -/
theorem Reach.callIn (h : Reach C c₀ c) (t : T) {i : ι t} (x : κ t) (hp : c.prog t = .ret i)
    (he : (C t).enabled i x c.mem) (ha : ((C t).body i x).within (C t).allowed c.mem) :
    Reach C c₀ ((c.begin t ((C t).body i x)).finish t) :=
  (h.begin t x hp he).finish t (by simpa [Cfg.begin] using ha)

/-- A whole call, when every access is allowed. -/
theorem Reach.call (h : Reach C c₀ c) (t : T) {i : ι t} (x : κ t) (hp : c.prog t = .ret i)
    (he : (C t).enabled i x c.mem) (ha : ∀ l m, (C t).allowed l m) :
    Reach C c₀ ((c.begin t ((C t).body i x)).finish t) :=
  h.callIn t x hp he (Prog.within_of_forall ha _ _)

end System

end Schemes
