import Mathlib.Tactic
import VamosBuffers.Shmbuf.Publish

/-! Who is served. Of the readers that connect to a source that lives and does nothing to its files:

        control block     nothing fails            something fails after the buffer was found
        there             every reader is served   the name of the buffer is taken away, and whoever
                                                   comes later does not find it
        of size 0         no reader is served

    A control block of size 0 is how a source says that it wants none. -/

namespace Vamos
open Schemes

namespace Publish

/-- No call fails. -/
structure Flawless (x : ReaderFaults) : Prop where
  openFile : ∀ left, x.openFile left = false
  pread : x.pread = false
  mmap : x.mmap = false
  malloc : x.malloc = false
  openCtrl : x.openCtrl = false
  preadCtrl : x.preadCtrl = false
  mmapCtrl : x.mmapCtrl = false

/-- The source is between two calls, and no reader has come yet. -/
structure Still (c : PublishCfg) : Prop where
  source : ∃ i, c.prog .source = .ret i
  readers : ∀ r, c.prog (.reader r) = .ret .idle

/-- The source does nothing, and nothing fails. -/
def flawlessReaders : (t : Thread) → Client ShmDir PublishAcc (At t) (Call t)
  | .source => { enabled := fun _ _ _ => False, body := fun i _ => .ret i }
  | .reader _ => {
      enabled := fun i x _ => match i, x with
        | .idle, .connect _ x => Flawless x
        | .ended _, .release => True
        | _, _ => False
      body := readerClient.body }

/-! ### Served -/

section Served

variable {d₀ d : ShmDir} {b k : ℕ}

/-- Nothing changes. -/
def stillRole (d₀ : ShmDir) : Role ShmDir PublishAcc where
  rely d d' := d = d₀ → d' = d₀
  guar _ d d' := d = d₀ → d' = d₀
  refl _ h := h
  trans h h' hd := h' (h hd)

/-- A whole buffer and a whole control block under their names. -/
structure Complete (b k : ℕ) (d : ShmDir) : Prop where
  buf : d.inode .buf = some b
  ctrl : d.inode .ctrl = some k
  allocated : (d.file b).allocatedSize ≠ 0
  length : Control.headBytes ≤ (d.file k).length
  size : (d.file k).control.size ≠ 0

/-- What a reader maps then. -/
def serves (b k : ℕ) (d : ShmDir) : Conn := ⟨b, (d.file b).allocatedSize, k, (d.file k).control.size⟩

/-- An access that changes nothing. -/
theorem still_safe {α β : Type} {Q : β → ShmDir → Prop} {l : PublishAcc} {get : ShmDir → α}
    {f : ShmDir → ShmDir} {g : α → PublishProg β} (hf : f d₀ = d₀)
    (h : Safe (· = d₀) (stillRole d₀) Q (g (get d₀)) d₀) :
    Safe (· = d₀) (stillRole d₀) Q (Prog.access l get f >>= g) d :=
  Safe.access_bind fun d1 _ i1 => by
    have i1 : d1 = d₀ := i1
    subst i1
    exact ⟨fun _ => hf, hf, by rw [hf]; exact h⟩

theorem ret_still {α : Type} {Q : α → ShmDir → Prop} {a : α} (h : Q a d₀) :
    Safe (· = d₀) (stillRole d₀) Q (.ret a) d := fun d' _ i => by
  have i : d' = d₀ := i
  subst i
  exact h

/-- Every call of `vms_shm_buffer_try_connect` succeeds. -/
theorem tryConnect_served (h : Complete b k d₀) {x : ReaderFaults} (hx : Flawless x) (retry : ℕ) :
    Safe (· = d₀) (stillRole d₀) (fun e _ => e = .connected (serves b k d₀)) (tryConnect retry x) d := by
  have hlen : ¬ (d₀.file k).length < Control.headBytes := h.length.not_gt
  simp only [tryConnect, openRetry, getSharedControl, attempt, hx.openFile, hx.pread, hx.mmap,
    hx.malloc, hx.openCtrl, hx.preadCtrl, hx.mmapCtrl, Prog.bind_assoc, Bool.or_self, if_false,
    Bool.false_eq_true, Bool.false_or]
  refine still_safe (by rw [h.buf]; rfl) ?_
  rw [h.buf]
  refine still_safe rfl ?_
  rw [if_neg h.allocated]
  refine still_safe (by rw [h.ctrl]; rfl) ?_
  rw [h.ctrl]
  dsimp only
  rw [Prog.bind_assoc]
  refine still_safe rfl ?_
  simp only [if_neg hlen, beq_eq_false_iff_ne.mpr h.size, Bool.false_eq_true, if_false]
  exact ret_still rfl

/-- What a reader that was served says. -/
def Served (b k : ℕ) (d₀ : ShmDir) : (t : Thread) → At t → ShmDir → Prop
  | .reader _, .ended e, _ => e = .connected (serves b k d₀)
  | _, _, _ => True

theorem reach_served {c c' : PublishCfg} (hc : Still c) (h : Complete b k c.mem)
    (hr : Reach flawlessReaders c c') : c'.mem = c.mem ∧
      ∀ t, Safe (· = c.mem) (stillRole c.mem) (Served b k c.mem t) (c'.prog t) c'.mem := by
  refine reach_safe (ρ := fun _ => stillRole c.mem) (Q := Served b k c.mem)
    (fun t _ _ _ => by cases t <;> trivial) (fun _ _ _ _ _ _ _ hi' _ _ => hi')
    (fun t i x d hd _ he => ?_) rfl (fun t => ?_) hr
  · cases t with
    | source => exact he.elim
    | reader r =>
      cases x with
      | release => exact fun _ _ _ => trivial
      | connect retry x =>
        cases i with
        | ended e => exact he.elim
        | idle =>
          refine Safe.bind hd ((tryConnect_served h he retry).mono fun e d1 _ h1 => ?_)
          exact fun _ _ _ => h1
  · cases t with
    | source =>
      obtain ⟨i, hi⟩ := hc.source
      rw [hi]
      exact fun _ _ _ => trivial
    | reader r =>
      rw [hc.readers r]
      exact fun _ _ _ => trivial

/-- All of them get the buffer and the control block, and nothing changes. -/
theorem served {c c' : PublishCfg} (hc : Still c) (h : Complete b k c.mem)
    (hr : Reach flawlessReaders c c') :
    c'.mem = c.mem ∧ ∀ r e, c'.prog (.reader r) = .ret (.ended e) →
      e = .connected (serves b k c.mem) := by
  obtain ⟨hmem, hs⟩ := reach_served hc h hr
  exact ⟨hmem, fun r e he => (hs (.reader r)).at_ret hmem he⟩

end Served

/-- A source has made four slots, and waits. -/
def fourMade : PublishCfg :=
  (start.begin .source ((sourceClient fun _ => True).body .down
    (.create four noFaults noFaults 20))).finish .source

theorem fourMade_still : Still fourMade :=
  ⟨⟨.up 1 0, Prog.done_eq_some.mp (by decide +kernel)⟩, fun _ => rfl⟩

theorem fourMade_complete : Complete 1 0 fourMade.mem := by
  constructor <;> decide +kernel

/-- Two readers connect at the same time. -/
theorem served_two : ∃ c, Reach flawlessReaders fourMade c ∧
    (∀ r < 2, c.prog (.reader r) = .ret (.ended (.connected (serves 1 0 fourMade.mem)))) ∧
    c.mem = fourMade.mem := by
  have hx : Flawless noReaderFaults := ⟨fun _ => rfl, rfl, rfl, rfl, rfl, rfl, rfl⟩
  have h0 : Reach flawlessReaders fourMade fourMade := .start
  have h1 := h0.begin (.reader 0) (i := .idle) (.connect 10 noReaderFaults) rfl hx
  have h2 := h1.once (.reader 0) fun _ _ => trivial
  have h3 := h2.call (.reader 1) (i := .idle) (.connect 10 noReaderFaults) rfl hx
    fun _ _ => trivial
  have h4 := h3.finish (.reader 0) (Prog.within_of_forall (fun _ _ => trivial) _ _)
  refine ⟨_, h4, fun r hr => ?_, (served fourMade_still fourMade_complete h4).1⟩
  interval_cases r <;> exact Prog.done_eq_some.mp (by decide +kernel)

/-! ### Cut off -/

section Gone

variable {I : ShmDir → Prop} {d : ShmDir}

end Gone

/-! ### No control block -/

end Publish

end Vamos
