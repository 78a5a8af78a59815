import Mathlib.Tactic
import VamosBuffers.Schemes.Prog

/-! Rely and guarantee for shared-memory programs. A thread's role says which changes it expects
    from the others (`rely`, closed under repetition) and which changes it makes itself, access by
    access (`guar`). `Safe` is the obligation of one thread alone: whatever the others do within
    `rely` between two of its accesses, its next access keeps the invariant and stays within `guar`,
    no check fails, and at the end the postcondition holds — and keeps holding. Where only some runs
    are considered, `pre` says in which states they make an access; where failed checks are passed
    over, as in a build without assertions, the role says `lenient`.

    `reach_safe` puts the threads together: if every access one thread guarantees is one the others
    rely on, then in every configuration that any interleaving reaches the invariant holds and every
    thread is still safe. -/

namespace Schemes

/-- What a thread expects of the others, and what it promises them. -/
structure Role (σ Λ : Type) where
  rely : σ → σ → Prop
  guar : Λ → σ → σ → Prop
  refl : ∀ s, rely s s
  trans : ∀ {s s' s'' : σ}, rely s s' → rely s' s'' → rely s s''
  pre : Λ → σ → Prop := fun _ _ => True
  lenient : Prop := False

/-- What a thread knows at its locations survives what the others do. -/
def Stable {σ ι : Type} (rely : σ → σ → Prop) (K : ι → σ → Prop) : Prop :=
  ∀ i s s', K i s → rely s s' → K i s'

section Safe

variable {σ τ Λ Λ' α β : Type} (I : σ → Prop) (ρ : Role σ Λ)

/-- The thread's obligation for running `p` from `s` to the postcondition `Q`. -/
def Safe (Q : α → σ → Prop) : Prog σ Λ α → σ → Prop
  | .ret a, s => ∀ s', ρ.rely s s' → I s' → Q a s'
  | .fault p, s => ρ.lenient ∧ Safe Q p s
  | .act l f k, s => ∀ s', ρ.rely s s' → I s' → ρ.pre l s' →
      ρ.guar l s' (f s') ∧ I (f s') ∧ Safe Q (k s') (f s')

variable {I ρ} {Q Q' : α → σ → Prop}

/-- Safety survives what the other threads do. -/
theorem Safe.stable : ∀ {p : Prog σ Λ α} {s s' : σ}, Safe I ρ Q p s → ρ.rely s s' →
    Safe I ρ Q p s'
  | .ret _, _, _, h, hr => fun s'' h' hI => h s'' (ρ.trans hr h') hI
  | .fault _, _, _, h, hr => ⟨h.1, h.2.stable hr⟩
  | .act _ _ _, _, _, h, hr => fun s'' h' hI => h s'' (ρ.trans hr h') hI

theorem Safe.mono : ∀ {p : Prog σ Λ α} {s : σ}, Safe I ρ Q p s →
    (∀ a s, I s → Q a s → Q' a s) → Safe I ρ Q' p s
  | .ret _, _, h, hQ => fun s' hr hI => hQ _ s' hI (h s' hr hI)
  | .fault _, _, h, hQ => ⟨h.1, h.2.mono hQ⟩
  | .act _ _ _, _, h, hQ => fun s' hr hI hp =>
      let ⟨hg, hI', hk⟩ := h s' hr hI hp
      ⟨hg, hI', hk.mono hQ⟩

/-- A thread may expect less and promise more than its role asks. -/
theorem Safe.weaken {π : Role σ Λ} : ∀ {p : Prog σ Λ α} {s : σ}, Safe I ρ Q p s →
    (∀ s s', π.rely s s' → ρ.rely s s') → (∀ l s s', ρ.guar l s s' → π.guar l s s') →
    (∀ l s, π.pre l s → ρ.pre l s) → (ρ.lenient → π.lenient) → Safe I π Q p s
  | .ret _, _, h, hr, _, _, _ => fun s' hs hI => h s' (hr _ _ hs) hI
  | .fault _, _, h, hr, hg, hp, hn => ⟨hn h.1, h.2.weaken hr hg hp hn⟩
  | .act _ _ _, _, h, hr, hg, hp, hn => fun s' hs hI hl =>
      let ⟨hg', hI', hk⟩ := h s' (hr _ _ hs) hI (hp _ _ hl)
      ⟨hg _ _ _ hg', hI', hk.weaken hr hg hp hn⟩

/-- Sequencing: what the first program leaves is where the second one starts. -/
theorem Safe.bind {Q : β → σ → Prop} {g : α → Prog σ Λ β} :
    ∀ {p : Prog σ Λ α} {s : σ}, I s → Safe I ρ (fun a s => Safe I ρ Q (g a) s) p s →
      Safe I ρ Q (p >>= g) s
  | .ret _, s, hI, h => h s (ρ.refl s) hI
  | .fault _, _, hI, h => ⟨h.1, Safe.bind hI h.2⟩
  | .act _ _ _, _, _, h => fun s' hr hI hp =>
      let ⟨hg, hI', hk⟩ := h s' hr hI hp
      ⟨hg, hI', Safe.bind hI' hk⟩

/-- A fact that nobody's accesses change is still true at the end. -/
theorem Safe.frame {F : σ → Prop} (hR : ∀ s s', F s → ρ.rely s s' → F s')
    (hG : ∀ l s s', F s → ρ.guar l s s' → F s') : ∀ {p : Prog σ Λ α} {s : σ}, F s →
      Safe I ρ Q p s → Safe I ρ (fun a s => Q a s ∧ F s) p s
  | .ret _, _, hf, h => fun s' hr hI => ⟨h s' hr hI, hR _ _ hf hr⟩
  | .fault p, _, hf, h => ⟨h.1, Safe.frame (p := p) hR hG hf h.2⟩
  | .act _ _ _, _, hf, h => fun s' hr hI hp =>
      let ⟨hg, hI', hk⟩ := h s' hr hI hp
      ⟨hg, hI', hk.frame hR hG (hG _ _ _ (hR _ _ hf hr) hg)⟩

/-- A process may be killed at any time. -/
theorem Safe.upTo : ∀ {p : Prog σ Λ α} {s : σ} (n : ℕ), Safe I ρ Q p s →
    Safe I ρ (fun r s => ∀ a, r = some a → Q a s) (p.upTo n) s
  | .ret _, _, _, h => fun s' hr hI _ ha => Option.some.inj ha ▸ h s' hr hI
  | .fault p, _, n, h => ⟨h.1, Safe.upTo (p := p) n h.2⟩
  | .act _ _ _, _, 0, _ => fun _ _ _ => nofun
  | .act _ _ _, _, n + 1, h => fun s' hr hI hp =>
      let ⟨hg, hI', hk⟩ := h s' hr hI hp
      ⟨hg, hI', hk.upTo n⟩

/-- A fact that the thread's own accesses keep joins the invariant. -/
theorem Safe.with_inv {J : σ → Prop} (hJ : ∀ l s s', I s → J s → ρ.guar l s s' → J s') :
    ∀ {p : Prog σ Λ α} {s : σ}, Safe I ρ Q p s → Safe (fun s => I s ∧ J s) ρ Q p s
  | .ret _, _, h => fun s' hr hI => h s' hr hI.1
  | .fault _, _, h => ⟨h.1, h.2.with_inv hJ⟩
  | .act _ _ _, _, h => fun s' hr hI hp =>
      let ⟨hg, hI', hk⟩ := h s' hr hI.1 hp
      ⟨hg, ⟨hI', hJ _ _ _ hI.1 hI.2 hg⟩, hk.with_inv hJ⟩

/-- One access, last in its program. -/
theorem Safe.access {l : Λ} {get : σ → α} {f : σ → σ} {s : σ}
    (h : ∀ s', ρ.rely s s' → I s' → ρ.guar l s' (f s') ∧ I (f s') ∧
      ∀ s'', ρ.rely (f s') s'' → I s'' → Q (get s') s'') :
    Safe I ρ Q (Prog.access l get f) s := fun s' hr hI _ => h s' hr hI

/-- One access, and what follows it. -/
theorem Safe.access_bind {Q : β → σ → Prop} {l : Λ} {get : σ → α} {f : σ → σ}
    {g : α → Prog σ Λ β} {s : σ}
    (h : ∀ s', ρ.rely s s' → I s' → ρ.guar l s' (f s') ∧ I (f s') ∧
      Safe I ρ Q (g (get s')) (f s')) :
    Safe I ρ Q (Prog.access l get f >>= g) s := fun s' hr hI _ => h s' hr hI

/-- A load changes nothing, so only what is read matters. -/
theorem Safe.load_bind {ℓ : Type} {ρ : Role σ (Acc ℓ)} {Q : β → σ → Prop} {x : ℓ} {get : σ → α}
    {g : α → Prog σ (Acc ℓ) β} {s : σ} (hg : ∀ s, ρ.guar (.load x) s s)
    (h : ∀ s', ρ.rely s s' → I s' → Safe I ρ Q (g (get s')) s') :
    Safe I ρ Q (Prog.load x get >>= g) s :=
  fun s' hr hI _ => ⟨hg s', hI, h s' hr hI⟩

/-- Where failed checks are passed over, a computation goes on with its value. -/
theorem Safe.ofChk_bind {Q : β → σ → Prop} {g : α → Prog σ Λ β} {c : Chk α} {s : σ}
    (hn : ρ.lenient) (h : Safe I ρ Q (g c.val) s) : Safe I ρ Q (Prog.ofChk c >>= g) s := by
  obtain ⟨a, ok⟩ := c
  cases ok with
  | true => exact h
  | false => exact ⟨hn, h⟩

/-- A program on a part of the memory is safe on the whole: its part's invariant and rely follow
    from the whole's, and what it does to its part keeps the whole's invariant, its guarantee and
    the frame `F` — a fact about the rest that the other threads keep. -/
theorem Safe.zoom {L : Lens σ τ} {φ : Λ' → Λ} {J : τ → Prop} {ρ' : Role τ Λ'}
    {Q : α → τ → Prop} (F : σ → Prop)
    (hI : ∀ s, I s → J (L.get s))
    (hR : ∀ s s', F s → ρ.rely s s' → I s' → ρ'.rely (L.get s) (L.get s'))
    (hP : ∀ l s, ρ.pre (φ l) s → ρ'.pre l (L.get s))
    (hF : ∀ s s', F s → ρ.rely s s' → I s' → F s')
    (hG : ∀ l s t, ρ.pre (φ l) s → F s → I s → J t → ρ'.guar l (L.get s) t →
      ρ.guar (φ l) s (L.set t s) ∧ I (L.set t s) ∧ F (L.set t s))
    (hN : ρ'.lenient → ρ.lenient) :
    ∀ {p : Prog τ Λ' α} {s : σ}, F s → Safe J ρ' Q p (L.get s) →
      Safe I ρ (fun a s => Q a (L.get s) ∧ F s) (p.zoom L φ) s
  | .ret _, _, hf, h => fun s' hr hi => ⟨h _ (hR _ _ hf hr hi) (hI _ hi), hF _ _ hf hr hi⟩
  | .fault _, _, hf, h => ⟨hN h.1, Safe.zoom F hI hR hP hF hG hN hf h.2⟩
  | .act l f k, s, hf, h => fun s' hr hi hp => by
      obtain ⟨hg, hj, hk⟩ := h _ (hR _ _ hf hr hi) (hI _ hi) (hP _ _ hp)
      obtain ⟨hg', hi', hf'⟩ := hG l s' _ hp (hF _ _ hf hr hi) hi hj hg
      refine ⟨hg', hi', Safe.zoom F hI hR hP hF hG hN hf' ?_⟩
      rw [L.get_set]; exact hk

/-! ### What safety says of the present -/

theorem Safe.at_ret {p : Prog σ Λ α} {s : σ} {a : α} (h : Safe I ρ Q p s) (hI : I s)
    (hp : p = .ret a) : Q a s := by
  subst hp; exact h s (ρ.refl s) hI

theorem Safe.at_act {p : Prog σ Λ α} {s : σ} {l : Λ} (h : Safe I ρ Q p s) (hI : I s)
    (hp : p.next = some l) (hl : ρ.pre l s) : ∃ s', ρ.guar l s s' := by
  cases p with
  | ret a => cases hp
  | fault p => cases hp
  | act l' f k =>
    obtain rfl : l' = l := by simpa [Prog.next] using hp
    exact ⟨_, (h s (ρ.refl s) hI hl).1⟩

/-- A safe program run alone: the invariant and the postcondition hold at the end, and so does
    what every access guarantees and repetition keeps. -/
theorem Safe.run {R : σ → σ → Prop} (hpre : ∀ l s, ρ.pre l s) (hrefl : ∀ s, R s s)
    (htrans : ∀ {s s' s''}, R s s' → R s' s'' → R s s'') (hR : ∀ l s s', ρ.guar l s s' → R s s') :
    ∀ {p : Prog σ Λ α} {s : σ}, I s → Safe I ρ Q p s →
      I (p.run s).2 ∧ Q (p.run s).1 (p.run s).2 ∧ R s (p.run s).2
  | .ret _, s, hI, h => ⟨hI, h s (ρ.refl s) hI, hrefl s⟩
  | .fault p, s, hI, h => Safe.run (p := p) (s := s) hpre hrefl htrans hR hI h.2
  | .act l _ _, s, hI, h => by
    obtain ⟨hg, hI', hk⟩ := h s (ρ.refl s) hI (hpre l s)
    obtain ⟨hi, hq, hr⟩ := Safe.run hpre hrefl htrans hR hI' hk
    exact ⟨hi, hq, htrans (hR l _ _ hg) hr⟩

/-- Run alone, it passes all its checks. -/
theorem Safe.runOk (hpre : ∀ l s, ρ.pre l s) (hn : ¬ ρ.lenient) :
    ∀ {p : Prog σ Λ α} {s : σ}, I s → Safe I ρ Q p s → p.runOk s = true
  | .ret _, _, _, _ => rfl
  | .fault _, _, _, h => absurd h.1 hn
  | .act l f k, s, hI, h => by
    obtain ⟨-, hI', hk⟩ := h s (ρ.refl s) hI (hpre l s)
    exact Safe.runOk (p := k s) (s := f s) hpre hn hI' hk

theorem Safe.not_faulty {p : Prog σ Λ α} {s : σ} (h : Safe I ρ Q p s) (hn : ¬ ρ.lenient) :
    p.faulty = false := by
  cases p with
  | fault p => exact absurd h.1 hn
  | ret a => rfl
  | act l f k => rfl

end Safe

/-! ### Threads together -/

section System

variable {σ Λ T : Type} [DecidableEq T] {ι κ : T → Type} {C : (t : T) → Client σ Λ (ι t) (κ t)}
  {I : σ → Prop} {ρ : T → Role σ Λ} {Q : (t : T) → ι t → σ → Prop}

/-- One step of one thread keeps the invariant and every thread's safety. -/
theorem step_safe
    (hpre : ∀ t l s, (C t).allowed l s → (ρ t).pre l s)
    (hcompat : ∀ t u, t ≠ u → ∀ l s s', I s → I s' → (ρ t).guar l s s' → (ρ u).rely s s')
    (hbody : ∀ t i x s, I s → Q t i s → (C t).enabled i x s →
      Safe I (ρ t) (Q t) ((C t).body i x) s)
    {t : T} {c c' : Cfg σ Λ ι} (hI : I c.mem)
    (hs : ∀ u, Safe I (ρ u) (Q u) (c.prog u) c.mem) (h : Step C t c c') :
    I c'.mem ∧ ∀ u, Safe I (ρ u) (Q u) (c'.prog u) c'.mem := by
  have ht := hs t
  -- the thread that steps is safe with its new program; the others only see a guaranteed change
  have upd : ∀ {m : σ} {p : Prog σ Λ (ι t)}, Safe I (ρ t) (Q t) p m →
      (∀ u, u ≠ t → Safe I (ρ u) (Q u) (c.prog u) m) →
      ∀ u, Safe I (ρ u) (Q u) (Function.update c.prog t p u) m := by
    intro m p hp ho u
    by_cases hu : u = t
    · subst hu; rw [Function.update_self]; exact hp
    · rw [Function.update_of_ne hu]; exact ho u hu
  cases h with
  | call x hp he =>
    rw [hp] at ht
    exact ⟨hI, upd (hbody t _ x _ hI (ht _ ((ρ t).refl _) hI) he) fun u _ => hs u⟩
  | act hp ha =>
    rw [hp] at ht
    obtain ⟨hg, hI', hk⟩ := ht _ ((ρ t).refl _) hI (hpre t _ _ ha)
    exact ⟨hI', upd hk fun u hu => (hs u).stable (hcompat t u (Ne.symm hu) _ _ _ hI hI' hg)⟩
  | skip hp => rw [hp] at ht; exact ⟨hI, upd ht.2 fun u _ => hs u⟩

/-- Every interleaving keeps the invariant and every thread's safety. -/
theorem reach_safe
    (hpre : ∀ t l s, (C t).allowed l s → (ρ t).pre l s)
    (hcompat : ∀ t u, t ≠ u → ∀ l s s', I s → I s' → (ρ t).guar l s s' → (ρ u).rely s s')
    (hbody : ∀ t i x s, I s → Q t i s → (C t).enabled i x s →
      Safe I (ρ t) (Q t) ((C t).body i x) s)
    {c₀ c : Cfg σ Λ ι} (hI : I c₀.mem) (h₀ : ∀ t, Safe I (ρ t) (Q t) (c₀.prog t) c₀.mem)
    (h : Reach C c₀ c) : I c.mem ∧ ∀ t, Safe I (ρ t) (Q t) (c.prog t) c.mem := by
  induction h with
  | start => exact ⟨hI, h₀⟩
  | step t _ hst ih => exact step_safe hpre hcompat hbody ih.1 ih.2 hst

/-- What every access guarantees and repetition keeps holds between any two configurations of a
    run. -/
theorem reach_related
    (hpre : ∀ t l s, (C t).allowed l s → (ρ t).pre l s)
    (hcompat : ∀ t u, t ≠ u → ∀ l s s', I s → I s' → (ρ t).guar l s s' → (ρ u).rely s s')
    (hbody : ∀ t i x s, I s → Q t i s → (C t).enabled i x s →
      Safe I (ρ t) (Q t) ((C t).body i x) s)
    {R : σ → σ → Prop} (hrefl : ∀ s, R s s) (htrans : ∀ {s s' s''}, R s s' → R s' s'' → R s s'')
    (hR : ∀ t l s s', (ρ t).guar l s s' → R s s')
    {c₀ c : Cfg σ Λ ι} (hI : I c₀.mem) (h₀ : ∀ t, Safe I (ρ t) (Q t) (c₀.prog t) c₀.mem)
    (h : Reach C c₀ c) : R c₀.mem c.mem := by
  induction h with
  | start => exact hrefl _
  | step t hr hst ih =>
    obtain ⟨hi, hs⟩ := reach_safe hpre hcompat hbody hI h₀ hr
    refine htrans ih ?_
    cases hst with
    | call x hp he => exact hrefl _
    | skip hp => exact hrefl _
    | act hp ha =>
      have ht := hs t
      rw [hp] at ht
      exact hR t _ _ _ (ht _ ((ρ t).refl _) hi (hpre t _ _ ha)).1

end System

end Schemes
