import Mathlib.Tactic
import VamosBuffers.Schemes.RelyGuarantee

/-! Counting calls. A run of all threads, in any order, in which one thread has begun `n` calls at
    locations of a certain kind. A budget bounds them: what the thread knows at its locations names a
    number, and each of these calls leaves a smaller one, whatever the others do meanwhile.

        K b i ──call at i, of the kind──▶ K (b - 1) i'        other calls, other threads: K b -/

namespace Schemes

section Turns

variable {σ Λ T : Type} [DecidableEq T] {ι κ : T → Type}

/-- In a run from `c₀`, thread `t` has begun so many calls at locations where `P` holds. -/
inductive Turns (C : (t : T) → Client σ Λ (ι t) (κ t)) (t : T) (P : ι t → Prop) (c₀ : Cfg σ Λ ι) :
    ℕ → Cfg σ Λ ι → Prop
  | start : Turns C t P c₀ 0 c₀
  | call {n : ℕ} {c : Cfg σ Λ ι} {i : ι t} (x : κ t) (h : Turns C t P c₀ n c)
      (hp : c.prog t = .ret i) (he : (C t).enabled i x c.mem) (hP : P i) :
      Turns C t P c₀ (n + 1) (c.begin t ((C t).body i x))
  | step {n : ℕ} {c c' : Cfg σ Λ ι} (u : T) (h : Turns C t P c₀ n c) (hs : Step C u c c')
      (hn : u = t → ∀ i, c.prog t = .ret i → ¬ P i) : Turns C t P c₀ n c'

variable {C : (t : T) → Client σ Λ (ι t) (κ t)} {t : T} {P : ι t → Prop} {c₀ c : Cfg σ Λ ι} {n : ℕ}

theorem Turns.reach (h : Turns C t P c₀ n c) : Reach C c₀ c := by
  induction h with
  | start => exact .start
  | call x _ hp he _ ih => exact .step t ih (.call x hp he)
  | step u _ hs _ ih => exact .step u ih hs

/-- A whole call of the kind, while the others wait. -/
theorem Turns.whole (h : Turns C t P c₀ n c) {i : ι t} (x : κ t) (hp : c.prog t = .ret i)
    (he : (C t).enabled i x c.mem) (hP : P i) (ha : ∀ l m, (C t).allowed l m) :
    Turns C t P c₀ (n + 1) ((c.begin t ((C t).body i x)).finish t) := by
  -- by induction on what the thread still has to run
  suffices hr : ∀ (p : Prog σ Λ (ι t)) (m : σ),
      Turns C t P c₀ (n + 1) ⟨m, Function.update c.prog t p⟩ →
      Turns C t P c₀ (n + 1) ⟨(p.run m).2, Function.update c.prog t (.ret (p.run m).1)⟩ by
    have := hr _ _ (h.call x hp he hP)
    simpa [Cfg.begin, Cfg.finish] using this
  intro p
  induction p with
  | ret a => exact fun m hm => hm
  | fault p ih =>
    intro m hm
    refine ih m ?_
    simpa using hm.step t (.skip (p := p) (by simp)) (by simp)
  | act l f k ih =>
    intro m hm
    refine ih m (f m) ?_
    simpa using hm.step t (.act (l := l) (f := f) (k := k) (by simp) (ha _ _)) (by simp)

variable {I : σ → Prop} {ρ : T → Role σ Λ} {Q : (t : T) → ι t → σ → Prop} {K : ℕ → ι t → σ → Prop}

/-- The budget of the thread after such a run. -/
theorem turns_safe
    (hpre : ∀ t l s, (C t).allowed l s → (ρ t).pre l s)
    (hcompat : ∀ t u, t ≠ u → ∀ l s s', I s → I s' → (ρ t).guar l s s' → (ρ u).rely s s')
    (hbody : ∀ t i x s, I s → Q t i s → (C t).enabled i x s →
      Safe I (ρ t) (Q t) ((C t).body i x) s)
    (hspend : ∀ b i x s, I s → K b i s → (C t).enabled i x s → P i →
      ∃ b', b = b' + 1 ∧ Safe I (ρ t) (K b') ((C t).body i x) s)
    (hkeep : ∀ b i x s, I s → K b i s → (C t).enabled i x s → ¬ P i →
      Safe I (ρ t) (K b) ((C t).body i x) s)
    {N : ℕ} (hI : I c₀.mem) (h₀ : ∀ u, Safe I (ρ u) (Q u) (c₀.prog u) c₀.mem)
    (hK : Safe I (ρ t) (K N) (c₀.prog t) c₀.mem) (h : Turns C t P c₀ n c) :
    ∃ b, n + b = N ∧ Safe I (ρ t) (K b) (c.prog t) c.mem := by
  induction h with
  | start => exact ⟨N, Nat.zero_add N, hK⟩
  | @call n c i x h hp he hP ih =>
    obtain ⟨b, hb, hs⟩ := ih
    obtain ⟨hi, -⟩ := reach_safe hpre hcompat hbody hI h₀ h.reach
    obtain ⟨b', rfl, hs'⟩ := hspend b i x _ hi (hs.at_ret hi hp) he hP
    refine ⟨b', by omega, ?_⟩
    simpa [Cfg.begin] using hs'
  | @step n c c' u h hst hn ih =>
    obtain ⟨b, hb, hs⟩ := ih
    obtain ⟨hi, hall⟩ := reach_safe hpre hcompat hbody hI h₀ h.reach
    refine ⟨b, hb, ?_⟩
    by_cases hu : u = t
    · subst hu
      cases hst with
      | @call i x hp he =>
        simpa using hkeep b i x _ hi (hs.at_ret hi hp) he (hn rfl i hp)
      | act hp ha =>
        rw [hp] at hs
        simpa using (hs _ ((ρ u).refl _) hi (hpre u _ _ ha)).2.2
      | skip hp =>
        rw [hp] at hs
        simpa using hs.2
    · have ho : ∀ {p : Prog σ Λ (ι u)}, Function.update c.prog u p t = c.prog t :=
        Function.update_of_ne (Ne.symm hu) _ _
      have hsu := hall u
      cases hst with
      | call x hp he => simpa only [ho] using hs
      | act hp ha =>
        rw [hp] at hsu
        obtain ⟨hg, hi', -⟩ := hsu _ ((ρ u).refl _) hi (hpre u _ _ ha)
        simpa only [ho] using hs.stable (hcompat u t hu _ _ _ hi hi' hg)
      | skip hp => simpa only [ho] using hs

end Turns

end Schemes
