import Mathlib.Tactic
import VamosBuffers.Schemes.Prog

/-! Two programs that cannot be told apart. Over two memories laid out differently, related by `R`,
    the programs return the same value from related memories and leave related memories behind. The
    rules follow the two programs side by side; an access that only one of them makes is skipped when
    the other memory does not show it. -/

namespace Schemes

variable {σ τ Λ Λ' α β : Type} {R : σ → τ → Prop}

/-- From related memories both programs return the same and leave related memories. -/
def Agree (R : σ → τ → Prop) (p : Prog σ Λ α) (p' : Prog τ Λ' α) : Prop :=
  ∀ s t, R s t → (p.run s).1 = (p'.run t).1 ∧ R (p.run s).2 (p'.run t).2

namespace Agree

theorem bind {p : Prog σ Λ α} {p' : Prog τ Λ' α} {g : α → Prog σ Λ β} {g' : α → Prog τ Λ' β}
    (h : Agree R p p') (hg : ∀ a, Agree R (g a) (g' a)) : Agree R (p >>= g) (p' >>= g') := by
  intro s t hs
  obtain ⟨h1, h2⟩ := h s t hs
  rw [Prog.run_bind, Prog.run_bind, h1]
  exact hg _ _ _ h2

theorem ret (a : α) : Agree R (.ret a : Prog σ Λ α) (.ret a : Prog τ Λ' α) :=
  fun _ _ hs => ⟨rfl, hs⟩

theorem ofChk (x : Chk α) : Agree R (Prog.ofChk x : Prog σ Λ α) (Prog.ofChk x : Prog τ Λ' α) := by
  intro s t hs
  simpa using hs

theorem ite {P : Prop} [Decidable P] {p q : Prog σ Λ α} {p' q' : Prog τ Λ' α}
    (hp : Agree R p p') (hq : Agree R q q') :
    Agree R (if P then p else q) (if P then p' else q') := by
  split
  · exact hp
  · exact hq

/-- One access on either side. -/
theorem access {l : Λ} {l' : Λ'} {get : σ → α} {get' : τ → α} {f : σ → σ} {f' : τ → τ}
    (h : ∀ s t, R s t → get s = get' t ∧ R (f s) (f' t)) :
    Agree R (Prog.access l get f) (Prog.access l' get' f') := h

/-- An access that only the first program makes. -/
theorem skip {γ : Type} {l : Λ} {get : σ → γ} {f : σ → σ} {g : γ → Prog σ Λ α} {p' : Prog τ Λ' α}
    (hR : ∀ s t, R s t → R (f s) t) (h : ∀ a, Agree R (g a) p') :
    Agree R (Prog.access l get f >>= g) p' := by
  intro s t hs
  rw [Prog.run_bind, Prog.run_access]
  exact h _ _ _ (hR s t hs)

/-- A check that only the first program makes. -/
theorem skip_chk {γ : Type} {x : Chk γ} {g : γ → Prog σ Λ α} {p' : Prog τ Λ' α}
    (h : Agree R (g x.val) p') : Agree R (Prog.ofChk x >>= g) p' := by
  intro s t hs
  rw [Prog.run_bind, Prog.run_ofChk]
  exact h _ _ hs

end Agree

end Schemes
