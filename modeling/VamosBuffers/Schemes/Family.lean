import Mathlib.Tactic
import VamosBuffers.Schemes.RelyGuarantee

/-! Families of components, each with its own memory. A thread of one component runs there as it does
    alone; a thread that is shared goes from one component to the next.

        memory        J → σ
        member j p    the program p on component j
        labels        (j, l)

    What is known of one component stays known while a shared thread is at another one, if its
    threads keep it. Before that, two proofs of one program: what both of them rely on, what each of
    them shows. -/

namespace Schemes

/-! ### Two proofs of one program -/

/-- Both roles at once. -/
def Role.and {σ Λ : Type} (ρ π : Role σ Λ) : Role σ Λ where
  rely s s' := ρ.rely s s' ∧ π.rely s s'
  guar l s s' := ρ.guar l s s' ∧ π.guar l s s'
  refl s := ⟨ρ.refl s, π.refl s⟩
  trans h h' := ⟨ρ.trans h.1 h'.1, π.trans h.2 h'.2⟩
  pre l s := ρ.pre l s ∧ π.pre l s
  lenient := ρ.lenient ∧ π.lenient

theorem Safe.and {σ Λ α : Type} {I J : σ → Prop} {ρ π : Role σ Λ} {Q R : α → σ → Prop} :
    ∀ {p : Prog σ Λ α} {s : σ}, Safe I ρ Q p s → Safe J π R p s →
      Safe (fun s => I s ∧ J s) (ρ.and π) (fun a s => Q a s ∧ R a s) p s
  | .ret _, _, h, h' => fun s hr hi => ⟨h s hr.1 hi.1, h' s hr.2 hi.2⟩
  | .fault p, _, h, h' => ⟨⟨h.1, h'.1⟩, Safe.and (p := p) h.2 h'.2⟩
  | .act _ _ k, _, h, h' => fun s hr hi hp =>
      let ⟨hg, hI, hk⟩ := h s hr.1 hi.1 hp.1
      let ⟨hg', hJ, hk'⟩ := h' s hr.2 hi.2 hp.2
      ⟨⟨hg, hg'⟩, ⟨hI, hJ⟩, Safe.and (p := k s) hk hk'⟩

/-- Two things that hold at the end. -/
theorem Safe.both {σ Λ α : Type} {I : σ → Prop} {ρ : Role σ Λ} {Q R : α → σ → Prop} :
    ∀ {p : Prog σ Λ α} {s : σ}, Safe I ρ Q p s → Safe I ρ R p s →
      Safe I ρ (fun a s => Q a s ∧ R a s) p s
  | .ret _, _, h, h' => fun s hr hi => ⟨h s hr hi, h' s hr hi⟩
  | .fault p, _, h, h' => ⟨h.1, Safe.both (p := p) h.2 h'.2⟩
  | .act _ _ k, _, h, h' => fun s hr hi hp =>
      let ⟨hg, hI, hk⟩ := h s hr hi hp
      ⟨hg, hI, Safe.both (p := k s) hk (h' s hr hi hp).2.2⟩

/-! ### Members -/

section Family

variable {J σ Λ α ι κ : Type} [DecidableEq J]

/-- The memory of component `j`. -/
def atLens (j : J) : Lens (J → σ) σ where
  get m := m j
  set x m := Function.update m j x
  get_set _ _ := Function.update_self _ _ _
  set_get _ := Function.update_eq_self _ _

/-- The program on component `j`. -/
def Prog.member (j : J) (p : Prog σ Λ α) : Prog (J → σ) (J × Λ) α := p.zoom (atLens j) (Prod.mk j)

/-- A thread of component `j`. -/
def Client.member (j : J) (C : Client σ Λ ι κ) : Client (J → σ) (J × Λ) ι κ where
  enabled i x m := C.enabled i x (m j)
  body i x := (C.body i x).member j
  allowed l m := C.allowed l.2 (m j)

/-- The component of the label has changed, and no other. -/
def Only (j : J) (m m' : J → σ) : Prop := ∀ k, k ≠ j → m' k = m k

theorem only_update (j : J) (m : J → σ) (x : σ) : Only j m (Function.update m j x) :=
  fun _ hk => Function.update_of_ne hk _ _

/-- The role of a thread of component `j`. -/
def Role.member (j : J) (ρ : Role σ Λ) : Role (J → σ) (J × Λ) where
  rely m m' := ρ.rely (m j) (m' j)
  guar l m m' := ρ.guar l.2 (m j) (m' j) ∧ l.1 = j ∧ Only j m m'
  refl m := ρ.refl (m j)
  trans := ρ.trans
  pre l m := ρ.pre l.2 (m j)
  lenient := ρ.lenient

/-- The role of a thread that is shared. -/
def Role.shared (ρ : Role σ Λ) : Role (J → σ) (J × Λ) where
  rely m m' := ∀ j, ρ.rely (m j) (m' j)
  guar l m m' := ρ.guar l.2 (m l.1) (m' l.1) ∧ Only l.1 m m'
  refl m j := ρ.refl (m j)
  trans h h' j := ρ.trans (h j) (h' j)
  pre l m := ρ.pre l.2 (m l.1)
  lenient := ρ.lenient

variable {I : J → σ → Prop} {ρ : Role σ Λ} {Q : α → σ → Prop}

/-- Every component keeps its invariant when one changes and keeps its own. -/
theorem inv_update {j : J} {m : J → σ} {x : σ} (hm : ∀ k, I k (m k)) (hx : I j x) (k : J) :
    I k (Function.update m j x k) := by
  by_cases hk : k = j
  · subst hk; rw [Function.update_self]; exact hx
  · rw [Function.update_of_ne hk]; exact hm k

/-- What is safe in a component alone is safe in the family. -/
theorem Safe.member {j : J} {p : Prog σ Λ α} {m : J → σ} (h : Safe (I j) ρ Q p (m j)) :
    Safe (fun m => ∀ j, I j (m j)) (ρ.member j) (fun a m => Q a (m j)) (p.member j) m := by
  have hz := Safe.zoom (I := fun m : J → σ => ∀ j, I j (m j)) (ρ := ρ.member j) (L := atLens j)
    (φ := Prod.mk j) (p := p) (s := m) (fun _ => True) (fun m' hi => hi j)
    (fun _ _ _ hr _ => hr) (fun _ _ hp => hp) (fun _ _ _ _ _ => trivial) ?_ id trivial h
  · exact hz.mono fun _ _ _ hq => hq.1
  · intro l m' x _ _ hi hx hg
    refine ⟨⟨?_, rfl, only_update j m' x⟩, inv_update hi hx, trivial⟩
    show ρ.guar l (m' j) (Function.update m' j x j)
    rw [Function.update_self]
    exact hg

/-- A shared thread at component `j`: what it knows of the others stays known. -/
theorem Safe.shared {j : J} {G : J → σ → Prop}
    (hG : ∀ k s s', G k s → ρ.rely s s' → I k s' → G k s') {p : Prog σ Λ α} {m : J → σ}
    (h : Safe (I j) ρ Q p (m j)) (hg : ∀ k, k ≠ j → G k (m k)) :
    Safe (fun m => ∀ j, I j (m j)) ρ.shared (fun a m => Q a (m j) ∧ ∀ k, k ≠ j → G k (m k))
      (p.member j) m := by
  refine Safe.zoom (I := fun m : J → σ => ∀ j, I j (m j)) (ρ := ρ.shared) (L := atLens j)
    (φ := Prod.mk j) (p := p) (s := m) (fun m => ∀ k, k ≠ j → G k (m k)) (fun m' hi => hi j)
    (fun _ _ _ hr _ => hr j) (fun _ _ hp => hp)
    (fun m' m'' hf hr hi k hk => hG k _ _ (hf k hk) (hr k) (hi k)) ?_ id hg h
  intro l m' x _ hf hi hx hgu
  refine ⟨⟨?_, only_update j m' x⟩, inv_update hi hx, fun k hk => ?_⟩
  · show ρ.guar l (m' j) (Function.update m' j x j)
    rw [Function.update_self]
    exact hgu
  · show G k (Function.update m' j x k)
    rw [Function.update_of_ne hk]
    exact hf k hk

/-- One component changes as its thread promises: every other one sees nothing. -/
theorem Only.rely {j k : J} {m m' : J → σ} {π : Role σ Λ} (h : Only j m m')
    (hr : j = k → π.rely (m k) (m' k)) : π.rely (m k) (m' k) := by
  by_cases hk : k = j
  · exact hr hk.symm
  · rw [h k hk]; exact π.refl _

end Family

end Schemes
