import Mathlib.Tactic
import VamosBuffers.Schemes.RelyGuarantee

/-! What a program's accesses do to the memory, and memories that follow another one. Where every
    access of a program is of one kind, facts that this kind of access keeps join the program's
    invariant, whatever else is known of it:

        p.Each P     every access of p has a label and an effect of kind P

    A program over `σ` also runs over `σ × τ`, where each of its accesses tells the other memory what
    it did; what is known of it stays true, and the other memory's invariant is kept if each access
    that is guaranteed keeps it. -/

namespace Schemes

namespace Prog

variable {σ τ Λ Λ' α β : Type} {P : Λ → (σ → σ) → Prop}

/-- Every access is of the kind `P`. -/
def Each (P : Λ → (σ → σ) → Prop) : Prog σ Λ α → Prop
  | ret _ => True
  | fault p => p.Each P
  | act l f k => P l f ∧ ∀ s, (k s).Each P

theorem Each.bind {g : α → Prog σ Λ β} : ∀ {p : Prog σ Λ α}, p.Each P → (∀ a, (g a).Each P) →
    (p >>= g).Each P
  | ret a, _, hg => hg a
  | fault p, hp, hg => Each.bind (p := p) hp hg
  | act _ _ k, hp, hg => ⟨hp.1, fun s => Each.bind (p := k s) (hp.2 s) hg⟩

theorem each_ret (a : α) : (ret a : Prog σ Λ α).Each P := trivial

theorem each_access {l : Λ} {get : σ → α} {f : σ → σ} (h : P l f) : (access l get f).Each P :=
  ⟨h, fun _ => trivial⟩

theorem each_ofChk : ∀ c : Chk α, (ofChk c : Prog σ Λ α).Each P
  | ⟨_, true⟩ => trivial
  | ⟨_, false⟩ => trivial

theorem each_zoom {L : Lens σ τ} {φ : Λ' → Λ}
    (h : ∀ l (f : τ → τ), P (φ l) fun s => L.set (f (L.get s)) s) :
    ∀ p : Prog τ Λ' α, (p.zoom L φ).Each P
  | ret _ => trivial
  | fault p => each_zoom h p
  | act l f k => ⟨h l f, fun s => each_zoom h (k (L.get s))⟩

/-- The program over a larger memory, whose other part hears of each access. -/
def along (φ : Λ → Λ') (tell : Λ → σ → τ → τ) : Prog σ Λ α → Prog (σ × τ) Λ' α
  | ret a => ret a
  | fault p => fault (p.along φ tell)
  | act l f k => act (φ l) (fun s => (f s.1, tell l (f s.1) s.2)) fun s => (k s.1).along φ tell

end Prog

section Safe

variable {σ τ Λ Λ' α : Type} {I J : σ → Prop} {ρ π : Role σ Λ} {Q : α → σ → Prop}

/-- A fact that accesses of a kind keep joins the invariant of a program with no other accesses; and
    the program promises what these accesses promise. -/
theorem Safe.each {P : Λ → (σ → σ) → Prop} (hR : ∀ s s', π.rely s s' → ρ.rely s s')
    (hP : ∀ l s, π.pre l s → ρ.pre l s) (hN : ρ.lenient → π.lenient)
    (hG : ∀ l f s, P l f → I s → J s → I (f s) → ρ.guar l s (f s) → π.guar l s (f s) ∧ J (f s)) :
    ∀ {p : Prog σ Λ α} {s : σ}, p.Each P → Safe I ρ Q p s → Safe (fun s => I s ∧ J s) π Q p s
  | .ret _, _, _, h => fun s' hr hI => h s' (hR _ _ hr) hI.1
  | .fault p, _, hp, h => ⟨hN h.1, Safe.each (p := p) hR hP hN hG hp h.2⟩
  | .act _ _ k, _, hp, h => fun s' hr hI hl =>
      let ⟨hg, hI', hk⟩ := h s' (hR _ _ hr) hI.1 (hP _ _ hl)
      let ⟨hg', hJ'⟩ := hG _ _ _ hp.1 hI.1 hI.2 hI' hg
      ⟨hg', ⟨hI', hJ'⟩, Safe.each (p := k s') hR hP hN hG (hp.2 s') hk⟩

/-- A fact that the others keep, and accesses of a kind too, is still true at the end. -/
theorem Safe.keeps {P : Λ → (σ → σ) → Prop} {F : σ → Prop} (hR : ∀ s s', F s → ρ.rely s s' → F s')
    (hF : ∀ l f s, P l f → F s → F (f s)) : ∀ {p : Prog σ Λ α} {s : σ}, p.Each P → F s →
      Safe I ρ Q p s → Safe I ρ (fun a s => Q a s ∧ F s) p s
  | .ret _, _, _, hf, h => fun s' hr hI => ⟨h s' hr hI, hR _ _ hf hr⟩
  | .fault p, _, hp, hf, h => ⟨h.1, Safe.keeps (p := p) hR hF hp hf h.2⟩
  | .act _ _ k, _, hp, hf, h => fun s' hr hI hl =>
      let ⟨hg, hI', hk⟩ := h s' hr hI hl
      ⟨hg, hI', Safe.keeps (p := k s') hR hF (hp.2 s') (hF _ _ _ hp.1 (hR _ _ hf hr)) hk⟩

/-- What is known of a program stays true over the larger memory, and so does a fact `F` that the
    others keep and the accesses too. -/
theorem Safe.along {φ : Λ → Λ'} {tell : Λ → σ → τ → τ} {K : σ × τ → Prop} {π : Role (σ × τ) Λ'}
    (F : σ × τ → Prop) (hI : ∀ s, K s → I s.1) (hR : ∀ s s', π.rely s s' → ρ.rely s.1 s'.1)
    (hP : ∀ l s, π.pre (φ l) s → ρ.pre l s.1)
    (hF : ∀ s s', F s → π.rely s s' → F s')
    (hG : ∀ l s s', K s → F s → I s' → ρ.guar l s.1 s' →
      π.guar (φ l) s (s', tell l s' s.2) ∧ K (s', tell l s' s.2) ∧ F (s', tell l s' s.2))
    (hN : ρ.lenient → π.lenient) :
    ∀ {p : Prog σ Λ α} {s : σ × τ}, F s → Safe I ρ Q p s.1 →
      Safe K π (fun a s => Q a s.1 ∧ F s) (p.along φ tell) s
  | .ret _, _, hf, h => fun s' hr hk => ⟨h _ (hR _ _ hr) (hI _ hk), hF _ _ hf hr⟩
  | .fault p, _, hf, h => ⟨hN h.1, Safe.along F (p := p) hI hR hP hF hG hN hf h.2⟩
  | .act l f k, _, hf, h => fun s' hr hk hl => by
      obtain ⟨hg, hi, hs⟩ := h _ (hR _ _ hr) (hI _ hk) (hP _ _ hl)
      obtain ⟨hg', hk', hf'⟩ := hG l s' _ hk (hF _ _ hf hr) hi hg
      exact ⟨hg', hk', Safe.along F (p := k s'.1) hI hR hP hF hG hN hf' hs⟩

end Safe

end Schemes
