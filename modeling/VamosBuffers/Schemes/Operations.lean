import Mathlib.Tactic

/-! Sequences of operations. An object with state `σ` is put through a list of operations, one after
    the other. Two questions are asked about such a run: does a property hold in every state of it,
    and does every operation find the state it should be applied in?

        s ──i──▶ step s i ──j──▶ …        Always I:   I s,  I (step s i),  …
                                          Meets P:    P s i,  P (step s i) j,  …

    Where each operation keeps `I` exactly when it meets `P`, the two questions have one answer. -/

namespace Schemes

section Operations

variable {σ ι : Type} (step : σ → ι → σ)

/-- The property holds before the first operation and after each one. -/
def Always (I : σ → Prop) : σ → List ι → Prop
  | s, [] => I s
  | s, i :: is => I s ∧ Always I (step s i) is

/-- Every operation is applied in a state that it may be applied in. -/
def Meets (P : σ → ι → Prop) : σ → List ι → Prop
  | _, [] => True
  | s, i :: is => P s i ∧ Meets P (step s i) is

instance decidableMeets {P : σ → ι → Prop} [∀ s i, Decidable (P s i)] :
    ∀ (s : σ) (is : List ι), Decidable (Meets step P s is)
  | _, [] => isTrue trivial
  | s, i :: is => @instDecidableAnd _ _ _ (decidableMeets (step s i) is)

variable {step} {I J : σ → Prop} {A P : σ → ι → Prop}

theorem Always.start : ∀ {s : σ} {is : List ι}, Always step I s is → I s
  | _, [], h => h
  | _, _ :: _, h => h.1

/-- The property holds after the run. -/
theorem Always.last {s : σ} {is : List ι} (h : Always step I s is) : I (is.foldl step s) := by
  induction is generalizing s with
  | nil => exact h
  | cons i is ih => exact ih h.2

/-- Every admissible operation keeps `J`, and `I` follows from it: then `I` holds in every state. -/
theorem always_of_kept (hJ : ∀ s i, J s → A s i → J (step s i)) (hI : ∀ s, J s → I s) {s : σ}
    {is : List ι} (h₀ : J s) (hA : Meets step A s is) : Always step I s is := by
  induction is generalizing s with
  | nil => exact hI s h₀
  | cons i is ih => exact ⟨hI s h₀, ih (hJ s i h₀ hA.1) hA.2⟩

/-- Every admissible operation keeps `J`, and under `J` it keeps `I` exactly when it meets `P`: then
    `I` holds in every state of a run if and only if every operation of the run meets `P`. -/
theorem always_iff_meets (hJ : ∀ s i, J s → A s i → J (step s i))
    (hI : ∀ s i, J s → A s i → I s → (I (step s i) ↔ P s i)) {s : σ} {is : List ι} (h₀ : J s)
    (hi : I s) (hA : Meets step A s is) : Always step I s is ↔ Meets step P s is := by
  induction is generalizing s with
  | nil => exact ⟨fun _ => trivial, fun _ => hi⟩
  | cons i is ih =>
    have hnext := hI s i h₀ hA.1 hi
    have hrest := fun h => ih (hJ s i h₀ hA.1) h hA.2
    constructor
    · rintro ⟨-, h⟩
      have h' := h.start
      exact ⟨hnext.mp h', (hrest h').mp h⟩
    · rintro ⟨hp, h⟩
      have h' := hnext.mpr hp
      exact ⟨hi, (hrest h').mpr h⟩

end Operations

end Schemes
