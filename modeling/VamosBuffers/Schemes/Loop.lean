import Mathlib.Tactic

/-! Calls that may stop, and their loops. A call either returns a new state or stops with a reason:

        bind    x >>= f returns  ⇔  x returns some a and f a returns
        while   cond s ──step──▶ cond s' ──step──▶ …            (stops where step stops)

    A loop is given a number of turns that it may make. Where an invariant lets no turn stop and a
    measure falls with each one, there is a number of turns with which it returns. A worklist that
    replaces a node by its children has the number of nodes below it for a measure. -/

namespace Schemes

section Loop

variable {ε σ α β : Type}

theorem except_bind_ok {x : Except ε α} {f : α → Except ε β} {b : β} :
    (x >>= f) = .ok b ↔ ∃ a, x = .ok a ∧ f a = .ok b := by
  cases x with
  | error e =>
    constructor
    · intro h
      cases h
    · rintro ⟨a, ha, -⟩
      cases ha
  | ok a =>
    constructor
    · exact fun h => ⟨a, rfl, h⟩
    · rintro ⟨a', ha, h⟩
      cases ha
      exact h

theorem except_bind_error {x : Except ε α} {f : α → Except ε β} {a : α} {e : ε} (hx : x = .ok a)
    (hf : f a = .error e) : (x >>= f) = .error e := by
  rw [hx]
  exact hf

/-- `while (cond) step`, and `none` if it is still going on after so many turns. -/
def whileDo (cond : σ → Bool) (step : σ → Except ε σ) : ℕ → σ → Except ε (Option σ)
  | 0, _ => pure none
  | turns + 1, s => if cond s then step s >>= whileDo cond step turns else pure (some s)

variable {cond : σ → Bool} {step : σ → Except ε σ} {I : σ → Prop} {R : σ → σ → Prop} {μ : σ → ℕ}

/-- Under an invariant and with a measure that falls, it returns; and what each turn does to the
    state, repeated, is what the loop does. -/
theorem whileDo_returns (hrefl : ∀ s, R s s) (htrans : ∀ {s s' s''}, R s s' → R s' s'' → R s s'')
    (hstep : ∀ s, I s → cond s = true → ∃ s', step s = .ok s' ∧ I s' ∧ R s s' ∧ μ s' < μ s)
    {turns : ℕ} {s : σ} (hs : I s) (hμ : μ s < turns) :
    ∃ s', whileDo cond step turns s = .ok (some s') ∧ I s' ∧ R s s' ∧ cond s' = false := by
  induction turns generalizing s with
  | zero => exact absurd hμ (Nat.not_lt_zero _)
  | succ turns ih =>
    rw [whileDo]
    cases hc : cond s with
    | false => exact ⟨s, rfl, hs, hrefl s, hc⟩
    | true =>
      obtain ⟨s1, h1, i1, r1, m1⟩ := hstep s hs hc
      obtain ⟨s', h', i', r', c'⟩ := ih i1 (by omega)
      refine ⟨s', ?_, i', htrans r1 r', c'⟩
      rw [if_pos rfl, h1]
      exact h'

end Loop

section Forest

variable {κ : Type}

/-- The nodes below `k`, itself included, down to a depth. -/
def nodes (children : κ → List κ) : ℕ → κ → ℕ
  | 0, _ => 0
  | depth + 1, k => ((children k).map (nodes children depth)).sum + 1

theorem nodes_mono (children : κ → List κ) {depth depth' : ℕ} (h : depth ≤ depth') (k : κ) :
    nodes children depth k ≤ nodes children depth' k := by
  induction depth generalizing depth' k with
  | zero => exact Nat.zero_le _
  | succ depth ih =>
    obtain ⟨d, rfl⟩ : ∃ d, depth' = d + 1 := ⟨depth' - 1, by omega⟩
    exact Nat.succ_le_succ (List.sum_le_sum fun k' _ => ih (Nat.le_of_succ_le_succ h) k')

end Forest

end Schemes
