import Mathlib.Tactic

/-! Round robin with a counter of a machine word. The counter goes through the positions `0, 1, …` and
    starts over when it is past the last one; the word wraps at `W`; positions may be added at the
    end at any time.

        0 ─▶ 1 ─▶ … ─▶ x ─▶ … ─▶ size            look at pos, pos := pos + 1 mod W
        ▲                          │             reset when pos is past the end
        └──────────────────────────┘

    From one look at `x` to the next, every other position is looked at once: going up from `x` and
    around, the counter either still has `y` ahead of it or has `y` behind it. -/

namespace Schemes

/-- The counter and the number of positions. -/
structure Wheel where
  pos : ℕ
  size : ℕ
  deriving DecidableEq, Repr

/-- One step, and the position looked at. -/
inductive Wheel.Step (W : ℕ) : Wheel → Option ℕ → Wheel → Prop
  | look {w : Wheel} (h : w.pos < w.size) : Step W w (some w.pos) ⟨(w.pos + 1) % W, w.size⟩
  | reset {w : Wheel} (h : w.size ≤ w.pos) : Step W w none ⟨0, w.size⟩
  | grow {w : Wheel} {n : ℕ} (h : w.size ≤ n) : Step W w none ⟨w.pos, n⟩

/-- Any number of steps, and the positions looked at. -/
inductive Wheel.Turns (W : ℕ) (w₀ : Wheel) : List ℕ → Wheel → Prop
  | start : Turns W w₀ [] w₀
  | step {l : List ℕ} {o : Option ℕ} {w w' : Wheel} :
      Turns W w₀ l w → Wheel.Step W w o w' → Turns W w₀ (l ++ o.toList) w'

/-- Going up from `x` and around, a counter at `i` has yet to come to `y`. -/
def Ahead (x y i : ℕ) : Prop := if x < y then x < i ∧ i ≤ y else x < i ∨ i ≤ y

instance (x y i : ℕ) : Decidable (Ahead x y i) := by unfold Ahead; infer_instance

section Ahead

variable {W x y i n : ℕ}

theorem ahead_after (hx : x < W) (hy : y < W) : Ahead x y ((x + 1) % W) := by
  unfold Ahead
  rcases Nat.lt_or_ge (x + 1) W with h | h
  · rw [Nat.mod_eq_of_lt h]
    split <;> omega
  · obtain rfl : x + 1 = W := by omega
    rw [Nat.mod_self]
    split <;> omega

theorem not_ahead_self : ¬ Ahead x y x ∨ x = y := by
  unfold Ahead
  split <;> omega

theorem ahead_here : Ahead x y y ∨ x = y := by
  unfold Ahead
  split <;> omega

theorem not_ahead_after (hxy : x ≠ y) (hx : x < W) (hy : y < W) : ¬ Ahead x y ((y + 1) % W) := by
  unfold Ahead
  rcases Nat.lt_or_ge (y + 1) W with h | h
  · rw [Nat.mod_eq_of_lt h]
    split <;> omega
  · obtain rfl : y + 1 = W := by omega
    rw [Nat.mod_self]
    split <;> omega

/-- A look at a third position brings the counter no nearer. -/
theorem ahead_pass (hx : x < W) (hy : y < W) (hix : i ≠ x) (hiy : i ≠ y) (hi : i < W) :
    Ahead x y ((i + 1) % W) ↔ Ahead x y i := by
  unfold Ahead
  rcases Nat.lt_or_ge (i + 1) W with h | h
  · rw [Nat.mod_eq_of_lt h]
    split <;> omega
  · obtain rfl : i + 1 = W := by omega
    rw [Nat.mod_self]
    split <;> omega

theorem ahead_reset (hx : x < n) (hy : y < n) (hi : n ≤ i) : Ahead x y 0 ↔ Ahead x y i := by
  unfold Ahead
  split <;> omega

end Ahead

namespace Wheel

variable {W x y : ℕ} {w₀ w w' : Wheel} {l : List ℕ} {o : Option ℕ}

/-- How far the looks at `y` are ahead of those at `x`. -/
def Balanced (x y : ℕ) (l : List ℕ) (w : Wheel) : Prop :=
  l.count y = l.count x + if Ahead x y w.pos then 0 else 1

theorem Step.size_le (h : Step W w o w') : w.size ≤ w'.size := by
  cases h with
  | look _ => exact le_rfl
  | reset _ => exact le_rfl
  | grow h => exact h

theorem Step.pos_lt (h : Step W w o w') (hW : w.pos < W) : w'.pos < W := by
  cases h with
  | look _ => exact Nat.mod_lt _ (by omega)
  | reset _ => show 0 < W; omega
  | grow _ => exact hW

theorem Step.balanced (h : Step W w o w') (hxy : x ≠ y) (hx : x < w.size) (hy : y < w.size)
    (hxW : x < W) (hyW : y < W) (hW : w.pos < W) (hb : Balanced x y l w) :
    Balanced x y (l ++ o.toList) w' := by
  unfold Balanced at hb ⊢
  cases h with
  | grow _ => simpa using hb
  | reset h =>
    have hr := ahead_reset hx hy h
    simpa [hr] using hb
  | look h =>
    rw [Option.toList_some, List.count_append, List.count_append]
    by_cases hpx : w.pos = x
    · -- the look at `x` comes when `y` is behind
      have hn := not_ahead_self.resolve_right hxy
      have ha := ahead_after hxW hyW
      rw [hpx, if_neg hn] at hb
      simp only [hpx, if_pos ha, List.count_singleton_self, List.count_singleton, beq_iff_eq,
        if_neg hxy]
      omega
    · by_cases hpy : w.pos = y
      · have ha : Ahead x y y := ahead_here.resolve_right hxy
        have hn := not_ahead_after hxy hxW hyW
        rw [hpy, if_pos ha] at hb
        simp only [hpy, if_neg hn, List.count_singleton_self, List.count_singleton, beq_iff_eq,
          if_neg hxy.symm]
        omega
      · have hp := ahead_pass hxW hyW hpx hpy hW
        simp only [hp, List.count_singleton, beq_iff_eq, if_neg hpx, if_neg hpy]
        omega

/-- After a look at `x`, in whatever order steps come. -/
theorem Turns.balanced {n : ℕ} (h : Turns W ⟨(x + 1) % W, n⟩ l w) (hxy : x ≠ y) (hx : x < n)
    (hy : y < n) (hxW : x < W) (hyW : y < W) : Balanced x y l w := by
  suffices hs : n ≤ w.size ∧ w.pos < W ∧ Balanced x y l w from hs.2.2
  induction h with
  | start =>
    refine ⟨le_rfl, Nat.mod_lt _ (by omega), ?_⟩
    have ha := ahead_after hxW hyW
    simp [Balanced, ha]
  | step _ hst ih =>
    obtain ⟨hn, hp, hb⟩ := ih
    exact ⟨hn.trans hst.size_le, hst.pos_lt hp,
      hst.balanced hxy (by omega) (by omega) hxW hyW hp hb⟩

/-- Up to the next look at `x`, every other position has been looked at once more than `x`. -/
theorem Turns.count {n : ℕ} (h : Turns W ⟨(x + 1) % W, n⟩ l w) (hw : w.pos = x) (hxy : x ≠ y)
    (hx : x < n) (hy : y < n) (hxW : x < W) (hyW : y < W) : l.count y = l.count x + 1 := by
  have hb := h.balanced hxy hx hy hxW hyW
  have hn : ¬ Ahead x y w.pos := by
    rw [hw]
    exact not_ahead_self.resolve_right hxy
  rw [Balanced, if_neg hn] at hb
  exact hb

end Wheel

end Schemes
