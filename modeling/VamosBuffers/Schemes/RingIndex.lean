import Mathlib.Tactic

/-! Indices on a ring of `c` slots as remainders of unbounded counters. A position that has moved
    `w` times stands at `w % c`. As long as two counters are less than `c` apart, everything a ring
    computes from the two remainders is a fact about the counters: their distance, who is ahead, and
    which slots lie between them. -/

namespace Schemes

/-- How far ahead of `t` the index `h` is on a ring of `c` slots. -/
def ringDist (h t c : ℕ) : ℕ := if t ≤ h then h - t else c - t + h

theorem ringDist_lt {h t c : ℕ} (hh : h < c) (ht : t < c) : ringDist h t c < c := by
  unfold ringDist; split <;> omega

section Moves

variable {h t c n : ℕ} (hh : h < c) (ht : t < c)
include hh ht

/-- The index ahead moves on. -/
theorem ringDist_move_ahead (hn : ringDist h t c + n < c) :
    ringDist (if c ≤ h + n then h + n - c else h + n) t c = ringDist h t c + n := by
  unfold ringDist at *
  split_ifs at hn ⊢ <;> omega

/-- The index behind moves on. -/
theorem ringDist_move_behind (hn : n ≤ ringDist h t c) :
    ringDist h (if c ≤ t + n then t + n - c else t + n) c = ringDist h t c - n := by
  unfold ringDist at *
  split_ifs at hn ⊢ <;> omega

end Moves

/-- Counters less than `c` apart have quotients equal or one apart. -/
theorem div_eq_or_succ {w r c : ℕ} (hc : 0 < c) (hr : r ≤ w) (hw : w < r + c) :
    w / c = r / c ∨ w / c = r / c + 1 := by
  have h1 : r / c ≤ w / c := Nat.div_le_div_right hr
  have h2 : w / c < r / c + 2 := by
    have hlt : w / c ≤ (r + c) / c := Nat.div_le_div_right hw.le
    rw [Nat.add_div_right r hc] at hlt
    omega
  omega

/-- The distance of the remainders is the distance of the counters. -/
theorem ringDist_mod {w r c : ℕ} (hr : r ≤ w) (hw : w < r + c) :
    ringDist (w % c) (r % c) c = w - r := by
  have hc : 0 < c := by omega
  have hwd := Nat.div_add_mod w c
  have hrd := Nat.div_add_mod r c
  have hrl := Nat.mod_lt r hc
  have hwl := Nat.mod_lt w hc
  rcases div_eq_or_succ hc hr hw with h | h <;> rw [h] at hwd
  · rw [ringDist, if_pos (by omega)]; omega
  · rw [Nat.mul_add, Nat.mul_one] at hwd
    rw [ringDist, if_neg (by omega)]; omega

/-- One conditional subtraction is enough to move an index by at most a full turn. -/
theorem add_mod_wrap {w n c : ℕ} (hc : 0 < c) (hn : n ≤ c) :
    (w + n) % c = if c ≤ w % c + n then w % c + n - c else w % c + n := by
  have hw := Nat.mod_lt w hc
  rw [← Nat.mod_add_mod]
  split
  · rename_i h
    rw [Nat.mod_eq_sub_mod h]
    exact Nat.mod_eq_of_lt (by omega)
  · exact Nat.mod_eq_of_lt (by omega)

/-- Within one turn, different counters are different slots. -/
theorem mod_ne_mod {i j c : ℕ} (hij : i < j) (hj : j < i + c) : j % c ≠ i % c := by
  intro h
  have := ringDist_mod hij.le hj
  rw [h, ringDist, if_pos le_rfl] at this
  omega

/-- The `n` slots from `off` on as one run, or as two when they wrap. -/
structure Runs (off c n len1 len2 : ℕ) : Prop where
  sum : len1 + len2 = n
  pos : 0 < len1
  fits : off + len1 ≤ c
  wrap : 0 < len2 → off + len1 = c ∧ 0 < off

/-- The first run holds the first counters. -/
theorem Runs.mod_first {w c n len1 len2 i : ℕ} (h : Runs (w % c) c n len1 len2) (hi : i < len1) :
    (w + i) % c = w % c + i := by
  have hf := h.fits
  rw [← Nat.mod_add_mod]
  exact Nat.mod_eq_of_lt (by omega)

/-- The second run begins at slot 0. -/
theorem Runs.mod_second {w c n len1 len2 i : ℕ} (h : Runs (w % c) c n len1 len2) (hn : n ≤ c)
    (hi : i < len2) : (w + (len1 + i)) % c = i := by
  obtain ⟨hw, -⟩ := h.wrap (by omega)
  have hs := h.sum
  rw [← Nat.mod_add_mod, ← Nat.add_assoc, hw, Nat.add_mod_left]
  exact Nat.mod_eq_of_lt (by omega)

/-- The `n` slots from `t` on, one after the other, lie in one run or in two. -/
theorem map_range_ring {t n c : ℕ} (ht : t < c) (hn : n ≤ c) :
    (List.range n).map (fun i => (t + i) % c) =
      if c ≤ t + n then List.range' t (c - t) ++ List.range' 0 (t + n - c)
      else List.range' t n := by
  have hmod : ∀ i, i < n → (t + i) % c = if c ≤ t + i then t + i - c else t + i := by
    intro i hi
    have h := add_mod_wrap (w := t) (n := i) (by omega) (hi.le.trans hn)
    rwa [Nat.mod_eq_of_lt ht] at h
  split
  · rename_i hturn
    refine List.ext_getElem (by simp; omega) fun i h1 h2 => ?_
    have hi : i < n := by simpa using h1
    rw [List.getElem_map, List.getElem_range, hmod i hi, List.getElem_append]
    simp only [List.length_range', List.getElem_range']
    split <;> split <;> omega
  · rename_i hfits
    refine List.ext_getElem (by simp) fun i h1 h2 => ?_
    have hi : i < n := by simpa using h1
    rw [List.getElem_map, List.getElem_range, hmod i hi, if_neg (by omega), List.getElem_range']
    omega

end Schemes
