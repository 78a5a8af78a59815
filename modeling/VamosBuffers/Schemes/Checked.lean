import Mathlib.Tactic

/-! Checked machine arithmetic. A `size_t` is a natural number below `2 ^ 64`; every operation
    returns the wrapped value the machine computes *and* records whether it wrapped. An assertion
    is a check of the same kind, so one flag answers both questions a reader has about a piece of C:
    did an unsigned operation wrap, and did an `assert` fail. The value never depends on the flag —
    a build with assertions disabled computes exactly `val`.

        add a b        val = (a + b) mod 2^64        ok = (a + b < 2^64)
        sub a b        val = (a - b) mod 2^64        ok = (b ≤ a)
        mul a b        val = (a * b) mod 2^64        ok = (a * b < 2^64)
        require p      val = ()                      ok = p -/

namespace Schemes

/-- A value, and whether every check on the way to it held. -/
structure Chk (α : Type) where
  val : α
  ok : Bool
  deriving DecidableEq, Repr

namespace Chk

variable {α β : Type}

instance : Monad Chk where
  pure a := ⟨a, true⟩
  bind x f := ⟨(f x.val).val, x.ok && (f x.val).ok⟩

instance : LawfulMonad Chk := LawfulMonad.mk' Chk
  (fun x => by cases x; simp [Functor.map])
  (fun a f => by simp [bind, pure])
  (fun x f g => by simp [bind, Bool.and_assoc])

theorem ext {x y : Chk α} (hval : x.val = y.val) (hok : x.ok = true ↔ y.ok = true) : x = y := by
  obtain ⟨v, o⟩ := x
  obtain ⟨w, p⟩ := y
  obtain rfl : v = w := hval
  obtain rfl : o = p := Bool.eq_iff_iff.mpr hok
  rfl

@[simp] theorem pure_val (a : α) : (pure a : Chk α).val = a := rfl

@[simp] theorem pure_ok (a : α) : (pure a : Chk α).ok = true := rfl

@[simp] theorem bind_val (x : Chk α) (f : α → Chk β) : (x >>= f).val = (f x.val).val := rfl

@[simp] theorem map_val (f : α → β) (x : Chk α) : (f <$> x).val = f x.val := rfl

@[simp] theorem bind_ok (x : Chk α) (f : α → Chk β) :
    (x >>= f).ok = true ↔ x.ok = true ∧ (f x.val).ok = true := Bool.and_eq_true_iff

/-- Addition of two `size_t`. -/
def add (a b : ℕ) : Chk ℕ := ⟨(a + b) % 2 ^ 64, decide (a + b < 2 ^ 64)⟩

/-- Subtraction of two `size_t`. -/
def sub (a b : ℕ) : Chk ℕ := ⟨(a + (2 ^ 64 - b)) % 2 ^ 64, decide (b ≤ a)⟩

/-- Multiplication of two `size_t`. -/
def mul (a b : ℕ) : Chk ℕ := ⟨(a * b) % 2 ^ 64, decide (a * b < 2 ^ 64)⟩

/-- `assert(p)`. -/
def require (p : Prop) [Decidable p] : Chk Unit := ⟨(), decide p⟩

@[simp] theorem add_ok {a b : ℕ} : (add a b).ok = true ↔ a + b < 2 ^ 64 := decide_eq_true_iff

@[simp] theorem mul_ok {a b : ℕ} : (mul a b).ok = true ↔ a * b < 2 ^ 64 := decide_eq_true_iff

@[simp] theorem require_ok {p : Prop} [Decidable p] : (require p).ok = true ↔ p :=
  decide_eq_true_iff

theorem add_eq {a b : ℕ} (h : a + b < 2 ^ 64) : add a b = pure (a + b) := by
  simp only [add, Nat.mod_eq_of_lt h, h, decide_true]; rfl

theorem sub_eq {a b : ℕ} (h : b ≤ a) (ha : a < 2 ^ 64) : sub a b = pure (a - b) := by
  have hv : (a + (2 ^ 64 - b)) % 2 ^ 64 = a - b := by omega
  simp only [sub, hv, h, decide_true]; rfl

theorem mul_eq {a b : ℕ} (h : a * b < 2 ^ 64) : mul a b = pure (a * b) := by
  simp only [mul, Nat.mod_eq_of_lt h, h, decide_true]; rfl

theorem require_eq {p : Prop} [Decidable p] (h : p) : require p = pure () := by
  simp only [require, h, decide_true]; rfl

end Chk

end Schemes
