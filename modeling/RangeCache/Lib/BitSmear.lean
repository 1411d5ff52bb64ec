import Mathlib.Algebra.Order.Ring.Int
import Mathlib.Data.Nat.Size
import Mathlib.Order.Bounds.Basic
import Mathlib.Tactic.Zify

/-!
# Smearing the top bit

A number or-ed with itself, shifted right by 1, 2, 4 and so on, ends with every bit below its top
bit set. Each step doubles the number of set bits at the top, so `j` steps are enough for numbers
of up to `2 ^ j` bits. One more than the result is the least power of two above the number.

## Main definitions

* `BitSmear.smear` — the steps, with shifts that double
* `BitSmear.TopFilled` — the top bits below a bound are set

## Main results

* `smear_eq` — what enough steps lead to
* `isLeast_two_pow_size` — the least power of two above a number
* `isLeast_two_pow_toNat_size` — the same, for the integers from one on
-/

namespace BitSmear

/-- `j` steps, the first one with the shift `k`. -/
def smear : (j k n : ℕ) → ℕ
  | 0, _, n => n
  | j + 1, k, n => smear j (2 * k) (n ||| n >>> k)

/-- `n` has at most `s` bits, of which the top `k` are set. -/
structure TopFilled (n s k : ℕ) : Prop where
  lt : n < 2 ^ s
  testBit : ∀ i < s, s ≤ i + k → n.testBit i = true

variable {n s k : ℕ}

/-- The top bit of a number is set. -/
theorem topFilled_size (n : ℕ) : TopFilled n n.size 1 := by
  refine ⟨Nat.lt_size_self n, fun i hi hle => ?_⟩
  have hsize : n.size = i + 1 := by omega
  have hlow : 2 ^ i ≤ n := Nat.lt_size.mp hi
  have hhigh : n < 2 ^ (i + 1) := hsize ▸ Nat.lt_size_self n
  exact Nat.testBit_of_two_pow_le_and_two_pow_add_one_gt hlow hhigh

/-- **A step doubles the bits that are set.** -/
theorem TopFilled.step (h : TopFilled n s k) : TopFilled (n ||| n >>> k) s (2 * k) := by
  refine ⟨Nat.or_lt_two_pow h.lt (lt_of_le_of_lt (Nat.shiftRight_le n k) h.lt), fun i hi hle => ?_⟩
  rw [Nat.testBit_or, Nat.testBit_shiftRight, Bool.or_eq_true]
  by_cases htop : s ≤ i + k
  · exact .inl (h.testBit i hi htop)
  · exact .inr (h.testBit (k + i) (by omega) (by omega))

theorem TopFilled.smear (h : TopFilled n s k) (j : ℕ) :
    TopFilled (BitSmear.smear j k n) s (2 ^ j * k) := by
  induction j generalizing n k with
  | zero => rwa [BitSmear.smear, pow_zero, Nat.one_mul]
  | succ j ih =>
    have hnext := ih h.step
    rwa [← Nat.mul_assoc, ← pow_succ] at hnext

/-- A number all of whose bits are set. -/
theorem TopFilled.eq (h : TopFilled n s k) (hle : s ≤ k) : n = 2 ^ s - 1 := by
  refine Nat.eq_of_testBit_eq fun i => ?_
  rw [Nat.testBit_two_pow_sub_one]
  by_cases hi : i < s
  · rw [h.testBit i hi (by omega), decide_eq_true hi]
  · have hn : n < 2 ^ i := lt_of_lt_of_le h.lt (Nat.pow_le_pow_right Nat.two_pos (by omega))
    rw [Nat.testBit_lt_two_pow hn, decide_eq_false hi]

/-- **Enough steps set every bit below the top one.** -/
theorem smear_eq {j : ℕ} (h : n < 2 ^ 2 ^ j) : smear j 1 n = 2 ^ n.size - 1 :=
  ((topFilled_size n).smear j).eq (by rw [Nat.mul_one]; exact Nat.size_le.mpr h)

/-- **The least power of two above a number.** -/
theorem isLeast_two_pow_size (n : ℕ) : IsLeast {p | (∃ k, p = 2 ^ k) ∧ n < p} (2 ^ n.size) := by
  refine ⟨⟨⟨n.size, rfl⟩, Nat.lt_size_self n⟩, ?_⟩
  rintro p ⟨⟨k, rfl⟩, hlt⟩
  exact Nat.pow_le_pow_right Nat.two_pos (Nat.size_le.mpr hlt)

/-- The least power of two that an integer is at most. -/
theorem isLeast_two_pow_toNat_size (c : ℤ) :
    IsLeast {p : ℤ | (∃ k : ℕ, p = 2 ^ k) ∧ max c 1 ≤ p} (2 ^ (c - 1).toNat.size) := by
  have hpow : ∀ k : ℕ, max c 1 ≤ (2 : ℤ) ^ k ↔ (c - 1).toNat < 2 ^ k := by
    intro k
    have hone : 1 ≤ 2 ^ k := Nat.one_le_two_pow
    zify at hone ⊢
    omega
  refine ⟨⟨⟨_, rfl⟩, (hpow _).mpr (Nat.lt_size_self _)⟩, ?_⟩
  rintro p ⟨⟨k, rfl⟩, hle⟩
  have hleast := (isLeast_two_pow_size (c - 1).toNat).2 ⟨⟨k, rfl⟩, (hpow k).mp hle⟩
  exact_mod_cast hleast

end BitSmear
