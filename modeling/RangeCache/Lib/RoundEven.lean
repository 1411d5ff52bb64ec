import Mathlib.Data.Nat.Log
import Mathlib.Tactic.Linarith

/-!
# Rounding to a significand of fixed length

A binary floating-point number has a significand of `p` bits. A natural number that needs more of
them is rounded to the nearest multiple of a power of two that does not, and of two such multiples
to the even one. There is no limit to the exponents here.

## Main definitions

* `RoundEven.excess`, `RoundEven.roundEven`

## Main results

* `roundEven_mono` — rounding is monotone
* `roundEven_error` — it adds less than the last bit of the significand is worth
-/

namespace RoundEven

/-- How many of the bits of `n` a significand of `p` bits has no room for. -/
def excess (p n : ℕ) : ℕ := n.log2 + 1 - p

/-- A multiple of `2 ^ k` that is nearest to `n`, the even one of two. -/
def roundTo (k n : ℕ) : ℕ :=
  if 2 * (n % 2 ^ k) < 2 ^ k ∨ 2 * (n % 2 ^ k) = 2 ^ k ∧ n / 2 ^ k % 2 = 0 then
    n / 2 ^ k * 2 ^ k
  else
    (n / 2 ^ k + 1) * 2 ^ k

/-- Round to nearest, ties to even. -/
def roundEven (p n : ℕ) : ℕ := roundTo (excess p n) n

section Bounds

variable {k p m n : ℕ}

theorem excess_mono (h : m ≤ n) : excess p m ≤ excess p n := by
  rw [excess, excess, Nat.log2_eq_log_two, Nat.log2_eq_log_two]
  exact Nat.sub_le_sub_right (Nat.succ_le_succ (Nat.log_mono_right h)) p

/-- Without the bits for which there is no room, `p` bits are left. -/
theorem lt_two_pow_excess (p n : ℕ) : n < 2 ^ (excess p n + p) :=
  lt_of_lt_of_le Nat.lt_log2_self (Nat.pow_le_pow_right Nat.two_pos (by rw [excess]; omega))

/-- And not fewer, if some have no room. -/
theorem two_pow_excess_le (hp : 0 < p) (hk : 0 < excess p n) : 2 ^ (excess p n + p) ≤ 2 * n := by
  have hlog : excess p n + p = n.log2 + 1 := by
    rw [excess] at hk ⊢
    omega
  have hn : n ≠ 0 := by
    rintro rfl
    rw [excess, Nat.log2_zero] at hk
    omega
  rw [hlog, Nat.pow_succ, Nat.mul_comm]
  exact Nat.mul_le_mul_left 2 (Nat.log2_self_le hn)

theorem le_roundTo (k n : ℕ) : n / 2 ^ k * 2 ^ k ≤ roundTo k n := by
  rw [roundTo]
  split
  · exact le_rfl
  · exact Nat.mul_le_mul_right _ (Nat.le_succ _)

theorem roundTo_le (k n : ℕ) : roundTo k n ≤ (n / 2 ^ k + 1) * 2 ^ k := by
  rw [roundTo]
  split
  · exact Nat.mul_le_mul_right _ (Nat.le_succ _)
  · exact le_rfl

/-- Half of the last bit is the most that is added. -/
theorem two_mul_roundTo_le (k n : ℕ) : 2 * roundTo k n ≤ 2 * n + 2 ^ k := by
  have hn := Nat.div_add_mod' n (2 ^ k)
  rw [roundTo]
  split
  · omega
  · next h =>
    have hhalf : 2 ^ k ≤ 2 * (n % 2 ^ k) := by
      by_contra hlt
      exact h (.inl (by omega))
    rw [Nat.add_mul, Nat.one_mul]
    omega

theorem roundTo_mono (k : ℕ) (h : m ≤ n) : roundTo k m ≤ roundTo k n := by
  have hdiv : m / 2 ^ k ≤ n / 2 ^ k := Nat.div_le_div_right h
  rcases hdiv.lt_or_eq with hlt | heq
  · exact (roundTo_le k m).trans ((Nat.mul_le_mul_right _ hlt).trans (le_roundTo k n))
  · have hm := Nat.div_add_mod' m (2 ^ k)
    have hn := Nat.div_add_mod' n (2 ^ k)
    rw [roundTo, roundTo, heq]
    rw [heq] at hm
    split
    · split
      · exact le_rfl
      · exact Nat.mul_le_mul_right _ (Nat.le_succ _)
    · next hup =>
      rw [if_neg]
      rintro (hless | ⟨htie, heven⟩)
      · exact hup (.inl (by omega))
      · refine hup ?_
        rcases Nat.lt_or_ge (m % 2 ^ k) (n % 2 ^ k) with hr | hr
        · exact .inl (by omega)
        · exact .inr ⟨by omega, heven⟩

end Bounds

/-- **Rounding is monotone.** -/
theorem roundEven_mono {p m n : ℕ} (hp : 0 < p) (h : m ≤ n) : roundEven p m ≤ roundEven p n := by
  rcases (excess_mono (p := p) h).lt_or_eq with hlt | heq
  · -- there is a power of two between what the numbers are rounded to
    have hbits : 2 ^ (excess p n + p - 1) ≤ n := by
      have hle := two_pow_excess_le hp (n := n) (by omega)
      rw [show excess p n + p = excess p n + p - 1 + 1 by omega, Nat.pow_succ] at hle
      omega
    calc roundEven p m ≤ (m / 2 ^ excess p m + 1) * 2 ^ excess p m := roundTo_le _ _
      _ ≤ 2 ^ p * 2 ^ excess p m := by
        refine Nat.mul_le_mul_right _ (Nat.div_lt_of_lt_mul ?_)
        rw [← Nat.pow_add]
        exact lt_two_pow_excess p m
      _ = 2 ^ (p + excess p m) := (Nat.pow_add ..).symm
      _ ≤ 2 ^ (excess p n + p - 1) := Nat.pow_le_pow_right Nat.two_pos (by omega)
      _ = 2 ^ (p - 1) * 2 ^ excess p n := by
        rw [← Nat.pow_add]
        congr 1
        omega
      _ ≤ n / 2 ^ excess p n * 2 ^ excess p n := by
        refine Nat.mul_le_mul_right _ ((Nat.le_div_iff_mul_le (Nat.two_pow_pos _)).mpr ?_)
        rw [← Nat.pow_add, show p - 1 + excess p n = excess p n + p - 1 by omega]
        exact hbits
      _ ≤ roundEven p n := le_roundTo _ _
  · rw [roundEven, roundEven, heq]
    exact roundTo_mono _ h

/-- **The error of rounding.** -/
theorem roundEven_error {p : ℕ} (hp : 0 < p) (n : ℕ) :
    2 ^ p * roundEven p n ≤ (2 ^ p + 1) * n := by
  have hround := two_mul_roundTo_le (excess p n) n
  rw [← roundEven] at hround
  rcases Nat.eq_zero_or_pos (excess p n) with hzero | hpos
  · rw [hzero, Nat.pow_zero] at hround
    exact Nat.mul_le_mul (Nat.le_succ _) (by omega)
  · have hle := two_pow_excess_le hp hpos
    rw [Nat.pow_add] at hle
    have hmul := Nat.mul_le_mul_left (2 ^ p) hround
    rw [Nat.mul_add, Nat.mul_comm (2 ^ p) (2 ^ excess p n)] at hmul
    nlinarith

end RoundEven
