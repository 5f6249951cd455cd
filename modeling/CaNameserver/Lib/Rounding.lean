import Mathlib.Algebra.Order.Group.Unbundled.Int
import Mathlib.Algebra.Order.Ring.Int
import Mathlib.Tactic.Ring

/-!
# Whole numbers in a floating point format

A floating point number has a significand of `p` bits.  A whole number that has more is rounded to
the nearest one that has not, ties going to the even significand.  There is no bound on the exponent
here: the format is wide enough for the numbers it is used for.

* `toNearest p n`: the number that `n` is rounded to.
* `toNearest_of_le`: a number up to `2 ^ p` is exact.
* `toNearest_error`: the relative error is at most `2 ^ -p`.
-/

namespace Rounding

/-- The weight of the last bit of the significand of `n`. -/
def ulp (p n : ℕ) : ℕ := 2 ^ (n.log2 + 1 - p)

/-- `n` with a significand of `p` bits, rounded to nearest, ties to even. -/
def toNearest (p n : ℕ) : ℕ :=
  let q := n / ulp p n
  let r := n % ulp p n
  if 2 * r < ulp p n ∨ 2 * r = ulp p n ∧ q % 2 = 0 then q * ulp p n else (q + 1) * ulp p n

theorem ulp_pos (p n : ℕ) : 0 < ulp p n := Nat.two_pow_pos _

/-- What the last bit does not cut off stays. -/
theorem toNearest_of_dvd {p n : ℕ} (h : ulp p n ∣ n) : toNearest p n = n := by
  have hr : n % ulp p n = 0 := Nat.mod_eq_zero_of_dvd h
  have hsmall : 2 * (n % ulp p n) < ulp p n := by
    rw [hr]
    exact ulp_pos p n
  rw [toNearest, if_pos (Or.inl hsmall), Nat.div_mul_cancel h]

theorem toNearest_of_le {p n : ℕ} (hp : p ≠ 0) (h : n ≤ 2 ^ p) : toNearest p n = n := by
  refine toNearest_of_dvd ?_
  rcases h.lt_or_eq with hlt | rfl
  · have hulp : ulp p n = 1 := by
      by_cases hn : n = 0
      · rw [hn, ulp, Nat.log2_zero, Nat.sub_eq_zero_of_le (Nat.one_le_iff_ne_zero.mpr hp)]
        rfl
      · have hlog := (Nat.log2_lt hn).mpr hlt
        rw [ulp, Nat.sub_eq_zero_of_le hlog]
        rfl
    rw [hulp]
    exact one_dvd n
  · rw [ulp, Nat.log2_two_pow, Nat.add_sub_cancel_left]
    exact pow_dvd_pow 2 (Nat.one_le_iff_ne_zero.mpr hp)

/-- Rounding moves a number by half of the last bit at most. -/
theorem toNearest_dist (p n : ℕ) : 2 * |(toNearest p n : ℤ) - n| ≤ ulp p n := by
  have hn : n = n / ulp p n * ulp p n + n % ulp p n := by
    rw [mul_comm]
    exact (Nat.div_add_mod n _).symm
  have hlt : n % ulp p n < ulp p n := Nat.mod_lt n (ulp_pos p n)
  rw [toNearest]
  generalize hq : n / ulp p n = q at *
  generalize hr : n % ulp p n = r at *
  generalize ulp p n = u at *
  have hcast : (n : ℤ) = q * u + r := by exact_mod_cast hn
  rw [hcast]
  split_ifs with hcase
  · -- down, by the remainder
    have hdown : ((q * u : ℕ) : ℤ) - (q * u + r) = -r := by
      push_cast
      ring
    rw [hdown, abs_neg, abs_of_nonneg (Int.natCast_nonneg r)]
    rcases hcase with h | ⟨h, -⟩ <;> omega
  · -- up, by what the remainder lacks
    have hup : (((q + 1) * u : ℕ) : ℤ) - (q * u + r) = u - r := by
      push_cast
      ring
    have hle : u ≤ 2 * r := by
      by_contra hlt
      exact hcase (Or.inl (not_le.mp hlt))
    rw [hup, abs_of_nonneg (by omega)]
    omega

/-- **The relative error.** -/
theorem toNearest_error {p : ℕ} (hp : p ≠ 0) (n : ℕ) : 2 ^ p * |(toNearest p n : ℤ) - n| ≤ n := by
  by_cases hle : n ≤ 2 ^ p
  · rw [toNearest_of_le hp hle, sub_self, abs_zero, mul_zero]
    exact Int.natCast_nonneg n
  have hn : n ≠ 0 := by
    rintro rfl
    exact hle (Nat.zero_le _)
  have hlog : p ≤ n.log2 := (Nat.le_log2 hn).mpr (not_le.mp hle).le
  -- twice the bound on the error is the highest bit of the number
  have hhigh : 2 ^ p * ulp p n = 2 * 2 ^ n.log2 := by
    rw [ulp, ← pow_add, ← pow_succ']
    congr 1
    omega
  have htop : 2 ^ n.log2 ≤ n := Nat.log2_self_le hn
  have hdist := Int.mul_le_mul_of_nonneg_left (toNearest_dist p n)
    (pow_nonneg zero_le_two p : (0 : ℤ) ≤ 2 ^ p)
  have hhigh' : (2 : ℤ) ^ p * (ulp p n : ℤ) = 2 * 2 ^ n.log2 := by exact_mod_cast hhigh
  have htop' : (2 : ℤ) ^ n.log2 ≤ n := by exact_mod_cast htop
  have hswap : (2 : ℤ) ^ p * (2 * |(toNearest p n : ℤ) - n|) =
      2 * (2 ^ p * |(toNearest p n : ℤ) - n|) := by ring
  rw [hswap, hhigh'] at hdist
  omega

/-- One more than a power of two is not there: it is the tie that goes down. -/
example : toNearest 24 (2 ^ 24 + 1) = 2 ^ 24 := by decide

end Rounding
