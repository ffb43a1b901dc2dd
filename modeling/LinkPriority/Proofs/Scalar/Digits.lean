import Mathlib.Analysis.Real.Sqrt
import Mathlib.Data.Nat.Sqrt
import Mathlib.Tactic.FieldSimp
import Mathlib.Tactic.GCongr
import Mathlib.Tactic.Linarith
import Mathlib.Tactic.NormNum
import Mathlib.Tactic.Ring
import LinkPriority.Proofs.Scalar.Exact

/-! Logarithm and square root of exact numbers to a few digits: what is asked of them, and two functions that can be
computed and give it. The logarithm is a partial sum of its series, the square root is taken of a whole number and
scaled. -/

namespace LinkPriority

/-- The first digits of `ln` and `sqrt` are right, or nearly: the logarithm is not too small from 2 on, and the square
root has a relative error of at most a millionth. -/
structure Accurate (ln sqrt : ℚ → ℚ) : Prop where
  le_ln {x : ℚ} : 2 ≤ x → 693 / 1000 ≤ ln x
  sqrt_near {x : ℚ} : 0 ≤ x → |(sqrt x : ℝ) - √x| ≤ √x / 10 ^ 6

theorem Accurate.sqrt_bounds {ln sqrt : ℚ → ℚ} (h : Accurate ln sqrt) {x : ℚ} (hx : 0 ≤ x) :
    (1 - 1 / 10 ^ 6) * √(x : ℝ) ≤ sqrt x ∧ sqrt x ≤ (1 + 1 / 10 ^ 6) * √(x : ℝ) := by
  obtain ⟨hhigh, hlow⟩ := abs_sub_le_iff.1 (h.sqrt_near hx)
  constructor <;> linarith

/-- Three terms of the series of the logarithm by powers of `(x - 1) / (x + 1)`. -/
def lnSeries (x : ℚ) : ℚ :=
  let u := (x - 1) / (x + 1)
  2 * (u + u ^ 3 / 3 + u ^ 5 / 5)

theorem le_lnSeries {x : ℚ} (hx : 2 ≤ x) : 693 / 1000 ≤ lnSeries x := by
  have hu : 1 / 3 ≤ (x - 1) / (x + 1) := by
    rw [div_le_div_iff₀ (by norm_num) (by linarith)]
    linarith
  calc (693 / 1000 : ℚ) ≤ 2 * (1 / 3 + (1 / 3) ^ 3 / 3 + (1 / 3) ^ 5 / 5) := by norm_num
    _ ≤ lnSeries x := by
      rw [lnSeries]
      gcongr

/-- The whole part of a square root, digit by digit in base 2. -/
def wholeSqrt (n : ℕ) : ℕ :=
  if n = 0 then 0
  else
    let r := 2 * wholeSqrt (n / 4)
    if (r + 1) * (r + 1) ≤ n then r + 1 else r

theorem wholeSqrt_eq (n : ℕ) : wholeSqrt n = Nat.sqrt n := by
  induction n using Nat.strong_induction_on with
  | _ n ih =>
    by_cases hn : n = 0
    · rw [hn, wholeSqrt, if_pos rfl, Nat.sqrt_zero]
    · rw [wholeSqrt, if_neg hn, ih (n / 4) (Nat.div_lt_self (Nat.pos_of_ne_zero hn) (by omega)), Nat.eq_sqrt]
      have hlow := Nat.sqrt_le (n / 4)
      have hhigh := Nat.lt_succ_sqrt (n / 4)
      generalize Nat.sqrt (n / 4) = q at hlow hhigh
      have hquarter : 4 * (n / 4) ≤ n ∧ n < 4 * (n / 4 + 1) := by omega
      rw [Nat.succ_mul_succ] at hhigh
      dsimp only
      split
      · next hle => exact ⟨hle, by nlinarith⟩
      · next hlt => exact ⟨by nlinarith, not_le.1 hlt⟩

/-- Square roots to six digits. -/
def sqrtDigits (x : ℚ) : ℚ := wholeSqrt (x.num.toNat * x.den * 10 ^ 12) / (x.den * 10 ^ 6)

/-- From `10 ^ 12` on, what a square root loses with its fraction is less than a millionth of it. -/
theorem abs_wholeSqrt_sub_sqrt_le {n : ℕ} (hn : 10 ^ 12 ≤ n) : |(wholeSqrt n : ℝ) - √n| ≤ √n / 10 ^ 6 := by
  have hlow : (wholeSqrt n : ℝ) ≤ √n := wholeSqrt_eq n ▸ Real.nat_sqrt_le_real_sqrt
  have hhigh : √n < wholeSqrt n + 1 := wholeSqrt_eq n ▸ Real.real_sqrt_lt_nat_sqrt_succ
  have hlarge : 10 ^ 6 ≤ √(n : ℝ) := by
    refine Real.le_sqrt_of_sq_le ?_
    rw [← pow_mul]
    exact_mod_cast hn
  rw [abs_sub_le_iff]
  constructor <;> linarith

theorem sqrtDigits_near {x : ℚ} (hx : 0 ≤ x) : |(sqrtDigits x : ℝ) - √x| ≤ √x / 10 ^ 6 := by
  obtain rfl | hpos := hx.eq_or_lt
  · simp [sqrtDigits, wholeSqrt]
  have hnum : 0 < x.num := Rat.num_pos.2 hpos
  generalize hn : x.num.toNat * x.den * 10 ^ 12 = n
  have hlarge : 10 ^ 12 ≤ n := by
    have hone : 1 ≤ x.num.toNat * x.den := Nat.mul_pos (by omega) x.den_pos
    omega
  have hscale : (0 : ℝ) < x.den * 10 ^ 6 := mul_pos (Nat.cast_pos.2 x.den_pos) (by norm_num)
  have hsquare : (x : ℝ) * (x.den * 10 ^ 6) ^ 2 = n := by
    have hwhole : (x : ℝ) * x.den = x.num.toNat := by
      have hnat : x * x.den = x.num.toNat := by
        rw [Rat.mul_den_eq_num, ← Int.cast_natCast, Int.toNat_of_nonneg hnum.le]
      exact_mod_cast hnat
    rw [← hn]
    push_cast
    rw [← hwhole]
    ring
  have hroot : √(x : ℝ) = √n / (x.den * 10 ^ 6) := by
    rw [← hsquare, Real.sqrt_mul (by exact_mod_cast hx), Real.sqrt_sq hscale.le, mul_div_cancel_right₀ _ hscale.ne']
  have hdigits : (sqrtDigits x : ℝ) = wholeSqrt n / (x.den * 10 ^ 6) := by
    rw [sqrtDigits, hn]
    push_cast
    rfl
  calc |(sqrtDigits x : ℝ) - √x| = |(wholeSqrt n : ℝ) - √n| / (x.den * 10 ^ 6) := by
        rw [hdigits, hroot, ← sub_div, abs_div, abs_of_pos hscale]
    _ ≤ √n / 10 ^ 6 / (x.den * 10 ^ 6) := by
        gcongr
        exact abs_wholeSqrt_sub_sqrt_le hlarge
    _ = √x / 10 ^ 6 := by rw [hroot, div_right_comm]

theorem accurate_digits : Accurate lnSeries sqrtDigits := ⟨le_lnSeries, sqrtDigits_near⟩

/-- Exact numbers with logarithm and square root to a few digits. -/
abbrev Digital : Type := Exact lnSeries sqrtDigits

end LinkPriority
