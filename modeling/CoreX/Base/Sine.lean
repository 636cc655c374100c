import Mathlib.Analysis.Complex.Basic
import Mathlib.Analysis.Complex.Trigonometric

/-!
# The digits of `|sin n|`

The powers of a Gaussian integer over `19!` stand for the powers of `exp i`. Each multiplication adds the error of the
one factor, so a digit of `|sin n|` follows from two inequalities of natural numbers (`floor_mul_abs_sin`).
-/

namespace CoreX.Sine

open Complex

/-- `19!` times the sum of the first twenty terms. -/
def base : Int × Int := (65725128248453315, 102360822438075317)

/-- The powers of `base`, as real and imaginary part. -/
def power : Nat → Int × Int
  | 0 => (1, 0)
  | n + 1 => ((power n).1 * base.1 - (power n).2 * base.2, (power n).1 * base.2 + (power n).2 * base.1)

def scale : Nat := 121645100408832000

/-- The bound for the rest of the series is `21` over this. -/
def precision : Nat := 48658040163532800000

noncomputable def approx : ℂ := ⟨base.1 / scale, base.2 / scale⟩

theorem approx_eq_sum : ∑ m ∈ Finset.range 20, I ^ m / (m.factorial : ℂ) = approx := by
  apply Complex.ext <;> norm_num [Finset.sum_range_succ, pow_succ, Nat.factorial, approx, base, scale]

theorem norm_exp_I_sub_approx_le : ‖exp I - approx‖ ≤ 21 / precision := by
  have hBound := exp_bound (x := I) (by simp) (show 0 < 20 by decide)
  rw [approx_eq_sum] at hBound
  refine hBound.trans (le_of_eq ?_)
  norm_num [Nat.factorial, precision]

theorem norm_approx_le_one : ‖approx‖ ≤ 1 := by
  rw [← sq_le_one_iff₀ (norm_nonneg _), Complex.sq_norm, normSq_apply]
  norm_num [approx, base, scale]

/-- Inside the unit disc the error of a power is at most the sum of the errors of its factors. -/
theorem norm_pow_sub_pow_le {z w : ℂ} (hz : ‖z‖ ≤ 1) (hw : ‖w‖ ≤ 1) (n : Nat) : ‖z ^ n - w ^ n‖ ≤ n * ‖z - w‖ := by
  induction n with
  | zero => simp
  | succ n ih =>
    have hSplit : z ^ (n + 1) - w ^ (n + 1) = (z ^ n - w ^ n) * z + w ^ n * (z - w) := by ring
    have hPow : ‖w ^ n‖ ≤ 1 := by
      rw [norm_pow]
      exact pow_le_one₀ (norm_nonneg w) hw
    calc ‖z ^ (n + 1) - w ^ (n + 1)‖
        ≤ ‖(z ^ n - w ^ n) * z‖ + ‖w ^ n * (z - w)‖ := by
          rw [hSplit]
          exact norm_add_le _ _
      _ ≤ ‖z ^ n - w ^ n‖ * 1 + 1 * ‖z - w‖ := by
          rw [norm_mul, norm_mul]
          gcongr
      _ ≤ n * ‖z - w‖ * 1 + 1 * ‖z - w‖ := by
          gcongr
      _ = (n + 1 : Nat) * ‖z - w‖ := by
          push_cast
          ring

theorem approx_pow (n : Nat) : approx ^ n = ⟨(power n).1 / scale ^ n, (power n).2 / scale ^ n⟩ := by
  induction n with
  | zero => apply Complex.ext <;> simp [power]
  | succ n ih =>
    rw [pow_succ, ih]
    apply Complex.ext
    · simp only [mul_re, approx, power]
      push_cast
      field_simp
      ring
    · simp only [mul_im, approx, power]
      push_cast
      field_simp
      ring

theorem abs_sin_sub_le (n : Nat) :
    |Real.sin n - (power n).2 / scale ^ n| ≤ n * (21 / precision) := by
  have hIm : Real.sin n - (power n).2 / scale ^ n = (exp I ^ n - approx ^ n).im := by
    rw [← Complex.exp_nat_mul, approx_pow, sub_im]
    have h := exp_ofReal_mul_I_im n
    rw [← h]
    simp
  have hUnit : ‖exp I‖ ≤ 1 := by
    have h := norm_exp_ofReal_mul_I 1
    rw [ofReal_one, one_mul] at h
    exact h.le
  calc |Real.sin n - (power n).2 / scale ^ n|
      ≤ ‖exp I ^ n - approx ^ n‖ := by
        rw [hIm]
        exact abs_im_le_norm _
    _ ≤ n * ‖exp I - approx‖ := norm_pow_sub_pow_le hUnit norm_approx_le_one n
    _ ≤ n * (21 / precision) := by
        gcongr
        exact norm_exp_I_sub_approx_le

theorem floor_mul_abs_sin (b n t : Nat)
    (hLow : t * scale ^ n * precision + b * n * 21 * scale ^ n ≤ b * (power n).2.natAbs * precision)
    (hHigh : b * (power n).2.natAbs * precision + b * n * 21 * scale ^ n < (t + 1) * scale ^ n * precision) :
    ⌊b * |Real.sin n|⌋₊ = t := by
  have hScale : (0 : ℝ) < scale ^ n := by
    have h : (0 : ℝ) < scale := by norm_num [scale]
    positivity
  have hPrecision : (0 : ℝ) < precision := by norm_num [precision]
  have hAbs : |(((power n).2 : ℝ) / scale ^ n)| = (power n).2.natAbs / scale ^ n := by
    rw [abs_div, abs_of_pos hScale, Nat.cast_natAbs, Int.cast_abs]
  have hError : |(|Real.sin n|) - (power n).2.natAbs / scale ^ n| ≤ n * (21 / precision) := by
    rw [← hAbs]
    exact (abs_abs_sub_abs_le _ _).trans (abs_sin_sub_le n)
  obtain ⟨hErrorLow, hErrorHigh⟩ := abs_le.1 hError
  have hLow' : (t : ℝ) + b * (n * (21 / precision)) ≤ b * ((power n).2.natAbs / scale ^ n) := by
    have h : (t * scale ^ n * precision + b * n * 21 * scale ^ n : ℝ) ≤
        b * (power n).2.natAbs * precision := by exact_mod_cast hLow
    field_simp
    linarith
  have hHigh' : (b : ℝ) * ((power n).2.natAbs / scale ^ n) + b * (n * (21 / precision)) < t + 1 := by
    have h : (b * (power n).2.natAbs * precision + b * n * 21 * scale ^ n : ℝ) <
        (t + 1) * scale ^ n * precision := by exact_mod_cast hHigh
    field_simp
    linarith
  have hb : (0 : ℝ) ≤ b := Nat.cast_nonneg b
  rw [Nat.floor_eq_iff (by positivity)]
  constructor
  · have h := mul_le_mul_of_nonneg_left hErrorLow hb
    linarith
  · have h := mul_le_mul_of_nonneg_left hErrorHigh hb
    linarith

end CoreX.Sine
