import Mathlib
import Calculator.Proofs.FifteenDigits
import Calculator.Proofs.TenDecimals

/-!
# The accuracy of displayed numbers

The number that is displayed is at most half a unit of the tenth decimal and one part in `2 ^ 50` of the double away from the
double (`Binary64.display_accuracy`). Besides half up rounding there are three errors, each of at most one part in `2 ^ 53` of
what is rounded: those of the product with the scale, of the quotient and of the shortest digits. What is rounded is at most three
times the double (`Binary64.abs_rounded_sub_le`), because a double that is much less than half a unit is displayed as zero.
-/

namespace Calculator

open Magnitude (step)

namespace Binary64

/-! ## The errors -/

/-- The half up rounding of the product with the scale is wrong by at most half a unit, and by the error of the product. -/
theorem abs_displayUnits_sub_le {q : ℚ} (hq : |q| < 2 ^ 52) (h : 3 / 8 < |q * 10 ^ 10|) :
    |(displayUnits q : ℚ) - q * 10 ^ 10| ≤ 1 / 2 + |q * 10 ^ 10| / 2 ^ 53 := by
  have hnormal : 2 ^ 52 * step 0 ≤ |q * 10 ^ 10| := by
    refine (two_pow_mul_step_zero_le (show (-11 : ℤ) ≤ -1 by decide)).trans (le_trans ?_ h.le)
    norm_num
  have hproduct := abs_toRat_nearest_sub_le hnormal (abs_scaled_lt_overflowBound hq)
  have hround := abs_sub_round (nearest (q * 10 ^ 10)).toRat
  rw [displayUnits, ← round_eq]
  generalize (nearest (q * 10 ^ 10)).toRat = p at hproduct hround ⊢
  rw [abs_sub_comm] at hround
  exact (abs_sub_le _ p _).trans (add_le_add hround hproduct)

/-- A double that is at most three eighths of a unit is displayed as zero. -/
theorem displayUnits_of_le {q : ℚ} (h : |q * 10 ^ 10| ≤ 3 / 8) : displayUnits q = 0 := by
  have hgrid : 2 ^ (1074 - 1071) * step 1071 = 1 := Magnitude.two_pow_mul_step (by decide)
  norm_num at hgrid
  obtain ⟨m, hm⟩ := Magnitude.exists_toRat_eq (show 3 < 2 ^ 53 by decide) (show 1071 ≤ 2045 by decide)
  have hvalue : m.toRat = 3 / 8 := by
    rw [hm]
    push_cast
    linarith
  rw [← hvalue] at h
  obtain ⟨hlow, hhigh⟩ := abs_le.1 (abs_toRat_nearest_le h)
  rw [hvalue] at hlow hhigh
  rw [displayUnits, Int.floor_eq_iff]
  generalize (nearest (q * 10 ^ 10)).toRat = p at hlow hhigh ⊢
  push_cast
  constructor <;> linarith

/-- A number of units of the tenth decimal is rounded by at most one part in `2 ^ 53`. -/
theorem abs_toRat_nearest_units_sub_le {n : ℤ} (h : |(n : ℚ) / 10 ^ 10| < overflowBound) :
    |(nearest ((n : ℚ) / 10 ^ 10)).toRat - n / 10 ^ 10| ≤ |(n : ℚ) / 10 ^ 10| / 2 ^ 53 := by
  rcases eq_or_ne n 0 with rfl | hn
  · simp [nearest_zero]
  · have hone : (1 : ℚ) ≤ |(n : ℚ)| := by exact_mod_cast Int.one_le_abs hn
    refine abs_toRat_nearest_sub_le ((two_pow_mul_step_zero_le (show (-11 : ℤ) ≤ -10 by decide)).trans ?_) h
    rw [abs_div, abs_of_pos (show (0 : ℚ) < 10 ^ 10 by norm_num), zpow_neg, ← one_div]
    exact div_le_div_of_nonneg_right hone (by norm_num)

/-! ## Their sum -/

/-- The double that is displayed is near the given one, and not much more than it. -/
theorem abs_rounded_sub_le (s : Bool) (a : Magnitude) :
    |(finite s a).rounded.toRat - (finite s a).toRat| ≤ 1 / 2 / 10 ^ 10 + |(finite s a).toRat| / 2 ^ 51 ∧
      |(finite s a).rounded.toRat| ≤ 3 * |(finite s a).toRat| := by
  have hnonneg := abs_nonneg (finite s a).toRat
  cases hint : (finite s a).isInteger with
  | true =>
    rw [rounded_of_isInteger hint, sub_self, abs_zero]
    constructor
    · positivity
    · linarith
  | false =>
    have hnot := (isInteger_eq_false_iff s a).1 hint
    have hlt := abs_toRat_lt_of_not_isInteger hnot
    have hbound := abs_displayUnits_div_lt_overflowBound hlt
    obtain ⟨t, b, hround, hvalue⟩ := exists_rounded_eq hint
    have hten : (0 : ℚ) < 10 ^ 10 := by norm_num
    rw [hround, hvalue]
    generalize (finite s a).toRat = v at hnonneg hlt hbound ⊢
    rcases le_or_gt |v * 10 ^ 10| (3 / 8) with hsmall | hlarge
    · rw [displayUnits_of_le hsmall, Int.cast_zero, zero_div, nearest_zero, toRat_zero, zero_sub, abs_neg, abs_zero]
      rw [abs_mul, abs_of_pos hten] at hsmall
      constructor <;> linarith
    · have hunits := abs_displayUnits_sub_le hlt hlarge
      have hquotient := abs_toRat_nearest_units_sub_le hbound
      have hscale : (displayUnits v : ℚ) - v * 10 ^ 10 = (displayUnits v / 10 ^ 10 - v) * 10 ^ 10 := by
        rw [sub_mul, div_mul_cancel₀ _ hten.ne']
      rw [hscale, abs_mul, abs_mul, abs_of_pos hten] at hunits
      rw [abs_mul, abs_of_pos hten] at hlarge
      generalize (nearest ((displayUnits v : ℚ) / 10 ^ 10)).toRat = y at hquotient ⊢
      generalize (displayUnits v : ℚ) / 10 ^ 10 = r at hunits hquotient
      have hr := abs_sub_abs_le_abs_sub r v
      have hy := abs_sub_abs_le_abs_sub y r
      have hsum := abs_sub_le y r v
      constructor <;> linarith

/-- The number that is displayed for a finite double is at most half a unit of the tenth decimal and one part in `2 ^ 50` of the
double away from it. -/
theorem display_accuracy (s : Bool) (a : Magnitude) :
    ∃ t q, (finite s a).display = .ok t ∧ readDecimal? t = some q ∧
      |q - (finite s a).toRat| ≤ 1 / 2 * 10 ^ (-10 : ℤ) + 2 ^ (-50 : ℤ) * |(finite s a).toRat| := by
  obtain ⟨t, b, hround, hgrid⟩ := exists_rounded_onGrid s a
  obtain ⟨n, hn⟩ := exists_readDecimal?_of_onGrid t hgrid
  obtain ⟨q, hread, hbound, hvalue⟩ := exists_readDecimal?_text t b
  have hq : q = n / 10 ^ 10 := by
    rw [hread, Option.some.injEq] at hn
    rw [hn, zpow_neg, div_eq_mul_inv]
    rfl
  obtain ⟨hnear, hle⟩ := abs_rounded_sub_le s a
  rw [hround] at hnear hle
  -- the error of the digits is a part of the number they write, and so of the double
  rw [hq] at hbound hvalue
  have hdigits := abs_toRat_nearest_units_sub_le hbound
  rw [hvalue, ← hq] at hdigits
  have hnonneg := abs_nonneg (finite s a).toRat
  have hsize := abs_sub_abs_le_abs_sub q (finite t b).toRat
  have hsum := abs_sub_le q (finite t b).toRat (finite s a).toRat
  rw [abs_sub_comm] at hdigits
  refine ⟨_, q, by rw [display_eq rfl, hround], hread, ?_⟩
  norm_num
  linarith

end Binary64

end Calculator
