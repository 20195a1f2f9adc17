import Mathlib
import Calculator.Proofs.HalfUp
import Calculator.Proofs.Shortest

/-!
# Numbers of fifteen digits

A decimal number of at most fifteen digits is told by the double it is rounded to: half a step of the doubles is less than one
part in `2 ^ 53`, and the units of its last digit are more than two such parts apart. So the double is displayed by these digits
(`Magnitude.shortest_of_nearest`). Rounding to ten decimals keeps the double of a number with ten decimals below `2 ^ 18`
(`Binary64.rounded_nearest`): up to there the errors of the double and of its product with the scale are together less than half
a unit.
-/

namespace Calculator

open Magnitude (step)

namespace Binary64

/-! ## The digits -/

/-- A number that is not too small is at most one part in `2 ^ 53` away from the magnitude it is rounded to. -/
theorem abs_toRat_sub_le_of_nearest {q : ℚ} {x : Magnitude} (hq : 2 ^ 52 * step 0 ≤ q) (hx : nearest q = finite false x) :
    |x.toRat - q| ≤ q / 2 ^ 53 := by
  have hpos : 0 < q := lt_of_lt_of_le (mul_pos (by positivity) (Magnitude.step_pos 0)) hq
  have hbound := ((isNearest_iff _ _).2 hx.symm).1
  have hnear := abs_toRat_nearest_sub_le (by rwa [abs_of_pos hpos]) hbound
  rwa [hx, toRat_finite_false, abs_of_pos hpos] at hnear

/-- So it is not rounded to a zero. -/
theorem mant_ne_zero_of_nearest {q : ℚ} {x : Magnitude} (hq : 2 ^ 52 * step 0 ≤ q) (hx : nearest q = finite false x) :
    x.mant ≠ 0 := by
  have hpos : 0 < q := lt_of_lt_of_le (mul_pos (by positivity) (Magnitude.step_pos 0)) hq
  have hnear := abs_toRat_sub_le_of_nearest hq hx
  intro h0
  rw [x.toRat_eq_zero_iff.2 h0, zero_sub, abs_neg, abs_of_pos hpos] at hnear
  linarith

/-- Two multiples of a number that is not too small are equal if they are rounded to the same double and one is at most fifteen
digits long. -/
theorem eq_of_nearest_eq {c m : ℕ} {u : ℚ} {x : Magnitude} (hu : 2 ^ 52 * step 0 ≤ u) (hc : c < 10 ^ 15) (hc0 : c ≠ 0)
    (hm0 : m ≠ 0) (hcx : nearest (c * u) = finite false x) (hmx : nearest (m * u) = finite false x) : c = m := by
  have hstep := Magnitude.step_pos 0
  have hpos : 0 < u := lt_of_lt_of_le (by positivity) hu
  have hmultiple : ∀ n : ℕ, n ≠ 0 → u ≤ n * u := by
    intro n hn
    exact le_mul_of_one_le_left hpos.le (by exact_mod_cast Nat.pos_of_ne_zero hn)
  have hcu := abs_le.1 (abs_toRat_sub_le_of_nearest (hu.trans (hmultiple c hc0)) hcx)
  have hmu := abs_le.1 (abs_toRat_sub_le_of_nearest (hu.trans (hmultiple m hm0)) hmx)
  have hle : (m : ℚ) - c ≤ (c + m) / 2 ^ 53 := by
    refine le_of_mul_le_mul_right ?_ hpos
    linarith
  have hge : (c : ℚ) - m ≤ (c + m) / 2 ^ 53 := by
    refine le_of_mul_le_mul_right ?_ hpos
    linarith
  have hc' : (c : ℚ) < 10 ^ 15 := by exact_mod_cast hc
  rcases lt_trichotomy c m with hlt | heq | hgt
  · have hnext : (c : ℚ) + 1 ≤ m := by exact_mod_cast hlt
    linarith
  · exact heq
  · have hnext : (m : ℚ) + 1 ≤ c := by exact_mod_cast hgt
    linarith

/-- Ten decimals and one more are far above the numbers without a full significand. -/
theorem two_pow_mul_step_zero_le {place : ℤ} (h : -11 ≤ place) : 2 ^ 52 * step 0 ≤ (10 : ℚ) ^ place := by
  have hmono := Magnitude.step_mono (show 0 ≤ 980 by decide)
  have hone : 2 ^ (1074 - 980) * step 980 = 1 := Magnitude.two_pow_mul_step (by decide)
  have hpow : (10 : ℚ) ^ (-11 : ℤ) ≤ 10 ^ place := zpow_le_zpow_right₀ (by norm_num) h
  refine le_trans ?_ hpow
  norm_num at hone ⊢
  linarith

end Binary64

namespace Decimal

/-- What the significant digits write is below the power of ten of their number. -/
theorem ofDigitChars_significantDigits_lt (c : ℕ) :
    Nat.ofDigitChars 10 (significantDigits c) 0 < 10 ^ (significantDigits c).length := by
  obtain ⟨n, hn, hlength⟩ := exists_eq_mul_ten_pow c
  have hlt := lt_pow_length_toDigits c
  rw [hlength, pow_add] at hlt
  exact Nat.lt_of_mul_lt_mul_right (hn.symm.trans_lt hlt)

end Decimal

namespace Magnitude

variable {x : Magnitude} {c : ℕ} {place : ℤ}

/-- The shortest digits are those of a number of at most fifteen digits, if there is one that reads back. -/
theorem shortest_eq_of_readsBack (hback : x.readsBack place c = true) (hc : c < 10 ^ 15) (hc0 : c ≠ 0) (hplace : -11 ≤ place)
    (hlow : (10 : ℚ) ^ place ≤ x.toRat) : x.shortest = Decimal.ofScaled c place := by
  have hx : x.mant ≠ 0 := by
    intro h0
    rw [x.toRat_eq_zero_iff.2 h0] at hlow
    exact absurd hlow (not_le.2 (by positivity))
  have hexp : place < x.decimalExponent :=
    (zpow_lt_zpow_iff_right₀ (by norm_num)).1 (lt_of_le_of_lt hlow x.toRat_lt_of_decimalExponent)
  obtain ⟨m, place', hshort, hm, hle⟩ := exists_shortest_of_readsBack hx hexp hback
  have hm0 := ne_zero_of_readsBack hx hm
  obtain ⟨k, -, hscale⟩ := exists_mul_zpow_eq hle
  have hvalue : (m : ℚ) * 10 ^ place' = (m * 10 ^ k : ℕ) * 10 ^ place := by
    rw [hscale]
    push_cast
    rfl
  rw [readsBack_iff_nearest] at hback hm
  rw [hvalue] at hm
  have heq := Binary64.eq_of_nearest_eq (Binary64.two_pow_mul_step_zero_le hplace) hc hc0
    (Nat.mul_ne_zero hm0 (by positivity)) hback hm
  rw [hshort]
  refine Decimal.ofScaled_eq_of_eq hm0 ?_
  rw [hvalue, heq]

/-- So a number of at most fifteen digits is displayed as the double it is rounded to. -/
theorem shortest_of_nearest (hx : Binary64.nearest (c * 10 ^ place) = .finite false x) (hc : c < 10 ^ 15) (hc0 : c ≠ 0)
    (hplace : -10 ≤ place) : x.shortest = Decimal.ofScaled c place := by
  have hpow : (0 : ℚ) < 10 ^ place := by positivity
  have hone : (1 : ℚ) ≤ c := by exact_mod_cast Nat.pos_of_ne_zero hc0
  have hnormal := Binary64.two_pow_mul_step_zero_le (show -11 ≤ place by omega)
  have hlow := (abs_le.1 (Binary64.abs_toRat_sub_le_of_nearest (hnormal.trans (le_mul_of_one_le_left hpow.le hone)) hx)).1
  rcases Nat.lt_or_ge 1 c with htwo | hle
  · have htwo' : (2 : ℚ) * 10 ^ place ≤ c * 10 ^ place := mul_le_mul_of_nonneg_right (by exact_mod_cast htwo) hpow.le
    refine shortest_eq_of_readsBack ((readsBack_iff_nearest _ _ _).2 hx) hc hc0 (by omega) ?_
    linarith
  · -- the double of a power of ten may be below it, but not below the next smaller one
    obtain rfl : c = 1 := by omega
    have hprev : (10 : ℚ) ^ place = 10 * 10 ^ (place - 1) := by
      rw [← zpow_one_add₀ (by norm_num), add_sub_cancel]
    have hten : ((10 : ℕ) : ℚ) * 10 ^ (place - 1) = (1 : ℕ) * 10 ^ place := by
      rw [hprev]
      norm_num
    rw [← hten] at hx
    rw [shortest_eq_of_readsBack ((readsBack_iff_nearest _ _ _).2 hx) (by norm_num) (by norm_num) (by omega)
      (by rw [hprev] at hlow; push_cast at hlow; linarith)]
    exact Decimal.ofScaled_eq_of_eq (by norm_num) hten

end Magnitude

namespace Binary64

/-! ## Ten decimals of it -/

/-- Whole numbers with more than 53 bits are rounded to integers, and the others are doubles. -/
theorem isInteger_nearest {n : ℕ} (hn : (n : ℚ) < overflowBound) : (nearest n).isInteger = true := by
  have hbound : |(n : ℚ)| < overflowBound := by rwa [Nat.abs_cast]
  obtain ⟨a, ha⟩ := exists_nearest_eq hbound
  rw [ha, isInteger_iff, ← ha]
  by_contra hint
  rcases Nat.lt_or_ge n (2 ^ 53) with hsmall | hlarge
  · exact hint ⟨n, toRat_nearest_intCast hsmall⟩
  · obtain ⟨m, hm⟩ := Magnitude.exists_toRat_eq_two_pow (show 53 ≤ 971 by decide)
    have hle : (finite false m).toRat ≤ n := by
      rw [toRat_finite_false, hm]
      exact_mod_cast hlarge
    have hge := toRat_le_toRat_nearest hbound hle
    rw [ha] at hint hge
    have hlt := (abs_lt.1 (abs_toRat_lt_of_not_isInteger hint)).2
    rw [toRat_finite_false, hm] at hge
    linarith

/-- The number of units that is displayed for the double of a number with ten decimals below `2 ^ 18`. -/
theorem displayUnits_nearest {q : ℚ} {n : ℤ} (hq : |q| < 2 ^ 18) (hn : q * 10 ^ 10 = n) :
    displayUnits (nearest q).toRat = n := by
  have hgrid : 2 ^ (1074 - 1039) * step 1039 = 1 := Magnitude.two_pow_mul_step (by decide)
  have hgrid' : 2 ^ (1074 - 1073) * step 1073 = 1 := Magnitude.two_pow_mul_step (by decide)
  norm_num at hgrid hgrid'
  obtain ⟨m, hm⟩ := Magnitude.exists_toRat_eq_two_pow (show 18 ≤ 971 by decide)
  -- the error of the double
  have herror := abs_toRat_nearest_sub_le_step (q := q) (e := 1039) (by decide) (by linarith)
  have hle := abs_toRat_nearest_le (q := q) (m := m) (by rw [hm]; exact hq.le)
  rw [hm] at hle
  generalize (nearest q).toRat = x at herror hle ⊢
  -- the error of the product
  have hprod : |x * 10 ^ 10| < 2 ^ 53 * step 1073 := by
    rw [abs_mul, abs_of_pos (show (0 : ℚ) < 10 ^ 10 by norm_num)]
    linarith
  have herror' := abs_toRat_nearest_sub_le_step (by decide) hprod
  rw [displayUnits]
  generalize (nearest (x * 10 ^ 10)).toRat = p at herror' ⊢
  obtain ⟨hlow, hhigh⟩ := abs_le.1 herror
  obtain ⟨hlow', hhigh'⟩ := abs_le.1 herror'
  rw [Int.floor_eq_iff, ← hn]
  constructor <;> linarith

/-- A double other than the negative zero is told by its value. -/
theorem eq_of_toRat_eq {s t : Bool} {a b : Magnitude} (h : (finite s a).toRat = (finite t b).toRat)
    (h0 : (finite t b).toRat ≠ 0) : finite s a = finite t b := by
  rw [← nearest_toRat h0, ← h, nearest_toRat (by rwa [h])]

/-- The double of a number with ten decimals below `2 ^ 18` is displayed as it is. -/
theorem rounded_nearest {q : ℚ} {n : ℤ} (hq : |q| < 2 ^ 18) (hn : q * 10 ^ 10 = n) :
    (nearest q).rounded = nearest q := by
  obtain ⟨a, ha⟩ := exists_nearest_eq (hq.trans (two_pow_lt_overflowBound (show 18 ≤ 971 by decide)))
  cases hint : (nearest q).isInteger with
  | true => exact rounded_of_isInteger hint
  | false =>
    have hunits := displayUnits_nearest hq hn
    rw [ha] at hint hunits ⊢
    obtain ⟨t, b, hround, hvalue⟩ := exists_rounded_eq hint
    rw [hunits, ← hn, mul_div_cancel_right₀ _ (by norm_num), ha] at hvalue
    have h0 : (finite (decide (q < 0)) a).toRat ≠ 0 := by
      intro h0
      rw [(isInteger_iff _ a).2 ⟨0, by rw [h0, Int.cast_zero]⟩] at hint
      cases hint
    rw [hround, eq_of_toRat_eq hvalue h0]

end Binary64

end Calculator
