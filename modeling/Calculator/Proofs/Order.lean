import Mathlib
import Calculator.Proofs.Canonical
import Calculator.Proofs.FifteenDigits

/-!
# The order of displayed numbers

Displaying keeps the order of doubles (`display_mono`). Rounding, the floor and reading keep it, so only an integer beside a
double that is none needs a look: the one is displayed as it is, the other is scaled, rounded and scaled back, which may move
it. It is not moved beyond the integers around it (`Binary64.rounded_between`): its distance to them is at least a step of its
grid, and the error of the product with the scale is less than the scaled step.
-/

namespace Calculator

open Magnitude (step)

namespace Binary64

/-! ## Between two integers -/

/-- The distances of a double that is no integer to the integers around it are not less than a step of its grid. -/
theorem step_le_fract {s : Bool} {a : Magnitude} (h : ¬∃ n : ℤ, (finite s a).toRat = n) :
    step a.exp ≤ Int.fract (finite s a).toRat ∧ Int.fract (finite s a).toRat ≤ 1 - step a.exp := by
  have hstep := Magnitude.step_pos a.exp
  have hexp := exp_lt_of_not_isInteger h
  have hone := Magnitude.two_pow_mul_step hexp.le
  obtain ⟨k, hk⟩ := exists_fract_eq_mul_step (s := s) hexp.le
  have hlt := Int.fract_lt_one (finite s a).toRat
  have hpos : 0 < Int.fract (finite s a).toRat := by
    refine lt_of_le_of_ne (Int.fract_nonneg _) fun h0 => h ⟨⌊(finite s a).toRat⌋, ?_⟩
    rw [← Int.floor_add_fract (finite s a).toRat, ← h0]
    simp
  rw [hk] at hlt hpos ⊢
  rw [← hone] at hlt ⊢
  have hlow : (1 : ℚ) ≤ k := by
    have hk0 : 0 < k := by exact_mod_cast (mul_pos_iff_of_pos_right hstep).1 hpos
    exact_mod_cast hk0
  have hhigh : (k : ℚ) + 1 ≤ 2 ^ (1074 - a.exp) := by
    have hk1 : k < 2 ^ (1074 - a.exp) := by exact_mod_cast (mul_lt_mul_iff_of_pos_right hstep).1 hlt
    exact_mod_cast hk1
  refine ⟨le_mul_of_one_le_left hstep.le hlow, ?_⟩
  have hmul := mul_le_mul_of_nonneg_right hhigh hstep.le
  linarith

/-- The product with the scale is rounded by less than a scaled step. -/
theorem abs_toRat_nearest_scaled_sub_lt {s : Bool} {a : Magnitude} (h : a.exp < 1074) :
    |(nearest ((finite s a).toRat * 10 ^ 10)).toRat - (finite s a).toRat * 10 ^ 10| < step a.exp * 10 ^ 10 := by
  have hstep := Magnitude.step_pos a.exp
  have hcoarse : step (34 + a.exp) = 2 ^ 34 * step a.exp := Magnitude.step_add 34 a.exp
  have hmant : (a.mant : ℚ) < 2 ^ 53 := by exact_mod_cast a.mant_lt
  have hvalue : |(finite s a).toRat| < 2 ^ 53 * step a.exp := by
    rw [abs_toRat_finite, ← Magnitude.toRat, Magnitude.toRat_eq_mul_step]
    exact mul_lt_mul_of_pos_right hmant hstep
  have hproduct : |(finite s a).toRat * 10 ^ 10| < 2 ^ 53 * step (34 + a.exp) := by
    rw [abs_mul, abs_of_pos (show (0 : ℚ) < 10 ^ 10 by norm_num), hcoarse]
    linarith
  refine (abs_toRat_nearest_sub_le_step (by omega) hproduct).trans_lt ?_
  rw [hcoarse]
  linarith

/-- So the units that are displayed are not beyond those of the integers around the double. -/
theorem floor_le_displayUnits {s : Bool} {a : Magnitude} (h : ¬∃ n : ℤ, (finite s a).toRat = n) :
    ⌊(finite s a).toRat⌋ * 10 ^ 10 ≤ displayUnits (finite s a).toRat ∧
      displayUnits (finite s a).toRat ≤ (⌊(finite s a).toRat⌋ + 1) * 10 ^ 10 := by
  obtain ⟨hlow, hhigh⟩ := step_le_fract h
  obtain ⟨herror, herror'⟩ := abs_lt.1 (abs_toRat_nearest_scaled_sub_lt (s := s) (exp_lt_of_not_isInteger h))
  have hsum := Int.floor_add_fract (finite s a).toRat
  rw [displayUnits]
  generalize (nearest ((finite s a).toRat * 10 ^ 10)).toRat = p at herror herror' ⊢
  constructor
  · apply Int.le_floor.2
    push_cast
    linarith
  · apply Int.le_of_lt_add_one
    apply Int.floor_lt.2
    push_cast
    linarith

/-- Neither is the double that is displayed. -/
theorem rounded_between {s : Bool} {a : Magnitude} (h : (finite s a).isInteger = false) :
    ⌊(finite s a).toRat⌋ ≤ (finite s a).rounded.toRat ∧ (finite s a).rounded.toRat ≤ ⌊(finite s a).toRat⌋ + 1 := by
  have hint := (isInteger_eq_false_iff s a).1 h
  have hfloor := natAbs_floor_lt hint
  have hunits := abs_displayUnits_div_lt_overflowBound (abs_toRat_lt_of_not_isInteger hint)
  obtain ⟨hlow, hhigh⟩ := floor_le_displayUnits hint
  obtain ⟨t, b, hround, hvalue⟩ := exists_rounded_eq h
  rw [hround, hvalue]
  generalize ⌊(finite s a).toRat⌋ = n at hfloor hlow hhigh ⊢
  generalize displayUnits (finite s a).toRat = k at hunits hlow hhigh ⊢
  have hten : (0 : ℚ) < 10 ^ 10 := by norm_num
  constructor
  · rw [← toRat_nearest_intCast (show n.natAbs < 2 ^ 53 by omega)]
    refine toRat_nearest_mono (abs_intCast_lt_overflowBound (by omega)) hunits ?_
    rw [le_div_iff₀ hten]
    exact_mod_cast hlow
  · rw [← Int.cast_one, ← Int.cast_add, ← toRat_nearest_intCast (show (n + 1).natAbs < 2 ^ 53 by omega)]
    refine toRat_nearest_mono hunits (abs_intCast_lt_overflowBound (by omega)) ?_
    rw [div_le_iff₀ hten]
    exact_mod_cast hhigh

/-! ## The order -/

/-- Scaling, rounding to a double and half up rounding keep the order. -/
theorem displayUnits_mono {p q : ℚ} (hp : |p| < 2 ^ 52) (hq : |q| < 2 ^ 52) (h : p ≤ q) :
    displayUnits p ≤ displayUnits q := by
  have hscaled := mul_le_mul_of_nonneg_right h (show (0 : ℚ) ≤ 10 ^ 10 by norm_num)
  have hmono := toRat_nearest_mono (abs_scaled_lt_overflowBound hp) (abs_scaled_lt_overflowBound hq) hscaled
  exact Int.floor_le_floor (add_le_add_left hmono _)

/-- The doubles that are displayed are in the order of the doubles they are displayed for. -/
theorem rounded_mono {s t : Bool} {a b : Magnitude} (h : (finite s a).toRat ≤ (finite t b).toRat) :
    (finite s a).rounded.toRat ≤ (finite t b).rounded.toRat := by
  cases ha : (finite s a).isInteger with
  | true =>
    rw [rounded_of_isInteger ha]
    cases hb : (finite t b).isInteger with
    | true => rwa [rounded_of_isInteger hb]
    | false =>
      -- an integer that is not above a double is not above its floor
      obtain ⟨n, hn⟩ := (isInteger_iff s a).1 ha
      rw [hn] at h ⊢
      have hfloor : (n : ℚ) ≤ ⌊(finite t b).toRat⌋ := by exact_mod_cast Int.le_floor.2 h
      exact hfloor.trans (rounded_between hb).1
  | false =>
    have hint := (isInteger_eq_false_iff s a).1 ha
    cases hb : (finite t b).isInteger with
    | true =>
      -- a double that is no integer and not above one has its floor below it
      obtain ⟨n, hn⟩ := (isInteger_iff t b).1 hb
      rw [rounded_of_isInteger hb, hn]
      rw [hn] at h
      have hlt : (finite s a).toRat < n := lt_of_le_of_ne h fun heq => hint ⟨n, heq⟩
      have hfloor : (⌊(finite s a).toRat⌋ : ℚ) + 1 ≤ n := by exact_mod_cast Int.floor_lt.2 hlt
      exact (rounded_between ha).2.trans hfloor
    | false =>
      have hint' := (isInteger_eq_false_iff t b).1 hb
      have hsmall := abs_toRat_lt_of_not_isInteger hint
      have hsmall' := abs_toRat_lt_of_not_isInteger hint'
      obtain ⟨u, c, hround, hvalue⟩ := exists_rounded_eq ha
      obtain ⟨v, d, hround', hvalue'⟩ := exists_rounded_eq hb
      rw [hround, hround', hvalue, hvalue']
      refine toRat_nearest_mono (abs_displayUnits_div_lt_overflowBound hsmall) (abs_displayUnits_div_lt_overflowBound hsmall') ?_
      exact div_le_div_of_nonneg_right (by exact_mod_cast displayUnits_mono hsmall hsmall' h) (by norm_num)

/-- Doubles of one value have one text. -/
theorem text_eq_of_toRat_eq {s t : Bool} {a b : Magnitude} (h : (finite s a).toRat = (finite t b).toRat) :
    (finite s a).text = (finite t b).text := by
  by_cases h0 : (finite t b).toRat = 0
  · have ha := (toRat_finite_eq_zero_iff s a).1 (h.trans h0)
    have hb := (toRat_finite_eq_zero_iff t b).1 h0
    rw [text, text, if_pos ha, if_pos hb]
  · rw [eq_of_toRat_eq h h0]

/-- The numbers that texts of doubles denote are in the order of the doubles, since reading keeps the order of numbers. -/
theorem le_of_readDecimal?_text {s t : Bool} {a b : Magnitude} {p q : ℚ} (h : (finite s a).toRat ≤ (finite t b).toRat)
    (hp : readDecimal? (finite s a).text = some p) (hq : readDecimal? (finite t b).text = some q) : p ≤ q := by
  obtain ⟨p', hp', hpbound, hpvalue⟩ := exists_readDecimal?_text s a
  obtain ⟨q', hq', hqbound, hqvalue⟩ := exists_readDecimal?_text t b
  obtain rfl : p = p' := Option.some.inj (hp.symm.trans hp')
  obtain rfl : q = q' := Option.some.inj (hq.symm.trans hq')
  by_contra hlt
  have hmono := toRat_nearest_mono hqbound hpbound (not_le.1 hlt).le
  rw [hpvalue, hqvalue] at hmono
  have hsame : (finite s a).text = (finite t b).text := text_eq_of_toRat_eq (le_antisymm h hmono)
  rw [hsame, hq] at hp
  exact hlt (Option.some.inj hp).ge

end Binary64

/-- The numbers that are displayed for two finite doubles are in the order of the doubles, also if one of them is an integer,
which is displayed as it is, and the other one is rounded to ten decimals. -/
theorem display_mono {x y : Binary64} (hx : x.isFinite = true) (hy : y.isFinite = true) (h : x.le y = true) :
    ∃ t u p q, x.display = .ok t ∧ y.display = .ok u ∧ readDecimal? t = some p ∧ readDecimal? u = some q ∧ p ≤ q := by
  obtain ⟨s, a, rfl⟩ := Binary64.exists_eq_finite hx
  obtain ⟨t, b, rfl⟩ := Binary64.exists_eq_finite hy
  have hmono := Binary64.rounded_mono ((Binary64.le_finite_iff s t a b).1 h)
  obtain ⟨u, c, hround⟩ := Binary64.exists_rounded_eq_finite s a
  obtain ⟨v, d, hround'⟩ := Binary64.exists_rounded_eq_finite t b
  rw [hround, hround'] at hmono
  obtain ⟨p, hp, -⟩ := Binary64.exists_readDecimal?_text u c
  obtain ⟨q, hq, -⟩ := Binary64.exists_readDecimal?_text v d
  exact ⟨_, _, p, q, by rw [display_eq hx, hround], by rw [display_eq hy, hround'], hp, hq,
    Binary64.le_of_readDecimal?_text hmono hp hq⟩

/-- A double in the middle of two integers, and the upper one. -/
def Binary64.belowMovedUp : Binary64 := Literal.value "4503599627370405.5".toList

def Binary64.movedUp : Binary64 := Literal.value "4503599627370406".toList

/-- The rounding moves the first as far as the second, and not beyond it. -/
theorem display_mono_movedUp :
    Binary64.belowMovedUp.isFinite = true ∧ Binary64.movedUp.isFinite = true ∧
      Binary64.belowMovedUp.le Binary64.movedUp = true ∧
      Binary64.belowMovedUp.display = .ok "4503599627370406".toList ∧
      ∃ t u p q, Binary64.belowMovedUp.display = .ok t ∧ Binary64.movedUp.display = .ok u ∧
        readDecimal? t = some p ∧ readDecimal? u = some q ∧ p ≤ q := by
  have hx : Binary64.belowMovedUp.isFinite = true := by decide +kernel
  have hy : Binary64.movedUp.isFinite = true := by decide +kernel
  have h : Binary64.belowMovedUp.le Binary64.movedUp = true := by decide +kernel
  exact ⟨hx, hy, h, by decide +kernel, display_mono hx hy h⟩

end Calculator
