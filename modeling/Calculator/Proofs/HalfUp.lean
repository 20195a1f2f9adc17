import Mathlib
import Calculator.Display
import Calculator.Proofs.Precision

/-!
# Rounding halves upwards

What is displayed, by exact numbers. The floor of a double is the floor of its value, and half up rounding on doubles is half
up rounding (`Binary64.roundHalfUp_exact`), although the distance to the floor is itself rounded: below a half it is exact,
and a half is a double. So a double that is no integer is displayed as the double nearest to a number of units of the tenth decimal
(`Binary64.exists_rounded_eq`).
-/

namespace Calculator

open Magnitude (step)

namespace Magnitude

/-! ## Whole numbers among the doubles -/

/-- The steps in one, on a grid that is finer than the whole numbers. -/
theorem two_pow_mul_step {e : ℕ} (he : e ≤ 1074) : 2 ^ (1074 - e) * step e = 1 := by
  rw [← step_add, Nat.sub_add_cancel he, step_unitPlace]

/-- The whole numbers with at most 53 bits are magnitudes. -/
theorem exists_toRat_eq_natCast {n : ℕ} (hn : n < 2 ^ 53) : ∃ a : Magnitude, a.toRat = n := by
  obtain ⟨a, ha⟩ := exists_toRat_eq hn (show 1074 ≤ 2045 by decide)
  exact ⟨a, by rw [ha, step_unitPlace, mul_one]⟩

/-- From their grid on, all magnitudes are whole numbers. -/
theorem exists_natCast_eq_toRat {a : Magnitude} (h : 1074 ≤ a.exp) : ∃ k : ℕ, a.toRat = k := by
  obtain ⟨j, hj⟩ := Nat.exists_eq_add_of_le' h
  refine ⟨a.mant * 2 ^ j, ?_⟩
  rw [toRat_eq_mul_step, hj, step_add, step_unitPlace]
  push_cast
  ring

/-- A magnitude on a finer grid is less than half of the numbers with 53 bits. -/
theorem toRat_lt_of_exp_lt_unitPlace {a : Magnitude} (h : a.exp < 1074) : a.toRat < 2 ^ 52 := by
  have hmul := toRat_lt_of_exp_lt h
  rwa [step_unitPlace, mul_one] at hmul

end Magnitude

namespace Binary64

/-- The whole numbers with at most 53 bits are doubles. -/
theorem exists_toRat_eq_intCast {n : ℤ} (hn : n.natAbs < 2 ^ 53) : ∃ s a, (finite s a).toRat = n := by
  obtain ⟨a, ha⟩ := Magnitude.exists_toRat_eq_natCast hn
  rw [Nat.cast_natAbs] at ha
  rcases le_total 0 n with h | h
  · exact ⟨false, a, by rw [toRat, if_neg Bool.false_ne_true, ha, abs_of_nonneg h]⟩
  · refine ⟨true, a, ?_⟩
    rw [toRat, if_pos rfl, ha, abs_of_nonpos h, Int.cast_neg, neg_neg]

/-- So rounding does not change them. -/
theorem toRat_nearest_intCast {n : ℤ} (hn : n.natAbs < 2 ^ 53) : (nearest n).toRat = n := by
  obtain ⟨s, a, ha⟩ := exists_toRat_eq_intCast hn
  rw [← ha]
  exact toRat_nearest_toRat s a

/-- The double of a natural number with at most 53 bits. -/
theorem exists_ofNat_eq {n : ℕ} (hn : n < 2 ^ 53) : ∃ a, ofNat n = finite false a ∧ (finite false a).toRat = n := by
  obtain ⟨a, ha⟩ := Magnitude.exists_toRat_eq_natCast hn
  refine ⟨a, ofRatio_of_some _ (Magnitude.ofRatio?_of_toRat_eq Nat.one_pos ?_), ha⟩
  rw [ha, Nat.cast_one, div_one, Nat.cast_mul, mul_div_cancel_right₀ _ Magnitude.unitsInOne_ne_zero]

theorem exists_half_eq : ∃ a, half = finite false a ∧ (finite false a).toRat = 1 / 2 := by
  obtain ⟨a, ha⟩ := Magnitude.exists_toRat_eq (show 1 < 2 ^ 53 by decide) (show 1073 ≤ 2045 by decide)
  have hstep : 2 ^ 1 * step 1073 = 1 := Magnitude.two_pow_mul_step (show 1073 ≤ 1074 by decide)
  have hvalue : a.toRat = 1 / 2 := by
    rw [ha]
    push_cast
    linarith
  refine ⟨a, ofRatio_of_some _ (Magnitude.ofRatio?_of_toRat_eq Nat.two_pos ?_), hvalue⟩
  rw [hvalue, div_right_comm, div_self Magnitude.unitsInOne_ne_zero]
  rfl

/-- The magnitude of an integer is its absolute value. -/
theorem toRat_eq_natAbs {s : Bool} {a : Magnitude} {n : ℤ} (h : (finite s a).toRat = n) : a.toRat = n.natAbs := by
  rw [Nat.cast_natAbs, Int.cast_abs, ← h, abs_toRat_finite, Magnitude.toRat]

/-- A double is an integer if its value is one. -/
theorem isInteger_iff (s : Bool) (a : Magnitude) : (finite s a).isInteger = true ↔ ∃ n : ℤ, (finite s a).toRat = n := by
  have hU := Magnitude.unitsInOne_ne_zero
  have hdvd : (finite s a).isInteger = true ↔ Magnitude.unitsInOne ∣ a.units := by
    rw [isInteger, decide_eq_true_iff, Nat.dvd_iff_mod_eq_zero]
  rw [hdvd, toRat_finite]
  constructor
  · rintro ⟨k, hk⟩
    refine ⟨if s then -k else k, ?_⟩
    rw [div_eq_iff hU, signedUnits, hk]
    split <;> push_cast <;> ring
  · rintro ⟨n, hn⟩
    rw [div_eq_iff hU] at hn
    have hunits : signedUnits s a = n * Magnitude.unitsInOne := by exact_mod_cast hn
    have habs : (signedUnits s a).natAbs = a.units := by cases s <;> simp [signedUnits]
    rw [← habs, hunits, Int.natAbs_mul, Int.natAbs_natCast]
    exact Nat.dvd_mul_left _ _

theorem isInteger_eq_false_iff (s : Bool) (a : Magnitude) :
    (finite s a).isInteger = false ↔ ¬∃ n : ℤ, (finite s a).toRat = n := by
  rw [← isInteger_iff, Bool.not_eq_true]

/-- What is no integer is on a grid finer than the whole numbers. -/
theorem exp_lt_of_not_isInteger {s : Bool} {a : Magnitude} (h : ¬∃ n : ℤ, (finite s a).toRat = n) : a.exp < 1074 := by
  by_contra hexp
  obtain ⟨k, hk⟩ := Magnitude.exists_natCast_eq_toRat (not_lt.1 hexp)
  refine h ⟨if s then -k else k, ?_⟩
  cases s <;> simp [toRat, hk]

theorem abs_intCast_lt_overflowBound {n : ℤ} (hn : n.natAbs < 2 ^ 53) : |(n : ℚ)| < overflowBound := by
  obtain ⟨s, a, ha⟩ := exists_toRat_eq_intCast hn
  rw [← ha]
  exact abs_toRat_lt_overflowBound s a

/-! ## The floor -/

/-- The absolute value of the floor of a double: for a negative one the magnitude is rounded up. -/
def floorCount (s : Bool) (a : Magnitude) : ℕ :=
  if s then (a.units + (Magnitude.unitsInOne - 1)) / Magnitude.unitsInOne else a.units / Magnitude.unitsInOne

theorem floor_toRat (s : Bool) (a : Magnitude) :
    ⌊(finite s a).toRat⌋ = if s then -(floorCount s a : ℤ) else (floorCount s a : ℤ) := by
  have hpos := Magnitude.unitsInOne_pos
  have hpos' : (0 : ℚ) < Magnitude.unitsInOne := Nat.cast_pos.2 hpos
  rw [Int.floor_eq_iff, toRat, Magnitude.toRat, floorCount]
  cases s with
  | false =>
    have hlow := Nat.div_mul_le_self a.units Magnitude.unitsInOne
    have hhigh := Nat.lt_div_mul_add (a := a.units) hpos
    simp only [Bool.false_eq_true, if_false]
    rw [le_div_iff₀ hpos', div_lt_iff₀ hpos', add_one_mul]
    exact ⟨by exact_mod_cast hlow, by exact_mod_cast hhigh⟩
  | true =>
    have hlow := Nat.div_mul_le_self (a.units + (Magnitude.unitsInOne - 1)) Magnitude.unitsInOne
    have hhigh := Nat.lt_div_mul_add (a := a.units + (Magnitude.unitsInOne - 1)) hpos
    simp only [if_true]
    generalize (a.units + (Magnitude.unitsInOne - 1)) / Magnitude.unitsInOne = m at *
    have hle : (a.units : ℚ) / Magnitude.unitsInOne ≤ m := by
      rw [div_le_iff₀ hpos']
      exact_mod_cast (show a.units ≤ m * Magnitude.unitsInOne by omega)
    have hlt : (m : ℚ) < a.units / Magnitude.unitsInOne + 1 := by
      rw [div_add_one hpos'.ne', lt_div_iff₀ hpos']
      exact_mod_cast (show m * Magnitude.unitsInOne < a.units + Magnitude.unitsInOne by omega)
    push_cast
    exact ⟨by linarith, by linarith⟩

theorem natAbs_floor_toRat (s : Bool) (a : Magnitude) : ⌊(finite s a).toRat⌋.natAbs = floorCount s a := by
  rw [floor_toRat]
  cases s with
  | false => rw [if_neg Bool.false_ne_true, Int.natAbs_natCast]
  | true => rw [if_pos rfl, Int.natAbs_neg, Int.natAbs_natCast]

/-- A double that is no integer is between numbers of 52 bits, and so is its floor. -/
theorem abs_toRat_lt_of_not_isInteger {s : Bool} {a : Magnitude} (h : ¬∃ n : ℤ, (finite s a).toRat = n) :
    |(finite s a).toRat| < 2 ^ 52 := by
  rw [abs_toRat_finite]
  exact Magnitude.toRat_lt_of_exp_lt_unitPlace (exp_lt_of_not_isInteger h)

theorem natAbs_floor_lt {s : Bool} {a : Magnitude} (h : ¬∃ n : ℤ, (finite s a).toRat = n) :
    ⌊(finite s a).toRat⌋.natAbs ≤ 2 ^ 52 := by
  obtain ⟨hlow, hhigh⟩ := abs_lt.1 (abs_toRat_lt_of_not_isInteger h)
  have hfloor : -2 ^ 52 ≤ ⌊(finite s a).toRat⌋ := Int.le_floor.2 (by push_cast; exact hlow.le)
  have hfloor' : ⌊(finite s a).toRat⌋ < 2 ^ 52 := Int.floor_lt.2 (by push_cast; exact hhigh)
  omega

/-- It is a magnitude: that of the double itself when it is an integer, and else a number with at most 53 bits. -/
theorem exists_toRat_eq_floorCount (s : Bool) (a : Magnitude) : ∃ b : Magnitude, b.toRat = floorCount s a := by
  rw [← natAbs_floor_toRat]
  by_cases hint : ∃ n : ℤ, (finite s a).toRat = n
  · obtain ⟨n, hn⟩ := hint
    exact ⟨a, by rw [hn, Int.floor_intCast, toRat_eq_natAbs hn]⟩
  · have hbound := natAbs_floor_lt hint
    exact Magnitude.exists_toRat_eq_natCast (by omega)

/-- The floor of a double has the floor of its value. -/
theorem exists_floor_eq (s : Bool) (a : Magnitude) :
    ∃ b, (finite s a).floor = finite s b ∧ (finite s b).toRat = ⌊(finite s a).toRat⌋ := by
  obtain ⟨b, hb⟩ := exists_toRat_eq_floorCount s a
  have hround : Magnitude.ofRatio? (floorCount s a * Magnitude.unitsInOne) 1 = some b := by
    refine Magnitude.ofRatio?_of_toRat_eq Nat.one_pos ?_
    rw [hb, Nat.cast_one, div_one, Nat.cast_mul, mul_div_cancel_right₀ _ Magnitude.unitsInOne_ne_zero]
  refine ⟨b, ofRatio_of_some s hround, ?_⟩
  rw [floor_toRat, toRat, hb]
  cases s <;> simp

/-! ## Half up rounding -/

theorem abs_fract_lt_overflowBound (q : ℚ) : |Int.fract q| < overflowBound := by
  have hone := abs_intCast_lt_overflowBound (show (1 : ℤ).natAbs < 2 ^ 53 by decide)
  rw [abs_of_nonneg (Int.fract_nonneg q)]
  rw [Int.cast_one, abs_one] at hone
  exact (Int.fract_lt_one q).trans hone

/-- A double is a whole number of steps of its grid. -/
theorem exists_toRat_eq_mul_step (s : Bool) (a : Magnitude) : ∃ m : ℤ, (finite s a).toRat = m * step a.exp := by
  cases s with
  | false => exact ⟨a.mant, by rw [toRat, if_neg Bool.false_ne_true, Magnitude.toRat_eq_mul_step, Int.cast_natCast]⟩
  | true =>
    refine ⟨-a.mant, ?_⟩
    rw [toRat, if_pos rfl, Magnitude.toRat_eq_mul_step, Int.cast_neg, Int.cast_natCast, neg_mul]

/-- So is its distance to the floor, if the grid is finer than the whole numbers. -/
theorem exists_fract_eq_mul_step {s : Bool} {a : Magnitude} (h : a.exp ≤ 1074) :
    ∃ k : ℕ, Int.fract (finite s a).toRat = k * step a.exp := by
  have hone := Magnitude.two_pow_mul_step h
  obtain ⟨m, hm⟩ := exists_toRat_eq_mul_step s a
  generalize (finite s a).toRat = v at hm
  have hsteps : Int.fract v = ((m - ⌊v⌋ * 2 ^ (1074 - a.exp) : ℤ) : ℚ) * step a.exp := by
    rw [← Int.self_sub_floor]
    push_cast
    rw [sub_mul, mul_assoc, hone, mul_one, ← hm]
  have hnonneg := Int.fract_nonneg v
  rw [hsteps] at hnonneg ⊢
  obtain ⟨k, hk⟩ := Int.eq_ofNat_of_zero_le (Int.cast_nonneg_iff.1 ((mul_nonneg_iff_of_pos_right (Magnitude.step_pos _)).1 hnonneg))
  exact ⟨k, by rw [hk, Int.cast_natCast]⟩

/-- A distance to the floor of less than a half is not more than the distance to zero: it is this for a number that is not
negative, and a negative number less than a half away from zero is more than a half away from its floor. -/
theorem fract_le_toRat {s : Bool} {a : Magnitude} (h : Int.fract (finite s a).toRat < 1 / 2) :
    Int.fract (finite s a).toRat ≤ a.toRat := by
  have hnonneg := a.toRat_nonneg
  cases s with
  | false =>
    have hfloor : (0 : ℚ) ≤ ⌊a.toRat⌋ := by exact_mod_cast Int.floor_nonneg.2 hnonneg
    rw [toRat_finite_false, ← Int.self_sub_floor]
    linarith
  | true =>
    rw [toRat_finite_true] at h ⊢
    by_contra hgt
    rcases hnonneg.eq_or_lt with hzero | hpos
    · rw [← hzero, neg_zero, Int.fract_zero] at hgt
      exact hgt le_rfl
    · have hfloor : ⌊-a.toRat⌋ = -1 := by
        rw [Int.floor_eq_iff]
        push_cast
        constructor <;> linarith
      rw [← Int.self_sub_floor, hfloor] at h hgt
      push_cast at h hgt
      linarith

/-- A distance to the floor of less than a half is a double. Such a distance and the double are whole numbers of steps of one
grid, and the distance has no more of them. -/
theorem toRat_nearest_fract {s : Bool} {a : Magnitude} (h : Int.fract (finite s a).toRat < 1 / 2) :
    (nearest (Int.fract (finite s a).toRat)).toRat = Int.fract (finite s a).toRat := by
  by_cases hint : ∃ n : ℤ, (finite s a).toRat = n
  · obtain ⟨n, hn⟩ := hint
    rw [hn, Int.fract_intCast, ← Int.cast_zero]
    exact toRat_nearest_intCast (by decide)
  · have hexp := exp_lt_of_not_isInteger hint
    have hle := fract_le_toRat h
    obtain ⟨k, hk⟩ := exists_fract_eq_mul_step (s := s) hexp.le
    have hmant : k < 2 ^ 53 := by
      rw [hk, Magnitude.toRat_eq_mul_step] at hle
      have hkm : k ≤ a.mant := by exact_mod_cast (mul_le_mul_iff_of_pos_right (Magnitude.step_pos _)).1 hle
      exact lt_of_le_of_lt hkm (by simpa using a.mant_lt)
    rw [hk]
    exact toRat_nearest_of_grid hmant (by omega)

/-- The distance to the floor, as it is rounded, is at least a half when it is at least a half. -/
theorem half_le_nearest_fract_iff (s : Bool) (a : Magnitude) :
    1 / 2 ≤ (nearest (Int.fract (finite s a).toRat)).toRat ↔ 1 / 2 ≤ Int.fract (finite s a).toRat := by
  constructor
  · intro h
    by_contra hlt
    rw [toRat_nearest_fract (not_le.1 hlt)] at h
    exact hlt h
  · intro h
    obtain ⟨b, -, hb⟩ := exists_half_eq
    rw [← hb] at h ⊢
    exact toRat_le_toRat_nearest (abs_fract_lt_overflowBound _) h

/-- The distance to the floor, as it is computed. -/
theorem exists_sub_floor_eq (s : Bool) (a : Magnitude) :
    ∃ t b, (finite s a).sub (finite s a).floor = finite t b ∧
      (finite t b).toRat = (nearest (Int.fract (finite s a).toRat)).toRat := by
  obtain ⟨f, hf, hfloor⟩ := exists_floor_eq s a
  have hexact : BinOp.sub.exactResult? (finite s a).toRat (finite s f).toRat = some (Int.fract (finite s a).toRat) := by
    rw [hfloor]
    rfl
  obtain ⟨t, b, hsub, hdist⟩ := BinOp.exists_apply_eq hexact (abs_fract_lt_overflowBound _)
  refine ⟨t, b, ?_, hdist⟩
  rw [hf]
  exact hsub

/-- A distance that is at least a half belongs to no integer, and then the integer above the floor has at most 53 bits. -/
theorem natAbs_floor_add_one_lt {s : Bool} {a : Magnitude} (h : 1 / 2 ≤ Int.fract (finite s a).toRat) :
    (⌊(finite s a).toRat⌋ + 1).natAbs < 2 ^ 53 := by
  have hint : ¬∃ n : ℤ, (finite s a).toRat = n := by
    rintro ⟨n, hn⟩
    rw [hn, Int.fract_intCast] at h
    norm_num at h
  have hbound := natAbs_floor_lt hint
  omega

/-- So one is added to the floor without an error. -/
theorem exists_floor_add_one_eq {s : Bool} {a : Magnitude} (h : 1 / 2 ≤ Int.fract (finite s a).toRat) :
    ∃ t b, (finite s a).floor.add (ofNat 1) = finite t b ∧ (finite t b).toRat = ((⌊(finite s a).toRat⌋ + 1 : ℤ) : ℚ) := by
  obtain ⟨f, hf, hfloor⟩ := exists_floor_eq s a
  obtain ⟨o, ho, hone⟩ := exists_ofNat_eq (show 1 < 2 ^ 53 by decide)
  have hnext := natAbs_floor_add_one_lt h
  have hsum : BinOp.add.exactResult? (finite s f).toRat (finite false o).toRat = some ((⌊(finite s a).toRat⌋ + 1 : ℤ) : ℚ) := by
    rw [hfloor, hone]
    push_cast
    rfl
  obtain ⟨t, b, hadd, hvalue⟩ := BinOp.exists_apply_eq hsum (abs_intCast_lt_overflowBound hnext)
  refine ⟨t, b, ?_, by rw [hvalue, toRat_nearest_intCast hnext]⟩
  rw [hf, ho]
  exact hadd

/-- Half up rounding by the exact distance to the floor. -/
theorem floor_add_half (q : ℚ) : ⌊q + 1 / 2⌋ = if 1 / 2 ≤ Int.fract q then ⌊q⌋ + 1 else ⌊q⌋ := by
  have hsum := Int.floor_add_fract q
  have hnonneg := Int.fract_nonneg q
  have hlt := Int.fract_lt_one q
  split
  · rw [Int.floor_eq_iff]
    push_cast
    constructor <;> linarith
  · rw [Int.floor_eq_iff]
    constructor <;> linarith

/-- Half up rounding on doubles is half up rounding: the result is the greatest integer that is not above the double and a
half more. -/
theorem exists_roundHalfUp_eq (s : Bool) (a : Magnitude) :
    ∃ t b, (finite s a).roundHalfUp = finite t b ∧ (finite t b).toRat = ⌊(finite s a).toRat + 1 / 2⌋ := by
  obtain ⟨h, hh, hhalf⟩ := exists_half_eq
  obtain ⟨u, c, hsub, hdist⟩ := exists_sub_floor_eq s a
  have htest : half.le ((finite s a).sub (finite s a).floor) = true ↔ 1 / 2 ≤ Int.fract (finite s a).toRat := by
    rw [hsub, hh, le_finite_iff, hhalf, hdist, half_le_nearest_fract_iff]
  rw [floor_add_half, roundHalfUp]
  by_cases hup : 1 / 2 ≤ Int.fract (finite s a).toRat
  · obtain ⟨t, b, hadd, hvalue⟩ := exists_floor_add_one_eq hup
    exact ⟨t, b, by rw [if_pos (htest.2 hup), hadd], by rw [hvalue, if_pos hup]⟩
  · obtain ⟨f, hf, hfloor⟩ := exists_floor_eq s a
    exact ⟨s, f, by rw [if_neg (mt htest.1 hup), hf], by rw [hfloor, if_neg hup]⟩

/-- Half up rounding of a finite double is exact, although it is made of two operations that round their results. A distance to
the floor of less than a half is exact, and a greater one is not rounded below a half; then one is added, which is exact. -/
theorem roundHalfUp_exact (s : Bool) (a : Magnitude) :
    (∃ t b, (finite s a).roundHalfUp = finite t b ∧ (finite t b).toRat = ⌊(finite s a).toRat + 1 / 2⌋) ∧
      (Int.fract (finite s a).toRat < 1 / 2 →
        ((finite s a).sub (finite s a).floor).toRat = Int.fract (finite s a).toRat) ∧
      (1 / 2 ≤ Int.fract (finite s a).toRat →
        1 / 2 ≤ ((finite s a).sub (finite s a).floor).toRat ∧
          ((finite s a).floor.add (ofNat 1)).toRat = ⌊(finite s a).toRat⌋ + 1) := by
  obtain ⟨u, c, hsub, hdist⟩ := exists_sub_floor_eq s a
  refine ⟨exists_roundHalfUp_eq s a, fun hdown => ?_, fun hup => ⟨?_, ?_⟩⟩
  · rw [hsub, hdist, toRat_nearest_fract hdown]
  · rw [hsub, hdist]
    exact (half_le_nearest_fract_iff s a).2 hup
  · obtain ⟨t, b, hadd, hvalue⟩ := exists_floor_add_one_eq hup
    rw [hadd, hvalue]
    push_cast
    rfl

/-- The distance from the negative number next to zero to its floor is rounded, to one. -/
example : (finite true (.ofUnits 1 (by decide))).sub (finite true (.ofUnits 1 (by decide))).floor = ofNat 1 := by
  decide +kernel

/-! ## Ten decimals -/

theorem exists_tenDecimals_eq : ∃ a, tenDecimals = finite false a ∧ (finite false a).toRat = 10 ^ 10 := by
  obtain ⟨a, ha, hvalue⟩ := exists_ofNat_eq (show 10000000000 < 2 ^ 53 by decide)
  exact ⟨a, ha, by rw [hvalue]; norm_num⟩

theorem rounded_of_isInteger {x : Binary64} (h : x.isInteger = true) : x.rounded = x := if_pos h

theorem rounded_of_not_isInteger {x : Binary64} (h : x.isInteger = false) :
    x.rounded = ((x.mul tenDecimals).roundHalfUp).div tenDecimals := if_neg (Bool.eq_false_iff.1 h)

/-- The number of ten-decimal units that is displayed: the product with the scale, rounded to a double and then half up. -/
def displayUnits (q : ℚ) : ℤ := ⌊(nearest (q * 10 ^ 10)).toRat + 1 / 2⌋

/-- The product of a double that is no integer and the scale has less than 86 bits before its point. -/
theorem abs_toRat_nearest_scaled_le {q : ℚ} (h : |q| < 2 ^ 52) : |(nearest (q * 10 ^ 10)).toRat| ≤ 2 ^ 86 := by
  obtain ⟨m, hm⟩ := Magnitude.exists_toRat_eq_two_pow (show 86 ≤ 971 by decide)
  rw [← hm]
  refine abs_toRat_nearest_le ?_
  rw [hm, abs_mul, abs_of_pos (show (0 : ℚ) < 10 ^ 10 by norm_num)]
  linarith

theorem abs_scaled_lt_overflowBound {q : ℚ} (h : |q| < 2 ^ 52) : |q * 10 ^ 10| < overflowBound := by
  refine lt_trans ?_ (two_pow_lt_overflowBound (show 86 ≤ 971 by decide))
  rw [abs_mul, abs_of_pos (show (0 : ℚ) < 10 ^ 10 by norm_num)]
  linarith

theorem abs_displayUnits_le {q : ℚ} (h : |q| < 2 ^ 52) : |displayUnits q| ≤ 2 ^ 86 + 1 := by
  obtain ⟨hlow, hhigh⟩ := abs_le.1 (abs_toRat_nearest_scaled_le h)
  rw [abs_le, displayUnits]
  generalize (nearest (q * 10 ^ 10)).toRat = p at hlow hhigh ⊢
  constructor
  · apply Int.le_floor.2
    push_cast
    linarith
  · apply Int.le_of_lt_add_one
    apply Int.floor_lt.2
    push_cast
    linarith

theorem abs_displayUnits_div_lt {q : ℚ} (h : |q| < 2 ^ 52) : |(displayUnits q : ℚ) / 10 ^ 10| < 2 ^ 53 := by
  have habs : |(displayUnits q : ℚ)| ≤ 2 ^ 86 + 1 := by exact_mod_cast abs_displayUnits_le h
  rw [abs_div, abs_of_pos (show (0 : ℚ) < 10 ^ 10 by norm_num), div_lt_iff₀ (by norm_num)]
  linarith

theorem abs_displayUnits_div_lt_overflowBound {q : ℚ} (h : |q| < 2 ^ 52) : |(displayUnits q : ℚ) / 10 ^ 10| < overflowBound :=
  (abs_displayUnits_div_lt h).trans (two_pow_lt_overflowBound (by decide))

/-- A double that is no integer is displayed as the double nearest to its units, divided by the scale. -/
theorem exists_rounded_eq {s : Bool} {a : Magnitude} (h : (finite s a).isInteger = false) :
    ∃ t b, (finite s a).rounded = finite t b ∧
      (finite t b).toRat = (nearest ((displayUnits (finite s a).toRat : ℚ) / 10 ^ 10)).toRat := by
  have hint := (isInteger_eq_false_iff s a).1 h
  have hsmall := abs_toRat_lt_of_not_isInteger hint
  obtain ⟨c, hc, hten⟩ := exists_tenDecimals_eq
  -- the product
  have hmul : BinOp.mul.exactResult? (finite s a).toRat (finite false c).toRat = some ((finite s a).toRat * 10 ^ 10) := by
    rw [hten]
    rfl
  obtain ⟨u, p, hprod, hvalue⟩ := BinOp.exists_apply_eq hmul (abs_scaled_lt_overflowBound hsmall)
  have hprod' : (finite s a).mul (finite false c) = finite u p := hprod
  -- the rounding
  obtain ⟨v, r, hround, hunits⟩ := exists_roundHalfUp_eq u p
  rw [hvalue] at hunits
  -- the quotient
  have hdiv : BinOp.div.exactResult? (finite v r).toRat (finite false c).toRat =
      some ((displayUnits (finite s a).toRat : ℚ) / 10 ^ 10) := by
    rw [hunits, hten]
    exact BinOp.exactResult?_div (by norm_num)
  obtain ⟨t, b, hquot, hresult⟩ := BinOp.exists_apply_eq hdiv (abs_displayUnits_div_lt_overflowBound hsmall)
  have hquot' : (finite v r).div (finite false c) = finite t b := hquot
  refine ⟨t, b, ?_, hresult⟩
  rw [rounded_of_not_isInteger h, hc, hprod', hround, hquot']

end Binary64

end Calculator
