import Mathlib
import Calculator.Proofs.Rounding

/-!
# Precision of rounding

What rounding to the nearest double does to the order of numbers and to their distances. Rounding keeps the order
(`Binary64.toRat_nearest_mono`) and changes no number that is the value of a double (`Binary64.nearest_toRat`). It moves a
number by at most half a step of the grid that has 53 bits of it (`Binary64.abs_toRat_nearest_sub_le_step`), which is one part
in `2 ^ 53` unless the number is smaller than all magnitudes with a full significand (`Binary64.abs_toRat_nearest_sub_le`).
-/

namespace Calculator

namespace Magnitude

/-- Every number of a grid with at most 53 bits is the value of a magnitude: as long as its leading bit is missing, it is on
the next finer grid too. -/
theorem exists_toRat_eq {k e : ℕ} (hk : k < 2 ^ 53) (he : e ≤ 2045) : ∃ b : Magnitude, b.toRat = k * step e := by
  induction e generalizing k with
  | zero => exact ⟨⟨k, 0, by simpa using hk, Nat.zero_le _, Or.inl rfl⟩, toRat_eq_mul_step _⟩
  | succ e ih =>
    by_cases hfull : 2 ^ 52 ≤ k
    · exact ⟨⟨k, e + 1, by simpa using hk, he, Or.inr (by simpa using hfull)⟩, toRat_eq_mul_step _⟩
    · obtain ⟨b, hb⟩ := ih (k := 2 * k) (by omega) (by omega)
      refine ⟨b, ?_⟩
      rw [hb, Nat.add_comm e 1, step_add]
      push_cast
      ring

/-- A magnitude is not above the largest one. -/
theorem toRat_le_max (a : Magnitude) : a.toRat ≤ (2 ^ 53 - 1) * step 2045 := by
  have hmant : (a.mant : ℚ) + 1 ≤ 2 ^ 53 := by exact_mod_cast a.mant_lt
  rw [toRat_eq_mul_step]
  exact mul_le_mul (by linarith) (step_mono a.exp_le) (step_pos _).le (by norm_num)

theorem toRat_lt_overflowBound (a : Magnitude) : a.toRat < Binary64.overflowBound := by
  have hmax := a.toRat_le_max
  have hstep := step_pos 2045
  rw [overflowBound_eq]
  linarith

/-- The powers of two up to the largest one. -/
theorem exists_toRat_eq_two_pow {n : ℕ} (hn : n ≤ 971) : ∃ a : Magnitude, a.toRat = 2 ^ n := by
  obtain ⟨a, ha⟩ := exists_toRat_eq (show 1 < 2 ^ 53 by decide) (show n + 1074 ≤ 2045 by omega)
  exact ⟨a, by rw [ha, step_add, step_unitPlace, Nat.cast_one, one_mul, mul_one]⟩

/-- A quotient that is the value of a magnitude is rounded to it. -/
theorem ofRatio?_of_toRat_eq {n d : ℕ} (hd : 0 < d) {a : Magnitude} (h : a.toRat = n / d / unitsInOne) :
    ofRatio? n d = some a := by
  cases hr : ofRatio? n d with
  | none => exact absurd a.toRat_lt_overflowBound (not_lt.2 (overflowBound_le hd h hr))
  | some b =>
    have hnear := (nearest_of_ofRatio? hd rfl hr a).1
    rw [← h, sub_self, abs_zero] at hnear
    rw [toRat_injective (sub_eq_zero.1 (abs_eq_zero.1 (le_antisymm hnear (abs_nonneg _))))]

end Magnitude

namespace Binary64

open Magnitude (step)

/-! ## When rounding gives a finite double -/

/-- A finite double has a sign and a magnitude. -/
theorem exists_eq_finite {x : Binary64} (h : x.isFinite = true) : ∃ s a, x = finite s a := by
  cases x with
  | nan => cases h
  | infinite s => cases h
  | finite s a => exact ⟨s, a, rfl⟩

/-- A number is rounded to an infinity from the bound on. -/
theorem isFinite_nearest_eq_false_iff (q : ℚ) : (nearest q).isFinite = false ↔ overflowBound ≤ |q| := by
  have h := (isNearest_iff (nearest q) q).2 rfl
  cases hx : nearest q with
  | nan =>
    rw [hx] at h
    exact h.elim
  | infinite neg =>
    rw [hx] at h
    exact iff_of_true rfl h.1
  | finite neg a =>
    rw [hx] at h
    exact iff_of_false (by simp [isFinite]) (not_le.2 h.1)

theorem overflowBound_pos : 0 < overflowBound := sub_pos.2 (pow_lt_pow_right₀ one_lt_two (by decide))

theorem isFinite_nearest {q : ℚ} (hq : |q| < overflowBound) : (nearest q).isFinite = true := by
  rw [← Bool.not_eq_false, isFinite_nearest_eq_false_iff]
  exact not_le.2 hq

/-- Below the bound, a number is rounded to a finite double with its sign. -/
theorem exists_nearest_eq {q : ℚ} (hq : |q| < overflowBound) : ∃ a, nearest q = finite (q < 0) a := by
  obtain ⟨s, a, hx⟩ := exists_eq_finite (isFinite_nearest hq)
  have hnear := (isNearest_iff _ q).2 hx.symm
  exact ⟨a, by rw [hx, hnear.2.1]⟩

/-- From the bound on, it is rounded to the infinity with its sign. -/
theorem nearest_eq_infinite {q : ℚ} (hq : overflowBound ≤ |q|) : nearest q = infinite (q < 0) := by
  have hnear : (infinite (q < 0)).IsNearest q := ⟨hq, rfl⟩
  exact ((isNearest_iff _ q).1 hnear).symm

theorem abs_toRat_lt_overflowBound (s : Bool) (a : Magnitude) : |(finite s a).toRat| < overflowBound := by
  rw [abs_toRat_finite]
  exact a.toRat_lt_overflowBound

/-! ## Values of doubles -/

/-- The value of a double is rounded to the double. Zero is rounded to the zero without a sign. -/
theorem nearest_toRat {s : Bool} {a : Magnitude} (h : (finite s a).toRat ≠ 0) :
    nearest (finite s a).toRat = finite s a := by
  have habs : |(finite s a).toRat| * Magnitude.unitsInOne = a.units / (1 : ℕ) := by
    rw [abs_toRat_finite, div_mul_cancel₀ _ Magnitude.unitsInOne_ne_zero, Nat.cast_one, div_one]
  have hround : Magnitude.ofRatio? a.units 1 = some a := by
    refine Magnitude.ofRatio?_of_toRat_eq Nat.one_pos ?_
    rw [Nat.cast_one, div_one, Magnitude.toRat]
  rw [nearest_units Nat.one_pos habs, toRat_finite_neg h, ofRatio_of_some s hround]

/-- So rounding does not change it. -/
theorem toRat_nearest_toRat (s : Bool) (a : Magnitude) : (nearest (finite s a).toRat).toRat = (finite s a).toRat := by
  by_cases h : (finite s a).toRat = 0
  · rw [h, nearest_zero, toRat_zero]
  · rw [nearest_toRat h]

/-- A whole multiple of a step is not changed when it has at most 53 bits. -/
theorem toRat_nearest_of_grid {k e : ℕ} (hk : k < 2 ^ 53) (he : e ≤ 2045) :
    (nearest (k * step e)).toRat = k * step e := by
  obtain ⟨b, hb⟩ := Magnitude.exists_toRat_eq hk he
  rw [← hb]
  exact toRat_nearest_toRat false b

/-! ## Order and distance -/

/-- No double is nearer to a number than the one it is rounded to. -/
theorem abs_toRat_nearest_sub_le_abs {q : ℚ} (hq : |q| < overflowBound) (s : Bool) (b : Magnitude) :
    |(nearest q).toRat - q| ≤ |(finite s b).toRat - q| := by
  obtain ⟨a, ha⟩ := exists_nearest_eq hq
  have hnear := (isNearest_iff _ q).2 ha.symm
  rw [ha]
  exact (hnear.2.2 s b).1

/-- A number that is at least as near to the greater one of two is not below their middle. -/
theorem add_le_two_mul {x y q : ℚ} (hxy : y < x) (h : |x - q| ≤ |y - q|) : x + y ≤ 2 * q := by
  have hsq := sq_le_sq.2 h
  by_contra hlt
  nlinarith

/-- One that is at least as near to the smaller one is not above it. -/
theorem two_mul_le_add {x y q : ℚ} (hxy : y < x) (h : |y - q| ≤ |x - q|) : 2 * q ≤ x + y := by
  have hsq := sq_le_sq.2 h
  by_contra hlt
  nlinarith

/-- Rounding keeps the order: if it did not, the smaller number would not be below the middle of the two doubles, and the
greater one not above it. -/
theorem toRat_nearest_mono {p q : ℚ} (hp : |p| < overflowBound) (hq : |q| < overflowBound) (h : p ≤ q) :
    (nearest p).toRat ≤ (nearest q).toRat := by
  obtain ⟨a, ha⟩ := exists_nearest_eq hp
  obtain ⟨b, hb⟩ := exists_nearest_eq hq
  by_contra hgt
  have hp' := abs_toRat_nearest_sub_le_abs hp (q < 0) b
  have hq' := abs_toRat_nearest_sub_le_abs hq (p < 0) a
  rw [← hb] at hp'
  rw [← ha] at hq'
  have hlow := add_le_two_mul (not_le.1 hgt) hp'
  have hhigh := two_mul_le_add (not_le.1 hgt) hq'
  have hsame : p = q := by linarith
  rw [hsame] at hgt
  exact hgt le_rfl

/-- The order of finite doubles is that of their values. -/
theorem le_finite_iff (s t : Bool) (a b : Magnitude) :
    (finite s a).le (finite t b) = true ↔ (finite s a).toRat ≤ (finite t b).toRat := by
  rw [toRat_finite, toRat_finite, div_le_div_iff_of_pos_right (Nat.cast_pos.2 Magnitude.unitsInOne_pos), Int.cast_le]
  exact decide_eq_true_iff

/-- Rounding keeps the order also where it gives infinities. -/
theorem nearest_le_nearest {p q : ℚ} (h : p ≤ q) : (nearest p).le (nearest q) = true := by
  rcases lt_or_ge |p| overflowBound with hp | hp
  · obtain ⟨a, ha⟩ := exists_nearest_eq hp
    rcases lt_or_ge |q| overflowBound with hq | hq
    · obtain ⟨b, hb⟩ := exists_nearest_eq hq
      rw [ha, hb, le_finite_iff, ← ha, ← hb]
      exact toRat_nearest_mono hp hq h
    · -- a negative number that is too large would be below the other one
      have hpos : ¬q < 0 := by
        intro hneg
        rw [abs_of_neg hneg] at hq
        have habs := neg_le_abs p
        linarith
      rw [ha, nearest_eq_infinite hq]
      simp [le, hpos]
  · rw [nearest_eq_infinite hp]
    rcases lt_or_ge |q| overflowBound with hq | hq
    · obtain ⟨b, hb⟩ := exists_nearest_eq hq
      have hneg : p < 0 := by
        by_contra hpos
        rw [abs_of_nonneg (not_lt.1 hpos)] at hp
        have habs := le_abs_self q
        linarith
      rw [hb]
      simp [le, hneg]
    · rw [nearest_eq_infinite hq]
      by_cases hneg : p < 0
      · simp [le, hneg]
      · have hpos : ¬q < 0 := not_lt.2 ((not_lt.1 hneg).trans h)
        simp [le, hpos]

/-- The values of doubles are bounds for rounding: a number that is not below one is not rounded below it. -/
theorem toRat_le_toRat_nearest {s : Bool} {a : Magnitude} {q : ℚ} (hq : |q| < overflowBound) (h : (finite s a).toRat ≤ q) :
    (finite s a).toRat ≤ (nearest q).toRat := by
  rw [← toRat_nearest_toRat s a]
  exact toRat_nearest_mono (abs_toRat_lt_overflowBound s a) hq h

/-- One that is not above one is not rounded above it. -/
theorem toRat_nearest_le_toRat {s : Bool} {a : Magnitude} {q : ℚ} (hq : |q| < overflowBound) (h : q ≤ (finite s a).toRat) :
    (nearest q).toRat ≤ (finite s a).toRat := by
  rw [← toRat_nearest_toRat s a]
  exact toRat_nearest_mono hq (abs_toRat_lt_overflowBound s a) h

/-- A number is not rounded beyond a magnitude that it is not beyond. -/
theorem abs_toRat_nearest_le {q : ℚ} {m : Magnitude} (h : |q| ≤ m.toRat) : |(nearest q).toRat| ≤ m.toRat := by
  have hq := lt_of_le_of_lt h m.toRat_lt_overflowBound
  obtain ⟨hlow, hhigh⟩ := abs_le.1 h
  exact abs_le.2 ⟨toRat_le_toRat_nearest (s := true) hq hlow, toRat_nearest_le_toRat (s := false) hq hhigh⟩

theorem two_pow_lt_overflowBound {n : ℕ} (hn : n ≤ 971) : (2 : ℚ) ^ n < overflowBound := by
  obtain ⟨a, ha⟩ := Magnitude.exists_toRat_eq_two_pow hn
  rw [← ha]
  exact a.toRat_lt_overflowBound

/-- A number is moved by at most half a step of a grid, and that is the finest grid or has 53 bits of the number. -/
theorem exists_abs_toRat_nearest_sub_le {q : ℚ} (hq : |q| < overflowBound) :
    ∃ g, |(nearest q).toRat - q| ≤ step g / 2 ∧ (g = 0 ∨ 2 ^ 52 * step g ≤ |q|) := by
  have habs := abs_eq_units_div q
  set n := q.num.natAbs * Magnitude.unitsInOne
  set g := Magnitude.gridExponent n q.den
  refine ⟨g, ?_, or_iff_not_imp_left.2 fun hg => habs ▸ Magnitude.le_of_gridExponent hg⟩
  cases h : Magnitude.ofRatio? n q.den with
  | none => exact absurd hq (not_lt.2 (Magnitude.overflowBound_le q.den_pos habs h))
  | some a =>
    have hstep := Magnitude.step_pos g
    obtain ⟨ha, -, -⟩ := Magnitude.ofRatio?_some q.den_pos habs h
    obtain ⟨hhalf, -⟩ := Magnitude.abs_grid_sub_le n q.den_pos g habs
    have hnear : nearest q = finite (q < 0) a := ofRatio_of_some _ h
    rw [hnear, abs_toRat_sub, ha]
    calc |(roundHalfEven n (q.den <<< g) : ℚ) * step g - (|q|)|
        = |(roundHalfEven n (q.den <<< g) : ℚ) - |q| / step g| * step g := by
          rw [← abs_of_pos hstep, ← abs_mul, abs_of_pos hstep, sub_mul, div_mul_cancel₀ _ hstep.ne']
      _ ≤ 1 / 2 * step g := mul_le_mul_of_nonneg_right hhalf hstep.le
      _ = step g / 2 := by ring

/-- A number that has at most 53 bits before the end of a grid is moved by at most half a step of this grid. -/
theorem abs_toRat_nearest_sub_le_step {q : ℚ} {e : ℕ} (he : e ≤ 2044) (hq : |q| < 2 ^ 53 * step e) :
    |(nearest q).toRat - q| ≤ step e / 2 := by
  have hbound : |q| < overflowBound := by
    have hstep := Magnitude.two_mul_step_le (show e < 2045 by omega)
    have hpos := Magnitude.step_pos 2045
    rw [Magnitude.overflowBound_eq]
    linarith
  obtain ⟨g, hg, hfull⟩ := exists_abs_toRat_nearest_sub_le hbound
  have hle : g ≤ e := by
    by_contra hlt
    have hstep := Magnitude.two_mul_step_le (not_le.1 hlt)
    have hgrid := hfull.resolve_left (by omega)
    linarith
  have hstep := Magnitude.step_mono hle
  linarith

/-- A number that is not below the least magnitude with a full significand is moved by at most one part in `2 ^ 53`. -/
theorem abs_toRat_nearest_sub_le {q : ℚ} (hlow : 2 ^ 52 * step 0 ≤ |q|) (hq : |q| < overflowBound) :
    |(nearest q).toRat - q| ≤ |q| / 2 ^ 53 := by
  obtain ⟨g, hg, hfull⟩ := exists_abs_toRat_nearest_sub_le hq
  have hgrid : 2 ^ 52 * step g ≤ |q| := by
    rcases hfull with rfl | hfull
    · exact hlow
    · exact hfull
  rw [le_div_iff₀ (by positivity)]
  linarith

end Binary64

theorem BinOp.exactResult?_div {a b : ℚ} (h : b ≠ 0) : BinOp.div.exactResult? a b = some (a / b) := if_neg h

/-- An operation on two finite doubles whose exact result is not too large gives a finite double, with the value of the result
rounded to nearest. -/
theorem BinOp.exists_apply_eq {o : BinOp} {s t : Bool} {a b : Magnitude} {q : ℚ}
    (h : o.exactResult? (Binary64.finite s a).toRat (Binary64.finite t b).toRat = some q)
    (hq : |q| < Binary64.overflowBound) :
    ∃ u c, o.apply (.finite s a) (.finite t b) = .finite u c ∧
      (Binary64.finite u c).toRat = (Binary64.nearest q).toRat := by
  by_cases h0 : q = 0
  · subst h0
    refine ⟨_, _, apply_eq_zero h, ?_⟩
    rw [Binary64.nearest_zero, Binary64.toRat_zero]
    exact Binary64.toRat_zero _
  · obtain ⟨c, hc⟩ := Binary64.exists_nearest_eq hq
    exact ⟨_, c, by rw [apply_eq_nearest h h0, hc], by rw [hc]⟩

end Calculator
