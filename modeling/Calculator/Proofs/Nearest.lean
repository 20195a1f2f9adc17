import Mathlib
import Calculator.Binary64.Value

/-!
# The nearest double

The double that a number is rounded to is the nearest one, a tie going to the even significand, and no other double is
(`Binary64.isNearest_iff`). The grid that the number is rounded on has all the doubles near it: a double that is not on the
grid is below the smallest number of the grid with all its bits, and the number is not (`Magnitude.onGrid_or_lt`).
-/

namespace Calculator

/-! ## Rounding to an integer -/

theorem natCast_div_eq (n : ℕ) {d : ℕ} (hd : 0 < d) : (n : ℚ) / d = (n / d : ℕ) + ((n % d : ℕ) : ℚ) / d := by
  have hd' : (d : ℚ) ≠ 0 := Nat.cast_ne_zero.2 (Nat.ne_of_gt hd)
  rw [eq_comm, ← mul_div_cancel_left₀ ((n / d : ℕ) : ℚ) hd', ← add_div]
  exact_mod_cast congrArg (fun k : ℕ => (k : ℚ) / d) (Nat.div_add_mod n d)

/-- A quotient is rounded by at most a half, and to an even integer if by a half. -/
theorem abs_roundHalfEven_sub_le (n : ℕ) {d : ℕ} (hd : 0 < d) :
    |(roundHalfEven n d : ℚ) - n / d| ≤ 1 / 2 ∧ (|(roundHalfEven n d : ℚ) - n / d| = 1 / 2 → roundHalfEven n d % 2 = 0) := by
  have hd' : (0 : ℚ) < d := Nat.cast_pos.2 hd
  have hnonneg : (0 : ℚ) ≤ ((n % d : ℕ) : ℚ) / d := div_nonneg (Nat.cast_nonneg _) hd'.le
  rw [natCast_div_eq n hd]
  unfold roundHalfEven
  dsimp only
  split
  · rename_i hlt
    have hhalf : ((n % d : ℕ) : ℚ) / d < 1 / 2 := by
      rw [div_lt_div_iff₀ hd' two_pos, one_mul, mul_comm]
      exact_mod_cast hlt
    rw [sub_add_cancel_left, abs_neg, abs_of_nonneg hnonneg]
    exact ⟨hhalf.le, fun h => absurd h hhalf.ne⟩
  · split
    · rename_i hgt
      have hhalf : 1 / 2 < ((n % d : ℕ) : ℚ) / d := by
        rw [div_lt_div_iff₀ two_pos hd', one_mul, mul_comm]
        exact_mod_cast hgt
      have hone : ((n % d : ℕ) : ℚ) / d < 1 := by
        rw [div_lt_one hd']
        exact_mod_cast Nat.mod_lt n hd
      have hdist : |((n / d + 1 : ℕ) : ℚ) - ((n / d : ℕ) + ((n % d : ℕ) : ℚ) / d)| = 1 - ((n % d : ℕ) : ℚ) / d := by
        rw [Nat.cast_add, Nat.cast_one, add_sub_add_left_eq_sub, abs_of_pos (sub_pos.2 hone)]
      rw [hdist]
      exact ⟨by linarith, fun h => by linarith⟩
    · have htie : ((n % d : ℕ) : ℚ) / d = 1 / 2 := by
        rw [div_eq_div_iff hd'.ne' two_ne_zero, one_mul, mul_comm]
        have : 2 * (n % d) = d := by omega
        exact_mod_cast this
      refine ⟨?_, fun _ => by omega⟩
      rw [htie]
      rcases Nat.mod_two_eq_zero_or_one (n / d) with h | h
      · norm_num [h]
      · norm_num [h]

/-- No other integer is nearer than a half to a number that some integer is at most a half away from. -/
theorem half_le_abs_sub {m k : ℕ} {r : ℚ} (hm : |(m : ℚ) - r| ≤ 1 / 2) (hk : k ≠ m) : 1 / 2 ≤ |(k : ℚ) - r| := by
  have hint : (1 : ℤ) ≤ |(k : ℤ) - m| := by
    have hpos : 0 < |(k : ℤ) - m| := abs_pos.2 (sub_ne_zero.2 (by exact_mod_cast hk))
    omega
  have hdist : (1 : ℚ) ≤ |(k : ℚ) - m| := by exact_mod_cast hint
  have htriangle := abs_sub_le (k : ℚ) r m
  rw [abs_sub_comm r] at htriangle
  linarith

/-- An integer that is at most a half away from a number, and even if it is a half away, is nearest to it on any grid;
another one that is as near is odd. -/
theorem nearest_on_grid {m : ℕ} {r g : ℚ} (hg : 0 < g) (hm : |(m : ℚ) - r / g| ≤ 1 / 2)
    (heven : |(m : ℚ) - r / g| = 1 / 2 → m % 2 = 0) (k : ℕ) :
    |m * g - r| ≤ |k * g - r| ∧ (|k * g - r| = |m * g - r| → k ≠ m → m % 2 = 0 ∧ k % 2 = 1) := by
  have hscale : ∀ i : ℕ, |i * g - r| = |(i : ℚ) - r / g| * g := by
    intro i
    rw [← abs_of_pos hg, ← abs_mul, abs_of_pos hg, sub_mul, div_mul_cancel₀ r hg.ne']
  rw [hscale, hscale]
  by_cases hk : k = m
  · rw [hk]
    exact ⟨le_refl _, fun _ hne => absurd rfl hne⟩
  · have hfar := half_le_abs_sub hm hk
    refine ⟨mul_le_mul_of_nonneg_right (hm.trans hfar) hg.le, fun h _ => ?_⟩
    have hsame := mul_right_cancel₀ hg.ne' h
    have hhalf : |(m : ℚ) - r / g| = 1 / 2 := le_antisymm hm (hsame ▸ hfar)
    -- both are a half away, so they are neighbours
    have htriangle := abs_sub_le (k : ℚ) (r / g) m
    rw [abs_sub_comm (r / g), hsame, hhalf] at htriangle
    have hnext : |(k : ℤ) - m| ≤ 1 := by
      have h1 : |(k : ℚ) - m| ≤ 1 := by linarith
      exact_mod_cast h1
    have hmod := heven hhalf
    have hbounds := abs_le.1 hnext
    exact ⟨hmod, by omega⟩

namespace Magnitude

/-! ## The grid of a quotient -/

theorem unitsInOne_pos : 0 < unitsInOne := by
  rw [unitsInOne_eq]
  exact Nat.two_pow_pos _

theorem unitsInOne_ne_zero : (unitsInOne : ℚ) ≠ 0 := Nat.cast_ne_zero.2 (Nat.ne_of_gt unitsInOne_pos)

/-- The distance of neighbours on the grid with an exponent. -/
def step (e : ℕ) : ℚ := 2 ^ e / unitsInOne

theorem step_pos (e : ℕ) : 0 < step e := div_pos (by positivity) (Nat.cast_pos.2 unitsInOne_pos)

theorem step_add (k e : ℕ) : step (k + e) = 2 ^ k * step e := by
  unfold step
  rw [pow_add, mul_div_assoc]

theorem step_mono {e e' : ℕ} (h : e ≤ e') : step e ≤ step e' := by
  obtain ⟨k, rfl⟩ := Nat.exists_eq_add_of_le' h
  rw [step_add]
  exact le_mul_of_one_le_left (step_pos e).le (one_le_pow₀ one_le_two)

/-- The next grid is twice as coarse. -/
theorem two_mul_step_le {e e' : ℕ} (h : e < e') : 2 * step e ≤ step e' := by
  have hnext : 2 * step e = step (1 + e) := by rw [step_add, pow_one]
  rw [hnext]
  exact step_mono (by omega)

theorem step_unitPlace : step 1074 = 1 := by
  unfold step
  rw [unitsInOne_eq, unitPlace, Nat.cast_pow, Nat.cast_ofNat]
  exact div_self (by positivity)

theorem toRat_eq_mul_step (a : Magnitude) : a.toRat = a.mant * step a.exp := by
  unfold toRat step
  rw [units_eq, Nat.cast_mul, Nat.cast_pow, Nat.cast_ofNat, mul_div_assoc]

/-- Half a step above the largest finite double. -/
theorem overflowBound_eq : Binary64.overflowBound = (2 ^ 53 - 1 / 2) * step 2045 := by
  have hstep : step 2045 = 2 * 2 ^ 970 := by
    rw [step_add 971 1074, step_unitPlace, mul_one, pow_succ']
  have hpow : (2 : ℚ) ^ 1024 = 2 ^ 54 * 2 ^ 970 := (pow_add 2 54 970)
  rw [hstep, Binary64.overflowBound, hpow]
  generalize (2 : ℚ) ^ 970 = x
  ring

/-- A grid with an exponent other than zero leaves 53 bits of the quotient. -/
theorem le_of_gridExponent {n d : ℕ} (h : gridExponent n d ≠ 0) :
    2 ^ 52 * step (gridExponent n d) ≤ (n : ℚ) / d / unitsInOne := by
  have hlog : (n / d).log2 = 52 + gridExponent n d := by
    unfold gridExponent at h ⊢
    omega
  have hne : n / d ≠ 0 := by
    intro h0
    rw [h0, Nat.log2_zero] at hlog
    omega
  have hle := Nat.log2_self_le hne
  rw [hlog] at hle
  have hquot : ((n / d : ℕ) : ℚ) ≤ n / d := Nat.cast_div_le
  rw [← step_add]
  unfold step
  refine div_le_div_of_nonneg_right (le_trans ?_ hquot) (Nat.cast_nonneg _)
  exact_mod_cast hle

/-- No grid leaves more. -/
theorem roundHalfEven_gridExponent_le (n d : ℕ) : roundHalfEven n (d <<< gridExponent n d) ≤ 2 ^ 53 := by
  refine le_trans (roundHalfEven_le _ _) (Nat.succ_le_of_lt ?_)
  rw [Nat.shiftLeft_eq, ← Nat.div_div_eq_div_mul, Nat.div_lt_iff_lt_mul (Nat.two_pow_pos _), ← pow_add]
  refine lt_of_lt_of_le Nat.lt_log2_self (Nat.pow_le_pow_right two_pos ?_)
  unfold gridExponent
  omega

/-- A magnitude with a smaller exponent is below the smallest number of a grid with 53 bits. -/
theorem toRat_lt_of_exp_lt {e : ℕ} {b : Magnitude} (h : b.exp < e) : b.toRat < 2 ^ 52 * step e := by
  have hmant : (b.mant : ℚ) < 2 ^ 53 := by exact_mod_cast b.mant_lt
  calc b.toRat = b.mant * step b.exp := toRat_eq_mul_step b
    _ < 2 ^ 53 * step b.exp := mul_lt_mul_of_pos_right hmant (step_pos b.exp)
    _ = 2 ^ 52 * (2 * step b.exp) := by ring
    _ ≤ 2 ^ 52 * step e := mul_le_mul_of_nonneg_left (two_mul_step_le h) (by positivity)

/-- A magnitude is on a grid, where it is even if its significand is, or it is below the smallest number of the grid with 53
bits. -/
theorem onGrid_or_lt (e : ℕ) (b : Magnitude) :
    (∃ k : ℕ, b.toRat = k * step e ∧ (b.mant % 2 = 0 → k % 2 = 0)) ∨ e ≠ 0 ∧ b.toRat < 2 ^ 52 * step e := by
  by_cases h : e ≤ b.exp
  · obtain ⟨k, hk⟩ := Nat.exists_eq_add_of_le' h
    refine Or.inl ⟨b.mant * 2 ^ k, ?_, fun heven => ?_⟩
    · rw [toRat_eq_mul_step, hk, step_add, ← mul_assoc]
      push_cast
      rfl
    · rw [Nat.mul_mod, heven, Nat.zero_mul, Nat.zero_mod]
  · exact Or.inr ⟨by omega, toRat_lt_of_exp_lt (Nat.lt_of_not_le h)⟩

/-- Magnitudes are told by their values: the significand of a greater exponent has all its bits. -/
theorem toRat_injective {a b : Magnitude} (h : a.toRat = b.toRat) : a = b := by
  have hlt : ∀ {a b : Magnitude}, a.exp < b.exp → a.toRat < b.toRat := by
    intro a b hab
    have hfull : 2 ^ 52 ≤ b.mant := by simpa using b.full.resolve_left (by omega)
    have hfull' : (2 : ℚ) ^ 52 ≤ b.mant := by exact_mod_cast hfull
    rw [toRat_eq_mul_step b]
    exact lt_of_lt_of_le (toRat_lt_of_exp_lt hab) (mul_le_mul_of_nonneg_right hfull' (step_pos _).le)
  rcases Nat.lt_trichotomy a.exp b.exp with hab | hab | hab
  · exact absurd h (hlt hab).ne
  · rw [toRat_eq_mul_step, toRat_eq_mul_step, hab] at h
    have hmant : a.mant = b.mant := by exact_mod_cast mul_right_cancel₀ (step_pos b.exp).ne' h
    cases a
    cases b
    cases hab
    cases hmant
    rfl
  · exact absurd h (hlt hab).ne'

/-! ## The nearest magnitude -/

/-- The rounded quotient is at most a half away from the quotient on its grid, and is even if it is a half away. -/
theorem abs_grid_sub_le (n : ℕ) {d : ℕ} (hd : 0 < d) (e : ℕ) {r : ℚ} (hr : r = n / d / unitsInOne) :
    |(roundHalfEven n (d <<< e) : ℚ) - r / step e| ≤ 1 / 2 ∧
      (|(roundHalfEven n (d <<< e) : ℚ) - r / step e| = 1 / 2 → roundHalfEven n (d <<< e) % 2 = 0) := by
  have hgrid : r / step e = n / (d <<< e : ℕ) := by
    rw [hr, step, Nat.shiftLeft_eq, Nat.cast_mul, Nat.cast_pow, Nat.cast_ofNat, ← div_div,
      div_div_div_cancel_right₀ unitsInOne_ne_zero]
  rw [hgrid]
  exact abs_roundHalfEven_sub_le n (by rw [Nat.shiftLeft_eq]; positivity)

/-- On the grid of a quotient, the rounded one is at least as near as every magnitude. It is even if one of another value is
as near, and that one is odd. -/
theorem nearest_of_grid {n d : ℕ} (hd : 0 < d) {r : ℚ} (hr : r = n / d / unitsInOne) (b : Magnitude) :
    let e := gridExponent n d
    let m := roundHalfEven n (d <<< e)
    |m * step e - r| ≤ |b.toRat - r| ∧
      (|b.toRat - r| = |m * step e - r| → b.toRat ≠ m * step e → m % 2 = 0 ∧ b.mant % 2 = 1) := by
  intro e m
  obtain ⟨hhalf, heven⟩ := abs_grid_sub_le n hd e hr
  have hgrid := nearest_on_grid (step_pos e) hhalf heven
  rcases onGrid_or_lt e b with ⟨k, hk, hkeven⟩ | ⟨he, hlt⟩
  · rw [hk]
    refine ⟨(hgrid k).1, fun htie hne => ?_⟩
    obtain ⟨hm, hkodd⟩ := (hgrid k).2 htie fun hkm => hne (by rw [hkm])
    exact ⟨hm, by omega⟩
  · -- the smallest number of the grid with 53 bits is between the magnitude and the quotient
    have hle : 2 ^ 52 * step e ≤ r := hr ▸ le_of_gridExponent he
    have hnear := (hgrid (2 ^ 52)).1
    rw [Nat.cast_pow, Nat.cast_ofNat, abs_of_nonpos (sub_nonpos.2 hle)] at hnear
    have hfar : |b.toRat - r| = -(b.toRat - r) := abs_of_nonpos (by linarith)
    rw [hfar]
    exact ⟨by linarith, fun htie => by linarith⟩

/-- A number that is rounded to a significand is less than a half above the largest one. -/
theorem lt_of_significand_lt {m : ℕ} {x : ℚ} (hm : m < 2 ^ 53) (hhalf : |(m : ℚ) - x| ≤ 1 / 2)
    (heven : |(m : ℚ) - x| = 1 / 2 → m % 2 = 0) : x < 2 ^ 53 - 1 / 2 := by
  by_cases hodd : m % 2 = 0
  · -- an even significand is not the largest one
    have hm2 : m + 2 ≤ 2 ^ 53 := by omega
    have hm2' : (m : ℚ) + 2 ≤ 2 ^ 53 := by exact_mod_cast hm2
    have hle := (abs_le.1 hhalf).1
    linarith
  · -- an odd one is less than a half away
    have hne : |(m : ℚ) - x| ≠ 1 / 2 := fun htie => hodd (heven htie)
    have hlt := (abs_lt.1 (lt_of_le_of_ne hhalf hne)).1
    have hm1 : (m : ℚ) + 1 ≤ 2 ^ 53 := by exact_mod_cast hm
    linarith

/-- A magnitude that a quotient is rounded to has the value of the rounded quotient on its grid, and the quotient is below
the bound. -/
theorem ofRatio?_some {n d : ℕ} (hd : 0 < d) {r : ℚ} (hr : r = n / d / unitsInOne) {a : Magnitude}
    (h : ofRatio? n d = some a) :
    let e := gridExponent n d
    let m := roundHalfEven n (d <<< e)
    a.toRat = m * step e ∧ (m % 2 = 0 → a.mant % 2 = 0) ∧ r < Binary64.overflowBound := by
  intro e m
  have hstep := step_pos e
  obtain ⟨hhalf, heven⟩ := abs_grid_sub_le n hd e hr
  rw [overflowBound_eq]
  unfold ofRatio? at h
  dsimp only at h
  split at h
  · rename_i hm
    split at h
    · rename_i he
      obtain rfl := Option.some.inj h
      refine ⟨toRat_eq_mul_step _, id, ?_⟩
      have hlt := lt_of_significand_lt (by simpa using hm) hhalf heven
      calc r < (2 ^ 53 - 1 / 2) * step e := (div_lt_iff₀ hstep).1 hlt
        _ ≤ (2 ^ 53 - 1 / 2) * step 2045 := mul_le_mul_of_nonneg_left (step_mono he) (by norm_num)
    · cases h
  · rename_i hm
    have hmax : m = 2 ^ 53 := le_antisymm (roundHalfEven_gridExponent_le n d) (by simpa using hm)
    split at h
    · rename_i he
      obtain rfl := Option.some.inj h
      refine ⟨?_, fun _ => (by decide : (1 <<< 52) % 2 = 0), ?_⟩
      · rw [toRat_eq_mul_step, hmax]
        dsimp only
        rw [Nat.add_comm e 1, step_add]
        push_cast
        ring
      · have hstep2 : 2 * step e ≤ step 2045 := two_mul_step_le he
        have hle : -(1 / 2) ≤ (m : ℚ) - r / step e := (abs_le.1 hhalf).1
        rw [hmax] at hle
        have hr' : r ≤ (2 ^ 53 + 1 / 2) * step e := by
          rw [← div_le_iff₀ hstep]
          push_cast at hle
          linarith
        have hpos := step_pos 2045
        linarith
    · cases h

/-- A quotient that no magnitude is nearest to is not below the bound. -/
theorem overflowBound_le {n d : ℕ} (hd : 0 < d) {r : ℚ} (hr : r = n / d / unitsInOne) (h : ofRatio? n d = none) :
    Binary64.overflowBound ≤ r := by
  obtain ⟨hhalf, -⟩ := abs_grid_sub_le n hd (gridExponent n d) hr
  have hstep := step_pos (gridExponent n d)
  rw [overflowBound_eq]
  unfold ofRatio? at h
  dsimp only at h
  split at h
  · rename_i hm
    split at h
    · cases h
    · rename_i he
      have hle := le_of_gridExponent (n := n) (d := d) (by omega)
      have hstep2 : 2 * step 2045 ≤ step (gridExponent n d) := two_mul_step_le (by omega)
      have hpos := step_pos 2045
      rw [← hr] at hle
      linarith
  · rename_i hm
    split at h
    · cases h
    · rename_i he
      have hmax : roundHalfEven n (d <<< gridExponent n d) = 2 ^ 53 :=
        le_antisymm (roundHalfEven_gridExponent_le n d) (by simpa using hm)
      rw [hmax] at hhalf
      have hge : 2 ^ 53 - 1 / 2 ≤ r / step (gridExponent n d) := by
        have hsub := le_trans (le_abs_self _) hhalf
        push_cast at hsub
        linarith
      calc (2 ^ 53 - 1 / 2) * step 2045 ≤ (2 ^ 53 - 1 / 2) * step (gridExponent n d) :=
            mul_le_mul_of_nonneg_left (step_mono (by omega)) (by norm_num)
        _ ≤ r := (le_div_iff₀ hstep).1 hge

/-- The magnitude that a quotient is rounded to is at least as near as every other one. Its significand is even if one of
another value is as near, and the significand of that one is odd. -/
theorem nearest_of_ofRatio? {n d : ℕ} (hd : 0 < d) {r : ℚ} (hr : r = n / d / unitsInOne) {a : Magnitude}
    (h : ofRatio? n d = some a) (b : Magnitude) :
    |a.toRat - r| ≤ |b.toRat - r| ∧
      (|b.toRat - r| = |a.toRat - r| → b.toRat ≠ a.toRat → a.mant % 2 = 0 ∧ b.mant % 2 = 1) := by
  obtain ⟨ha, heven, -⟩ := ofRatio?_some hd hr h
  obtain ⟨hle, htie⟩ := nearest_of_grid hd hr b
  rw [ha]
  refine ⟨hle, fun hsame hne => ?_⟩
  obtain ⟨hm, hb⟩ := htie hsame hne
  exact ⟨heven hm, hb⟩

end Magnitude

/-! ## The nearest double -/

namespace Binary64

theorem abs_eq_natAbs_div_den (q : ℚ) : |q| = q.num.natAbs / q.den := by
  rw [Nat.cast_natAbs, Int.cast_abs, ← Nat.abs_cast q.den, ← abs_div, Rat.num_div_den]

/-- The absolute value of a number, as the quotient of units that is rounded. -/
theorem abs_eq_units_div (q : ℚ) :
    |q| = (q.num.natAbs * Magnitude.unitsInOne : ℕ) / q.den / Magnitude.unitsInOne := by
  rw [abs_eq_natAbs_div_den, Nat.cast_mul, div_div, mul_div_mul_right _ _ Magnitude.unitsInOne_ne_zero]

theorem toRat_finite_false (a : Magnitude) : (finite false a).toRat = a.toRat := rfl

theorem toRat_finite_true (a : Magnitude) : (finite true a).toRat = -a.toRat := rfl

theorem toRat_finite_inj (s : Bool) {a b : Magnitude} : (finite s a).toRat = (finite s b).toRat ↔ a.toRat = b.toRat := by
  cases s <;> simp [toRat]

/-- With the sign of the number, a double is as far from it as its magnitude from the absolute value. -/
theorem abs_toRat_sub (q : ℚ) (a : Magnitude) : |(finite (q < 0) a).toRat - q| = |a.toRat - (|q|)| := by
  by_cases hq : q < 0
  · have hdec : decide (q < 0) = true := decide_eq_true hq
    rw [hdec, toRat, if_pos rfl, abs_of_neg hq, ← abs_neg, neg_sub, sub_neg_eq_add, sub_neg_eq_add, add_comm]
  · have hdec : decide (q < 0) = false := decide_eq_false hq
    rw [hdec, toRat, if_neg Bool.false_ne_true, abs_of_nonneg (not_lt.1 hq)]

/-- With the other sign it is farther, unless one of them is zero. -/
theorem abs_toRat_sub_of_ne (q : ℚ) (a : Magnitude) : |(finite (!decide (q < 0)) a).toRat - q| = a.toRat + |q| := by
  have ha := a.toRat_nonneg
  by_cases hq : q < 0
  · have hdec : decide (q < 0) = true := decide_eq_true hq
    rw [hdec, Bool.not_true, toRat, if_neg Bool.false_ne_true, abs_of_neg hq, ← sub_eq_add_neg]
    exact abs_of_nonneg (by linarith)
  · have hdec : decide (q < 0) = false := decide_eq_false hq
    rw [hdec, Bool.not_false, toRat, if_pos rfl, abs_of_nonneg (not_lt.1 hq), abs_of_nonpos (by linarith)]
    ring

theorem ofRatio_of_none (neg : Bool) {n d : ℕ} (h : Magnitude.ofRatio? n d = none) : ofRatio neg n d = infinite neg := by
  unfold ofRatio
  rw [h]

theorem ofRatio_of_some (neg : Bool) {n d : ℕ} {a : Magnitude} (h : Magnitude.ofRatio? n d = some a) :
    ofRatio neg n d = finite neg a := by
  unfold ofRatio
  rw [h]

/-- A quotient of units is rounded to the nearest double. -/
theorem ofRatio_isNearest {q : ℚ} {n d : ℕ} (hd : 0 < d) (hq : |q| = n / d / Magnitude.unitsInOne) :
    (ofRatio (q < 0) n d).IsNearest q := by
  cases h : Magnitude.ofRatio? n d with
  | none =>
    rw [ofRatio_of_none _ h]
    exact ⟨Magnitude.overflowBound_le hd hq h, rfl⟩
  | some a =>
    obtain ⟨-, -, hlt⟩ := Magnitude.ofRatio?_some hd hq h
    have hnear := Magnitude.nearest_of_ofRatio? hd hq h
    rw [ofRatio_of_some _ h]
    refine ⟨hlt, rfl, fun t b => ?_⟩
    obtain ⟨hle, htie⟩ := hnear b
    rw [abs_toRat_sub]
    by_cases ht : t = decide (q < 0)
    · rw [ht, abs_toRat_sub]
      exact ⟨hle, fun hsame hne => (htie hsame fun hval => hne ((toRat_finite_inj _).2 hval)).1⟩
    · have ht' : t = !decide (q < 0) := Bool.eq_not.2 ht
      have hb := b.toRat_nonneg
      have hq := abs_nonneg q
      have hfar : |b.toRat - (|q|)| ≤ b.toRat + |q| := abs_le.2 ⟨by linarith, by linarith⟩
      rw [ht', abs_toRat_sub_of_ne]
      refine ⟨hle.trans hfar, fun hsame hne => (htie (le_antisymm (hsame ▸ hfar) hle) fun hval => hne ?_).1⟩
      -- at the same distance on both sides of the number, the two magnitudes are zero
      have hzero : a.toRat = 0 := by
        rw [← hval] at hsame ⊢
        have hle := (hnear Magnitude.zero).1
        rw [Magnitude.toRat_zero, zero_sub, abs_neg, abs_abs, ← hval, ← hsame] at hle
        linarith
      simp [toRat, hval, hzero]

/-- Only that double is the nearest one: of two neighbours as near, one has an odd significand. -/
theorem IsNearest.eq_ofRatio {x : Binary64} {q : ℚ} {n d : ℕ} (hd : 0 < d) (hq : |q| = n / d / Magnitude.unitsInOne)
    (hx : x.IsNearest q) : x = ofRatio (q < 0) n d := by
  have hnearest := ofRatio_isNearest hd hq
  cases h : Magnitude.ofRatio? n d with
  | none =>
    have hbound := Magnitude.overflowBound_le hd hq h
    rw [ofRatio_of_none _ h]
    cases x with
    | nan => exact hx.elim
    | infinite neg => rw [hx.2]
    | finite neg b => exact absurd hx.1 (not_lt.2 hbound)
  | some a =>
    obtain ⟨-, -, hlt⟩ := Magnitude.ofRatio?_some hd hq h
    rw [ofRatio_of_some _ h] at hnearest ⊢
    cases x with
    | nan => exact hx.elim
    | infinite neg => exact absurd hlt (not_lt.2 hx.1)
    | finite neg b =>
      obtain ⟨-, rfl, hb⟩ := hx
      have hsame : |b.toRat - (|q|)| = |a.toRat - (|q|)| := by
        have h1 := (hb (q < 0) a).1
        have h2 := (hnearest.2.2 (q < 0) b).1
        rw [abs_toRat_sub, abs_toRat_sub] at h1 h2
        exact le_antisymm h1 h2
      have hval : b.toRat = a.toRat := by
        by_contra hne
        obtain ⟨-, hodd⟩ := (Magnitude.nearest_of_ofRatio? hd hq h b).2 hsame hne
        have htie : |(finite (q < 0) a).toRat - q| = |(finite (q < 0) b).toRat - q| := by
          rw [abs_toRat_sub, abs_toRat_sub, hsame]
        have heven := (hb (q < 0) a).2 htie fun hval => hne ((toRat_finite_inj _).1 hval).symm
        omega
      rw [Magnitude.toRat_injective hval]

/-- Rounding gives the nearest double, and no other double is the nearest one. -/
theorem isNearest_iff (x : Binary64) (q : ℚ) : x.IsNearest q ↔ x = nearest q := by
  constructor
  · exact fun hx => hx.eq_ofRatio q.den_pos (abs_eq_units_div q)
  · rintro rfl
    exact ofRatio_isNearest q.den_pos (abs_eq_units_div q)

end Binary64

end Calculator
