import Mathlib
import Calculator.Decimal.Reader
import Calculator.Decimal.Shortest
import Calculator.Proofs.Layout
import Calculator.Proofs.Precision

/-!
# Displayed doubles read back

The text of a finite double denotes a number that is rounded to the double (`Binary64.readDecimal?_text`). Its digits are
those of a multiple of a power of ten that reads back as the magnitude (`Magnitude.exists_shortest_eq`). If none of the shorter
ones does, seventeen digits do: they are at most half a unit of their last place away, which is less than half the way to any
other magnitude (`Magnitude.readsBack_seventeen`).
-/

namespace Calculator

/-- A power of ten is the quotient of the powers to the two parts of its exponent, of which one is zero. -/
theorem zpow_eq_tenPow (place : ℤ) : (10 : ℚ) ^ place = tenPow place.toNat / tenPow (-place).toNat := by
  have hparts : place = place.toNat - (-place).toNat := by omega
  rw [tenPow_eq, tenPow_eq, ← zpow_natCast, ← zpow_natCast, ← zpow_sub₀ (by norm_num), ← hparts]

/-! ## The digits of a number -/

/-- A positive number is not below the power of ten that its first digit stands for. -/
theorem pow_le_of_length_toDigits {n k : ℕ} (hn : 0 < n) (hk : (Nat.toDigits 10 n).length = k + 1) : 10 ^ k ≤ n := by
  rcases Nat.eq_zero_or_pos k with rfl | hpos
  · exact hn
  · by_contra hlt
    have hle := (Nat.length_toDigits_le_iff (by decide) hpos).2 (Nat.lt_of_not_le hlt)
    omega

/-- It is below the next one. -/
theorem lt_pow_length_toDigits (n : ℕ) : n < 10 ^ (Nat.toDigits 10 n).length :=
  (Nat.length_toDigits_le_iff (by decide) Nat.length_toDigits_pos).1 le_rfl

namespace Decimal

theorem significantDigits_eq (c : ℕ) : significantDigits c = (Nat.toDigits 10 c).rdropWhile (· == '0') := rfl

/-- The digits of a number are its significant ones and then zeros. -/
theorem exists_toDigits_eq (c : ℕ) : ∃ n, Nat.toDigits 10 c = significantDigits c ++ List.replicate n '0' := by
  have hzeros : ∀ a ∈ (Nat.toDigits 10 c).rtakeWhile (· == '0'), a = '0' := by
    intro a ha
    exact beq_iff_eq.1 (List.mem_rtakeWhile_imp (p := (· == '0')) ha)
  refine ⟨((Nat.toDigits 10 c).rtakeWhile (· == '0')).length, ?_⟩
  rw [significantDigits_eq, ← List.eq_replicate_of_mem hzeros, List.rdropWhile_append_rtakeWhile]

/-- A number by what its significant digits write and the zeros after them. -/
theorem exists_eq_mul_ten_pow (c : ℕ) :
    ∃ n, c = Nat.ofDigitChars 10 (significantDigits c) 0 * 10 ^ n ∧
      (Nat.toDigits 10 c).length = (significantDigits c).length + n := by
  obtain ⟨n, hn⟩ := exists_toDigits_eq c
  have hvalue := congrArg (fun l => Nat.ofDigitChars 10 l 0) hn
  simp only [Nat.ofDigitChars_ten_toDigits, Nat.ofDigitChars_append, Nat.ofDigitChars_replicate_zero] at hvalue
  have hlength := congrArg List.length hn
  rw [List.length_append, List.length_replicate] at hlength
  exact ⟨n, hvalue.trans (mul_comm _ _), hlength⟩

theorem isDigit_of_mem_significantDigits {c : ℕ} {a : Char} (h : a ∈ significantDigits c) : a.isDigit = true := by
  rw [significantDigits_eq] at h
  exact Nat.isDigit_of_mem_toDigits (by decide) (by decide) ((List.rdropWhile_prefix _ _).subset h)

/-- Leaving out the zeros at the end of a number does not change what the decimal stands for. -/
theorem toRat_ofScaled (c : ℕ) (place : ℤ) : (ofScaled c place).toRat = c * 10 ^ place := by
  obtain ⟨n, hn, hlength⟩ := exists_eq_mul_ten_pow c
  have hvalue : (c : ℚ) = Nat.ofDigitChars 10 (significantDigits c) 0 * 10 ^ n := by exact_mod_cast hn
  have hplace : ((Nat.toDigits 10 c).length : ℤ) + place - (significantDigits c).length = n + place := by omega
  rw [toRat_eq, ofScaled]
  dsimp only
  rw [hplace, hvalue, zpow_add₀ (by norm_num), zpow_natCast, mul_assoc]

/-- Only zero has no significant digit. -/
theorem significantDigits_ne_nil {c : ℕ} (hc : c ≠ 0) : significantDigits c ≠ [] := by
  intro h
  have hvalue := toRat_ofScaled c 0
  rw [toRat, ofScaled, h, Literal.fractionNumber, zero_mul, zpow_zero, mul_one] at hvalue
  exact hc (by exact_mod_cast hvalue.symm)

end Decimal

namespace Magnitude

variable {x : Magnitude}

/-! ## The size of a magnitude -/

theorem toRat_pos (hx : x.mant ≠ 0) : 0 < x.toRat :=
  lt_of_le_of_ne x.toRat_nonneg (Ne.symm (mt x.toRat_eq_zero_iff.1 hx))

/-- A positive magnitude is not below the power of ten before its exponent. -/
theorem le_toRat_of_decimalExponent (hx : x.mant ≠ 0) : (10 : ℚ) ^ (x.decimalExponent - 1) ≤ x.toRat := by
  -- ten to the power 324 is more than the number of units in one, so the scaled magnitude is at least one
  set n := x.units * tenPow 324 / unitsInOne with hn
  have hone : 0 < n := by
    have hunits : 1 ≤ x.units := Nat.pos_of_ne_zero (mt x.units_eq_zero_iff.1 hx)
    have hscale : unitsInOne ≤ tenPow 324 := by decide +kernel
    exact (Nat.one_le_div_iff unitsInOne_pos).2 (hscale.trans (Nat.le_mul_of_pos_left _ hunits))
  obtain ⟨k, hk⟩ := Nat.exists_eq_add_of_le' (Nat.length_toDigits_pos (b := 10) (n := n))
  have hpow : (10 : ℚ) ^ k ≤ n := by exact_mod_cast pow_le_of_length_toDigits hone hk
  have hplace : x.decimalExponent - 1 = (k : ℤ) - (324 : ℕ) := by
    rw [decimalExponent, ← hn, hk]
    omega
  have hquot : (n : ℚ) ≤ x.toRat * tenPow 324 := by
    have hdiv : (n : ℚ) ≤ (x.units * tenPow 324 : ℕ) / unitsInOne := Nat.cast_div_le
    rwa [Nat.cast_mul, mul_div_right_comm] at hdiv
  rw [hplace, zpow_sub₀ (by norm_num), zpow_natCast, zpow_natCast, ← tenPow_eq 324]
  exact (div_le_iff₀ (Nat.cast_pos.2 (tenPow_pos 324))).2 (hpow.trans hquot)

/-! ## The distance of magnitudes -/

/-- Another magnitude is at least one part in `2 ^ 53` away. -/
theorem toRat_le_mul_abs_sub {a b : Magnitude} (h : b ≠ a) : a.toRat ≤ 2 ^ 53 * |b.toRat - a.toRat| := by
  have hstep := step_pos a.exp
  rcases Nat.lt_or_ge b.exp a.exp with hexp | hexp
  · -- the significand of the greater exponent is full, so the other magnitude is below by a step of its own grid at least
    have hfull : 2 ^ 52 ≤ a.mant := by simpa using a.full.resolve_left (by omega)
    have hfull' : (2 : ℚ) ^ 52 ≤ a.mant := by exact_mod_cast hfull
    have hmant : (b.mant : ℚ) + 1 ≤ 2 ^ 53 := by exact_mod_cast b.mant_lt
    have hle : 2 ^ 53 * step b.exp ≤ a.toRat := by
      calc 2 ^ 53 * step b.exp = 2 ^ 52 * (2 * step b.exp) := by ring
        _ ≤ 2 ^ 52 * step a.exp := mul_le_mul_of_nonneg_left (two_mul_step_le hexp) (by positivity)
        _ ≤ a.mant * step a.exp := mul_le_mul_of_nonneg_right hfull' hstep.le
        _ = a.toRat := (toRat_eq_mul_step a).symm
    have hb : b.toRat + step b.exp ≤ 2 ^ 53 * step b.exp := by
      rw [toRat_eq_mul_step b, ← add_one_mul]
      exact mul_le_mul_of_nonneg_right hmant (step_pos b.exp).le
    have hdist : a.toRat - b.toRat ≤ |b.toRat - a.toRat| := by
      rw [abs_sub_comm]
      exact le_abs_self _
    linarith
  · -- both are on the grid of the smaller exponent
    obtain ⟨k, hk⟩ := Nat.exists_eq_add_of_le' hexp
    have hb : b.toRat = (b.mant * 2 ^ k : ℕ) * step a.exp := by
      rw [toRat_eq_mul_step, hk, step_add, ← mul_assoc]
      push_cast
      rfl
    have hne : ((b.mant * 2 ^ k : ℕ) : ℤ) - a.mant ≠ 0 := by
      intro h0
      have hmant : b.mant * 2 ^ k = a.mant := by omega
      exact h (toRat_injective (by rw [hb, hmant, ← toRat_eq_mul_step]))
    have hone : (1 : ℚ) ≤ |((b.mant * 2 ^ k : ℕ) : ℚ) - a.mant| := by exact_mod_cast Int.one_le_abs hne
    have hmant : (a.mant : ℚ) ≤ 2 ^ 53 := by exact_mod_cast a.mant_lt.le
    rw [hb, toRat_eq_mul_step a, ← sub_mul, abs_mul, abs_of_pos hstep, ← mul_assoc]
    exact mul_le_mul_of_nonneg_right (by linarith) hstep.le

/-- A quotient within one part in `2 ^ 54` of a magnitude is rounded to it. -/
theorem ofRatio?_of_abs_sub_lt {n d : ℕ} (hd : 0 < d) {r : ℚ} (hr : r = n / d / unitsInOne)
    (hnear : |x.toRat - r| < x.toRat / 2 ^ 54) : ofRatio? n d = some x := by
  obtain ⟨hlow, hhigh⟩ := abs_lt.1 hnear
  cases h : ofRatio? n d with
  | none =>
    have hbound := overflowBound_le hd hr h
    have hmax := x.toRat_le_max
    have hstep := step_pos 2045
    rw [overflowBound_eq] at hbound
    linarith
  | some a =>
    by_contra hne
    have ha : a ≠ x := fun h0 => hne (by rw [h0])
    have hfar := toRat_le_mul_abs_sub ha
    have hle := (nearest_of_ofRatio? hd hr h x).1
    have htriangle := abs_sub_le a.toRat r x.toRat
    rw [abs_sub_comm r] at htriangle
    linarith

/-! ## Reading back -/

/-- The number `c * 10 ^ place`, as the quotient of units that is rounded when it is read. -/
theorem scaled_eq (c : ℕ) (place : ℤ) :
    (c : ℚ) * 10 ^ place = (c * tenPow place.toNat * unitsInOne : ℕ) / tenPow (-place).toNat / unitsInOne := by
  have hU := unitsInOne_ne_zero
  rw [zpow_eq_tenPow, Nat.cast_mul, Nat.cast_mul]
  field_simp

theorem readsBack_iff (x : Magnitude) (place : ℤ) (c : ℕ) :
    x.readsBack place c = true ↔ ofRatio? (c * tenPow place.toNat * unitsInOne) (tenPow (-place).toNat) = some x :=
  decide_eq_true_iff

/-- What reads back as a magnitude is rounded to it. -/
theorem nearest_of_readsBack {c : ℕ} {place : ℤ} (h : x.readsBack place c = true) (neg : Bool) (hc : c ≠ 0) :
    Binary64.nearest (if neg then -(c * 10 ^ place) else c * 10 ^ place) = .finite neg x := by
  have hpos : (0 : ℚ) < c * 10 ^ place := mul_pos (Nat.cast_pos.2 (Nat.pos_of_ne_zero hc)) (by positivity)
  have hunits : (c : ℚ) * 10 ^ place * unitsInOne = (c * tenPow place.toNat * unitsInOne : ℕ) / tenPow (-place).toNat := by
    rw [scaled_eq, div_mul_cancel₀ _ unitsInOne_ne_zero]
  rw [readsBack_iff] at h
  cases neg with
  | false =>
    rw [if_neg Bool.false_ne_true, Binary64.nearest_units (tenPow_pos _) (by rw [abs_of_pos hpos, hunits]),
      decide_eq_false hpos.not_gt, Binary64.ofRatio_of_some _ h]
  | true =>
    rw [if_pos rfl, Binary64.nearest_units (tenPow_pos _) (by rw [abs_neg, abs_of_pos hpos, hunits]),
      decide_eq_true (neg_neg_of_pos hpos), Binary64.ofRatio_of_some _ h]

/-- Zero reads back as zero only. -/
theorem ne_zero_of_readsBack {c : ℕ} {place : ℤ} (hx : x.mant ≠ 0) (h : x.readsBack place c = true) : c ≠ 0 := by
  rintro rfl
  rw [readsBack_iff, Nat.zero_mul, Nat.zero_mul, ofRatio?_zero (tenPow_pos _)] at h
  obtain rfl := Option.some.inj h
  exact hx rfl

/-- The integer below a quotient is at most a half away if the remainder is at most half of the divisor, and the next one if
it is at least half. -/
theorem abs_sub_div_le_half {n d m : ℕ} (hd : 0 < d)
    (h : m = n / d ∧ 2 * (n % d) ≤ d ∨ m = n / d + 1 ∧ d ≤ 2 * (n % d)) : |(m : ℚ) - n / d| ≤ 1 / 2 := by
  have hd' : (0 : ℚ) < d := Nat.cast_pos.2 hd
  rw [natCast_div_eq n hd]
  rcases h with ⟨rfl, hle⟩ | ⟨rfl, hge⟩
  · have hhalf : ((n % d : ℕ) : ℚ) / d ≤ 1 / 2 := by
      rw [div_le_div_iff₀ hd' two_pos, one_mul, mul_comm]
      exact_mod_cast hle
    rw [sub_add_cancel_left, abs_neg, abs_of_nonneg (div_nonneg (Nat.cast_nonneg _) hd'.le)]
    exact hhalf
  · have hhalf : 1 / 2 ≤ ((n % d : ℕ) : ℚ) / d := by
      rw [div_le_div_iff₀ two_pos hd', one_mul, mul_comm]
      exact_mod_cast hge
    have hone : ((n % d : ℕ) : ℚ) / d ≤ 1 := by
      rw [div_le_one hd']
      exact_mod_cast (Nat.mod_lt n hd).le
    rw [Nat.cast_add, Nat.cast_one, add_sub_add_left_eq_sub, abs_of_nonneg (sub_nonneg.2 hone)]
    linarith

/-- A magnitude as a multiple of a power of ten, by the quotient that its neighbours are found with. -/
theorem toRat_eq_div_mul (x : Magnitude) (place : ℤ) :
    x.toRat = (x.units * tenPow (-place).toNat : ℕ) / (unitsInOne * tenPow place.toNat : ℕ) * 10 ^ place := by
  have hU := unitsInOne_ne_zero
  have hplus : (tenPow place.toNat : ℚ) ≠ 0 := Nat.cast_ne_zero.2 (tenPow_pos _).ne'
  have hminus : (tenPow (-place).toNat : ℚ) ≠ 0 := Nat.cast_ne_zero.2 (tenPow_pos _).ne'
  rw [zpow_eq_tenPow, toRat]
  push_cast
  field_simp

/-- The nearer neighbour is at most half a unit of its last place away. -/
theorem abs_near_sub_le (x : Magnitude) (place : ℤ) :
    |((x.neighbours place).1 : ℚ) * 10 ^ place - x.toRat| ≤ 10 ^ place / 2 := by
  have hpow : (0 : ℚ) < 10 ^ place := by positivity
  have hvalue := x.toRat_eq_div_mul place
  set n := x.units * tenPow (-place).toNat with hn
  set d := unitsInOne * tenPow place.toNat with hd
  have hhalf : |((x.neighbours place).1 : ℚ) - n / d| ≤ 1 / 2 := by
    apply abs_sub_div_le_half (Nat.mul_pos unitsInOne_pos (tenPow_pos _))
    unfold neighbours
    dsimp only
    rw [← hn, ← hd]
    split
    · rename_i hlt
      exact Or.inl ⟨rfl, hlt.le⟩
    · rename_i hge
      exact Or.inr ⟨rfl, Nat.le_of_not_lt hge⟩
  rw [hvalue, ← sub_mul, abs_mul, abs_of_pos hpow]
  calc |((x.neighbours place).1 : ℚ) - n / d| * 10 ^ place ≤ 1 / 2 * 10 ^ place :=
        mul_le_mul_of_nonneg_right hhalf hpow.le
    _ = 10 ^ place / 2 := by ring

/-- With seventeen digits the nearer neighbour reads back: half a unit of the last place is at most one part in `2 * 10 ^ 16`,
which is less than one part in `2 ^ 54`. -/
theorem readsBack_seventeen (hx : x.mant ≠ 0) :
    x.readsBack (x.decimalExponent - 17) (x.neighbours (x.decimalExponent - 17)).1 = true := by
  have hplace : (10 : ℚ) ^ (x.decimalExponent - 17) * 10 ^ 16 ≤ x.toRat := by
    have hsum : x.decimalExponent - 1 = x.decimalExponent - 17 + (16 : ℕ) := by
      push_cast
      ring
    have hle := le_toRat_of_decimalExponent hx
    rwa [hsum, zpow_add₀ (by norm_num), zpow_natCast] at hle
  have hnear := abs_near_sub_le x (x.decimalExponent - 17)
  rw [abs_sub_comm] at hnear
  have hpos := toRat_pos hx
  rw [readsBack_iff]
  refine ofRatio?_of_abs_sub_lt (tenPow_pos _) (scaled_eq _ _) (lt_of_le_of_lt hnear ?_)
  linarith

/-- The shortest decimal is one that reads back. -/
theorem exists_shortest_eq (hx : x.mant ≠ 0) :
    ∃ c place, x.shortest = Decimal.ofScaled c place ∧ x.readsBack place c = true := by
  rw [shortest]
  cases h : ((List.range 16).map fun i => x.decimalExponent - (i + 1 : ℕ)).findSome? x.decimalOn? with
  | some d =>
    obtain ⟨place, -, hplace⟩ := List.exists_of_findSome?_eq_some h
    obtain ⟨c, hc, rfl⟩ := Option.map_eq_some_iff.1 hplace
    exact ⟨c, place, Option.getD_some, List.find?_some hc⟩
  | none => exact ⟨_, _, Option.getD_none, readsBack_seventeen hx⟩

end Magnitude

/-! ## The text of a double -/

namespace Binary64

/-- The canonical text of a finite double denotes a number, and the double is what this number is rounded to. Only the
negative zero is not: its text has no sign and is read as the other zero. -/
theorem readDecimal?_text (neg : Bool) (a : Magnitude) :
    ∃ q, readDecimal? (finite neg a).text = some q ∧
      ∀ y : Binary64, y.IsNearest q ↔ y = if finite neg a = zero true then zero false else finite neg a := by
  by_cases ha : a.mant = 0
  · have hread : readUnsigned? ['0'] = some 0 := by
      rw [readUnsigned?_literal (by decide), Literal.toRat_digits (by simp)]
      rfl
    have htext : (finite neg a).text = ['0'] := if_pos ha
    rw [htext]
    refine ⟨0, readDecimal?_signText hread false, fun y => ?_⟩
    rw [isNearest_iff, nearest_zero, finite_eq_zero ha]
    cases neg <;> rfl
  · obtain ⟨c, place, hshort, hback⟩ := Magnitude.exists_shortest_eq ha
    have hc := Magnitude.ne_zero_of_readsBack ha hback
    have hread : readUnsigned? a.shortest.canonical = some ((c : ℚ) * 10 ^ place) := by
      rw [hshort, Decimal.readUnsigned?_canonical (fun _ => Decimal.isDigit_of_mem_significantDigits)
        (Decimal.significantDigits_ne_nil hc), Decimal.toRat_ofScaled]
    have hne : finite neg a ≠ zero true := by
      intro h
      cases h
      exact ha rfl
    have htext : (finite neg a).text = signText neg ++ a.shortest.canonical := if_neg ha
    rw [htext]
    refine ⟨_, readDecimal?_signText hread neg, fun y => ?_⟩
    rw [isNearest_iff, Magnitude.nearest_of_readsBack hback neg hc, if_neg hne]

end Binary64

end Calculator
