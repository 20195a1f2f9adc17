import Mathlib
import Calculator.Proofs.FifteenDigits
import Calculator.Proofs.TenDecimals

/-!
# The fewest digits

The text of a double has the fewest significant digits that are read as it, and of the decimals with as many none that is read
as it is nearer (`Binary64.text_fewestDigits`). The search tries the grids of one digit, of two and so on. A decimal of so many
digits is on the grid, unless it is below the greatest power of ten that is not above the double; then this power is on the grid,
is read as the double too and is nearer (`Magnitude.exists_readsBack_on`).
-/

namespace Calculator

open Text

namespace Decimal

variable {d : Decimal}

/-! ## The significant digits of a text -/

/-- A number that is not above a power of ten has no more digits than there are places from this power to the place of the
number. -/
theorem length_digits_ofScaled_le {c : ℕ} {place n : ℤ} (hc : c ≠ 0) (hplace : place < n) (h : (c : ℚ) * 10 ^ place ≤ 10 ^ n) :
    ((ofScaled c place).digits.length : ℤ) ≤ n - place := by
  rcases h.eq_or_lt with heq | hlt
  · have hone : ofScaled c place = ofScaled 1 n := ofScaled_eq_of_eq hc (by rw [heq, Nat.cast_one, one_mul])
    have hlength : (ofScaled 1 n).digits.length = 1 := rfl
    rw [hone, hlength]
    omega
  · have hfirst := (zpow_lt_zpow_iff_right₀ (by norm_num)).1 ((le_of_ofScaled hc place).trans_lt hlt)
    have hlast := le_lastPlace_ofScaled c place
    rw [lastPlace] at hlast
    omega

/-- A number with the digits of a decimal needs no more than these, whatever its sign. -/
theorem hasDigits_of_abs_eq {c : ℕ} {place : ℤ} {q : ℚ} (h : |q| = (ofScaled c place).toRat) :
    HasDigits (ofScaled c place).digits.length q := by
  obtain ⟨n, p, hn, hvalue⟩ : ∃ (n : ℕ) (p : ℤ), n < 10 ^ (ofScaled c place).digits.length ∧
      (ofScaled c place).toRat = n * 10 ^ p :=
    ⟨_, _, ofDigitChars_significantDigits_lt c, toRat_eq _⟩
  rw [hvalue] at h
  rcases eq_or_eq_neg_of_abs_eq h with rfl | rfl
  · refine ⟨n, p, by rw [Int.cast_natCast], ?_⟩
    rw [Nat.abs_cast]
    exact_mod_cast hn
  · refine ⟨-n, p, by rw [Int.cast_neg, Int.cast_natCast, neg_mul], ?_⟩
    rw [abs_neg, Nat.abs_cast]
    exact_mod_cast hn

/-- The digits of a normal decimal are significant, and zeros around them are not. -/
theorem Normal.significant_eq (h : d.Normal) {t : List Char} {y z : ℕ}
    (ht : (t.takeWhile (· != 'e')).filter Char.isDigit = List.replicate y '0' ++ (d.digits ++ List.replicate z '0')) :
    significant t = d.digits := by
  have hzeros : ∀ n : ℕ, ∀ a ∈ List.replicate n '0', (a == '0') = true := fun _ _ => beq_zero_of_mem_replicate
  obtain ⟨c, v, hcv, hc, -⟩ := h.exists_eq_cons
  obtain ⟨w, b, hwb, hb, -⟩ := h.exists_eq_append
  have hfront : (d.digits ++ List.replicate z '0').dropWhile (· == '0') = d.digits ++ List.replicate z '0' := by
    rw [hcv, List.cons_append, List.dropWhile_cons_of_neg (by simpa using hc.2)]
  have hback : (List.replicate z '0' ++ d.digits.reverse).dropWhile (· == '0') = d.digits.reverse := by
    rw [List.dropWhile_append_of_pos (hzeros z), hwb, List.reverse_concat, List.dropWhile_cons_of_neg (by simpa using hb.2)]
  rw [significant, ht, List.dropWhile_append_of_pos (hzeros y), hfront, List.rdropWhile, List.reverse_append,
    List.reverse_replicate, hback, List.reverse_reverse]

/-- No layout but the scientific one has the letter of a power of ten. -/
theorem Normal.isNumeral_positional (h : d.Normal) : ∀ c ∈ d.positional, Literal.isNumeral c = true := by
  obtain ⟨w, f, heq, hw, -, hf, -⟩ := h.exists_positional_eq
  intro c hc
  rw [heq, List.mem_append] at hc
  exact hc.elim (fun hc => Literal.isNumeral_of_isDigit (hw.isDigit c hc)) (hf.isNumeral c)

theorem filter_isDigit_cons_point (w : List Char) : ('.' :: w).filter Char.isDigit = w.filter Char.isDigit := rfl

/-- The digits of the positional layout are those of the decimal and zeros. -/
theorem Normal.significant_positional (h : d.Normal) : significant d.positional = d.digits := by
  have hzeros : ∀ n : ℕ, (List.replicate n '0').filter Char.isDigit = List.replicate n '0' := fun n =>
    List.filter_eq_self.2 fun c hc => isDigit_of_mem_replicate hc
  have hdigits : d.digits.filter Char.isDigit = d.digits := List.filter_eq_self.2 h.isDigit
  obtain ⟨y, z, hfilter⟩ : ∃ y z, d.positional.filter Char.isDigit =
      List.replicate y '0' ++ (d.digits ++ List.replicate z '0') := by
    rcases d.positional_cases with ⟨z, -, htext⟩ | ⟨u, v, hsplit, -, -, -, htext⟩ | ⟨z, -, htext⟩
    · refine ⟨0, z, ?_⟩
      rw [htext, List.filter_append, hdigits, hzeros, List.replicate_zero, List.nil_append]
    · refine ⟨0, 0, ?_⟩
      rw [htext, List.filter_append, filter_isDigit_cons_point, ← List.filter_append, ← hsplit, hdigits,
        List.replicate_zero, List.nil_append, List.append_nil]
    · refine ⟨z + 1, 0, ?_⟩
      rw [htext, List.singleton_append, List.filter_cons_of_pos rfl, filter_isDigit_cons_point, List.filter_append, hdigits,
        hzeros, List.replicate_zero, List.append_nil, List.replicate_succ, List.cons_append]
  rw [← List.takeWhile_eq_self_iff.2 (Literal.bne_e h.isNumeral_positional)] at hfilter
  exact h.significant_eq hfilter

/-- Those of the scientific layout in front of the power of ten are exactly these. -/
theorem Normal.significant_scientific (h : d.Normal) : significant d.scientific = d.digits := by
  obtain ⟨c, v, hcv, hc, hv⟩ := h.exists_eq_cons
  have hdigits : ∀ a ∈ c :: v, a.isDigit = true := hcv ▸ h.isDigit
  obtain ⟨m, hm, hfilter, hplain⟩ : ∃ m, d.scientific = m ++ exponentText (d.point - 1) ∧
      m.filter Char.isDigit = d.digits ∧ ∀ a ∈ m, Literal.isNumeral a = true := by
    rw [scientific, hcv]
    cases v with
    | nil => exact ⟨[c], rfl, List.filter_eq_self.2 hdigits, fun a ha => Literal.isNumeral_of_isDigit (hdigits a ha)⟩
    | cons a v =>
      refine ⟨c :: '.' :: a :: v, rfl, ?_, ?_⟩
      · rw [List.filter_cons_of_pos hc.1, filter_isDigit_cons_point, List.filter_eq_self.2 hv]
      · intro b hb
        rcases List.mem_cons.1 hb with rfl | hb
        · exact Literal.isNumeral_of_isDigit hc.1
        · rcases List.mem_cons.1 hb with rfl | hb
          · rfl
          · exact Literal.isNumeral_of_isDigit (hv b hb)
  have htake : d.scientific.takeWhile (· != 'e') = m := by
    rw [hm, List.takeWhile_append_of_pos (Literal.bne_e hplain), exponentText, List.takeWhile_cons_of_neg (by simp),
      List.append_nil]
  refine h.significant_eq (y := 0) (z := 0) ?_
  rw [htake, hfilter, List.replicate_zero, List.nil_append, List.append_nil]

theorem Normal.significant_canonical (h : d.Normal) : significant d.canonical = d.digits := by
  rw [Decimal.canonical]
  split
  · exact h.significant_positional
  · exact h.significant_scientific

/-- The canonical layout has a power of ten exactly outside the range of the positional one. -/
theorem Normal.mem_canonical_iff (h : d.Normal) : 'e' ∈ d.canonical ↔ ¬(-6 < d.point ∧ d.point ≤ 21) := by
  rw [Decimal.canonical]
  split
  · rename_i hpoint
    refine iff_of_false (fun hmem => ?_) (not_not.2 hpoint)
    exact absurd (h.isNumeral_positional _ hmem) (by decide)
  · rename_i hpoint
    refine iff_of_true ?_ hpoint
    rw [scientific, exponentText]
    simp

end Decimal

namespace Magnitude

variable {x : Magnitude}

/-! ## The nearest on a grid -/

/-- No multiple of a power of ten is nearer than the nearer neighbour. -/
theorem abs_near_sub_le_abs (x : Magnitude) (place : ℤ) (m : ℕ) :
    |((x.neighbours place).1 : ℚ) * 10 ^ place - x.toRat| ≤ |(m : ℚ) * 10 ^ place - x.toRat| := by
  have hpow : (0 : ℚ) < 10 ^ place := by positivity
  have hnear := x.abs_near_sub_le place
  generalize (x.neighbours place).1 = b at hnear ⊢
  by_cases hm : m = b
  · rw [hm]
  · -- another multiple is a whole step away from it, and half a step suffices
    have hone : (1 : ℚ) ≤ |(m : ℚ) - b| := by exact_mod_cast Int.one_le_abs (show (m : ℤ) - b ≠ 0 by omega)
    have hstep : 10 ^ place ≤ |(m : ℚ) * 10 ^ place - b * 10 ^ place| := by
      rw [← sub_mul, abs_mul, abs_of_pos hpow]
      exact le_mul_of_one_le_left hpow.le hone
    have htriangle := abs_sub_le ((m : ℚ) * 10 ^ place) x.toRat (b * 10 ^ place)
    rw [abs_sub_comm x.toRat] at htriangle
    linarith

/-- No multiple that reads back is nearer than the neighbour that is found. That is the farther one only if the nearer one does
not read back, and then no multiple on the side of the nearer one does. -/
theorem abs_sub_le_of_readBackOn? {place : ℤ} {c m : ℕ} (h : x.readBackOn? place = some c)
    (hm : x.readsBack place m = true) : |(c : ℚ) * 10 ^ place - x.toRat| ≤ |(m : ℚ) * 10 ^ place - x.toRat| := by
  have hpow : (0 : ℚ) < 10 ^ place := by positivity
  rcases eq_of_readBackOn? h with rfl | ⟨hfar, hnear⟩
  · exact x.abs_near_sub_le_abs place m
  · obtain ⟨b, hb, hlow, hhigh⟩ := x.exists_neighbours_eq place
    have hle : ∀ {i j : ℕ}, i ≤ j → (i : ℚ) * 10 ^ place ≤ j * 10 ^ place := fun hij =>
      mul_le_mul_of_nonneg_right (by exact_mod_cast hij) hpow.le
    rcases hb with hb | hb
    · rw [hb] at hnear hfar
      have habove : b + 1 ≤ m := by
        by_contra hlt
        exact hnear (readsBack_of_between hm (Or.inl ⟨hle (by omega), hlow⟩))
      have hmultiple := hle habove
      rw [hfar, abs_of_nonneg (by linarith), abs_of_nonneg (by linarith)]
      linarith
    · rw [hb] at hnear hfar
      have hbelow : m ≤ b := by
        by_contra hlt
        exact hnear (readsBack_of_between hm (Or.inr ⟨hhigh.le, hle (by omega)⟩))
      have hmultiple := hle hbelow
      rw [hfar, abs_of_nonpos (by linarith), abs_of_nonpos (by linarith)]
      linarith

/-- What is found is not above the power of ten that the magnitude is below. -/
theorem le_pow_of_readBackOn? {place : ℤ} {c : ℕ} (h : x.readBackOn? place = some c) (hplace : place < x.decimalExponent) :
    (c : ℚ) * 10 ^ place ≤ 10 ^ x.decimalExponent := by
  have hpow : (0 : ℚ) < 10 ^ place := by positivity
  obtain ⟨b, hb, hlow, -⟩ := x.exists_neighbours_eq place
  obtain ⟨k, -, hscale⟩ := exists_mul_zpow_eq hplace.le
  have htop : (10 : ℚ) ^ x.decimalExponent = (10 ^ k : ℕ) * 10 ^ place := by
    have hone := hscale 1
    rw [one_mul, one_mul] at hone
    rw [hone]
    push_cast
    rfl
  have hlt : b < 10 ^ k := by
    have hbelow := hlow.trans_lt x.toRat_lt_of_decimalExponent
    rw [htop] at hbelow
    exact_mod_cast lt_of_mul_lt_mul_right hbelow hpow.le
  have hc : c ≤ b + 1 := by
    have hmem := (eq_of_readBackOn? h).imp_right And.left
    rcases hb with hb | hb
    · rw [hb] at hmem
      dsimp only at hmem
      omega
    · rw [hb] at hmem
      dsimp only at hmem
      omega
  rw [htop]
  exact mul_le_mul_of_nonneg_right (by exact_mod_cast hc.trans hlt) hpow.le

/-! ## Decimals of so many digits -/

/-- A decimal of at most `k` digits that reads back is on the grid that has `k` digits of the magnitude, or something on this
grid reads back and is nearer. -/
theorem exists_readsBack_on (hx : x.mant ≠ 0) {p : ℤ} {m k : ℕ} (hm : x.readsBack p m = true) (hk : m < 10 ^ k) :
    ∃ i : ℕ, x.readsBack (x.decimalExponent - k) i = true ∧
      |(i : ℚ) * 10 ^ (x.decimalExponent - k) - x.toRat| ≤ |(m : ℚ) * 10 ^ p - x.toRat| := by
  have hlow := le_toRat_of_decimalExponent hx
  rcases lt_or_ge ((m : ℚ) * 10 ^ p) (10 ^ (x.decimalExponent - 1)) with hlt | hge
  · -- the power of ten is between the decimal and the magnitude
    have hpower : ((1 : ℕ) : ℚ) * 10 ^ (x.decimalExponent - 1) = 10 ^ (x.decimalExponent - 1) := by
      rw [Nat.cast_one, one_mul]
    have hback : x.readsBack (x.decimalExponent - 1) 1 = true :=
      readsBack_of_between hm (Or.inl (by rw [hpower]; exact ⟨hlt.le, hlow⟩))
    have hpos : 0 < k := by
      rcases Nat.eq_zero_or_pos k with rfl | hpos
      · exact absurd (Nat.lt_one_iff.1 hk) (ne_zero_of_readsBack hx hm)
      · exact hpos
    obtain ⟨i, hi, hvalue⟩ := exists_readsBack_of_le hback (show x.decimalExponent - k ≤ x.decimalExponent - 1 by omega)
    refine ⟨i, hi, ?_⟩
    rw [hvalue, hpower, abs_of_nonpos (by linarith), abs_of_nonpos (by linarith)]
    linarith
  · have hplace : x.decimalExponent - k ≤ p := by
      have hpow : (10 : ℚ) ^ (x.decimalExponent - 1) < 10 ^ (k + p) := by
        refine hge.trans_lt ?_
        rw [zpow_add₀ (by norm_num), zpow_natCast]
        exact mul_lt_mul_of_pos_right (by exact_mod_cast hk) (by positivity)
      have hexp := (zpow_lt_zpow_iff_right₀ (by norm_num)).1 hpow
      omega
    obtain ⟨i, hi, hvalue⟩ := exists_readsBack_of_le hm hplace
    exact ⟨i, hi, by rw [hvalue]⟩

/-- No decimal of fewer digits reads back. -/
theorem length_digits_shortest_le (hx : x.mant ≠ 0) {p : ℤ} {m k : ℕ} (hm : x.readsBack p m = true) (hk : m < 10 ^ k) :
    x.shortest.digits.length ≤ k := by
  obtain ⟨c, place, hshort, hc, hplace, hnone⟩ := exists_shortest_eq_readBackOn? hx
  obtain ⟨i, hi, -⟩ := exists_readsBack_on hx hm hk
  have hc0 := ne_zero_of_readsBack hx (List.find?_some hc)
  have hlength := Decimal.length_digits_ofScaled_le hc0 hplace (le_pow_of_readBackOn? hc hplace)
  have hpos : k ≠ 0 := by
    rintro rfl
    exact ne_zero_of_readsBack hx hm (Nat.lt_one_iff.1 hk)
  have hle : x.decimalExponent - k ≤ place := by
    by_contra hlt
    exact readBackOn?_ne_none hi (hnone _ (not_le.1 hlt) (by omega))
  rw [hshort]
  omega

/-- Of the decimals with as many digits that read back, none is nearer. -/
theorem abs_toRat_shortest_sub_le (hx : x.mant ≠ 0) {p : ℤ} {m : ℕ} (hm : x.readsBack p m = true)
    (hk : m < 10 ^ x.shortest.digits.length) : |x.shortest.toRat - x.toRat| ≤ |(m : ℚ) * 10 ^ p - x.toRat| := by
  obtain ⟨c, place, hshort, hc, hplace, -⟩ := exists_shortest_eq_readBackOn? hx
  obtain ⟨i, hi, hle⟩ := exists_readsBack_on hx hm hk
  have hc0 := ne_zero_of_readsBack hx (List.find?_some hc)
  have hlength := Decimal.length_digits_ofScaled_le hc0 hplace (le_pow_of_readBackOn? hc hplace)
  rw [← hshort] at hlength
  obtain ⟨j, hj, hvalue⟩ := exists_readsBack_of_le hi (show place ≤ x.decimalExponent - x.shortest.digits.length by omega)
  have hnearest := abs_sub_le_of_readBackOn? hc hj
  rw [hvalue] at hnearest
  have hvalue' : x.shortest.toRat = c * 10 ^ place := by rw [hshort, Decimal.toRat_ofScaled]
  rw [hvalue']
  exact hnearest.trans hle

/-! ## The places of the point -/

/-- The shortest digits of a number other than zero are normal. -/
theorem normal_shortest (hx : x.mant ≠ 0) : x.shortest.Normal := by
  obtain ⟨c, place, hshort, hback⟩ := exists_shortest_eq hx
  rw [hshort]
  exact Decimal.normal_ofScaled (ne_zero_of_readsBack hx hback) place

/-- A power of ten between a magnitude and its shortest decimal is this decimal. -/
theorem shortest_eq_ten_pow (hx : x.mant ≠ 0) {n : ℤ} (hn : -10 ≤ n)
    (h : x.shortest.toRat ≤ 10 ^ n ∧ 10 ^ n ≤ x.toRat ∨ x.toRat ≤ 10 ^ n ∧ 10 ^ n ≤ x.shortest.toRat) :
    x.shortest = Decimal.ofScaled 1 n := by
  obtain ⟨c, place, hshort, hback⟩ := exists_shortest_eq hx
  have hvalue : x.shortest.toRat = c * 10 ^ place := by rw [hshort, Decimal.toRat_ofScaled]
  have hone : ((1 : ℕ) : ℚ) * 10 ^ n = 10 ^ n := by rw [Nat.cast_one, one_mul]
  rw [hvalue, ← hone] at h
  exact shortest_of_nearest ((readsBack_iff_nearest _ _ _).1 (readsBack_of_between hback h)) (by norm_num) one_ne_zero hn

/-- The shortest decimal has more than 21 places before the point exactly for the magnitudes from `10 ^ 21` on. -/
theorem point_shortest_le_iff (hx : x.mant ≠ 0) : x.shortest.point ≤ 21 ↔ x.toRat < 10 ^ 21 := by
  obtain ⟨c, place, hshort, hback⟩ := exists_shortest_eq hx
  constructor
  · intro hpoint
    by_contra hlarge
    have hbelow : x.shortest.toRat ≤ 10 ^ (21 : ℤ) := by
      rw [hshort, Decimal.toRat_ofScaled]
      refine (Decimal.lt_of_ofScaled c place).le.trans (zpow_le_zpow_right₀ (by norm_num) ?_)
      rwa [← hshort]
    have hpower := shortest_eq_ten_pow hx (by decide) (Or.inl ⟨hbelow, not_lt.1 hlarge⟩)
    rw [hpower] at hpoint
    exact absurd hpoint (by decide)
  · intro hsmall
    rw [hshort]
    exact Binary64.point_le_of_readsBack (ne_zero_of_readsBack hx hback) hback hsmall

/-- It has fewer than six zeros after the point exactly for those from the double of a millionth on. -/
theorem lt_point_shortest_iff (hx : x.mant ≠ 0) :
    -6 < x.shortest.point ↔ (Binary64.nearest (1 / 10 ^ 6)).toRat ≤ x.toRat := by
  obtain ⟨c, place, hshort, hback⟩ := exists_shortest_eq hx
  have hc := ne_zero_of_readsBack hx hback
  have hround := (readsBack_iff_nearest _ _ _).1 hback
  have hbound := ((Binary64.isNearest_iff _ _).2 hround.symm).1
  have hvalue : (Binary64.nearest (c * 10 ^ place)).toRat = x.toRat := by rw [hround, Binary64.toRat_finite_false]
  have hmillionth : (1 : ℚ) / 10 ^ 6 = 10 ^ (-6 : ℤ) := by norm_num
  have hpos : (0 : ℚ) < 10 ^ (-6 : ℤ) := by positivity
  have hbound' : |(10 : ℚ) ^ (-6 : ℤ)| < Binary64.overflowBound := by
    rw [abs_of_pos hpos]
    exact lt_trans (by norm_num) (Binary64.two_pow_lt_overflowBound (show 0 ≤ 971 by decide))
  rw [hmillionth]
  constructor
  · intro hpoint
    rw [← hvalue]
    refine Binary64.toRat_nearest_mono hbound' hbound ?_
    refine le_trans (zpow_le_zpow_right₀ (by norm_num) ?_) (Decimal.le_of_ofScaled hc place)
    rw [← hshort]
    omega
  · intro hle
    by_contra hpoint
    have hbelow : (c : ℚ) * 10 ^ place ≤ 10 ^ (-6 : ℤ) := by
      refine (Decimal.lt_of_ofScaled c place).le.trans (zpow_le_zpow_right₀ (by norm_num) ?_)
      rw [← hshort]
      omega
    -- both are rounded to the same double, so the digits are those of the millionth
    have hge := Binary64.toRat_nearest_mono hbound hbound' hbelow
    rw [hvalue] at hge
    obtain ⟨a, ha⟩ := Binary64.exists_nearest_eq hbound'
    rw [decide_eq_false hpos.not_gt] at ha
    rw [ha, Binary64.toRat_finite_false] at hle hge
    obtain rfl : a = x := toRat_injective (le_antisymm hle hge)
    have hone : ((1 : ℕ) : ℚ) * 10 ^ (-6 : ℤ) = 10 ^ (-6 : ℤ) := by rw [Nat.cast_one, one_mul]
    rw [← hone] at ha
    rw [shortest_of_nearest ha (by norm_num) one_ne_zero (by decide)] at hpoint
    exact hpoint (by decide)

end Magnitude

namespace Binary64

/-! ## The text of a double -/

theorem mem_signText_append {c : Char} (hc : c ≠ '-') {neg : Bool} {t : List Char} : c ∈ signText neg ++ t ↔ c ∈ t := by
  cases neg with
  | false => rfl
  | true => exact List.mem_cons.trans (or_iff_right hc)

/-- The sign is no digit. -/
theorem significant_signText_append (neg : Bool) (t : List Char) : significant (signText neg ++ t) = significant t := by
  cases neg <;> rfl

/-- What is rounded to a double has its sign, and its absolute value is rounded to the magnitude. -/
theorem IsNearest.abs {neg : Bool} {a : Magnitude} {r : ℚ} (h : (finite neg a).IsNearest r) :
    neg = decide (r < 0) ∧ nearest |r| = finite false a := by
  have hround := ((isNearest_iff _ r).1 h).symm
  obtain ⟨b, hb⟩ := exists_nearest_eq h.1
  rw [hround] at hb
  exact ⟨(finite.inj hb).1, nearest_abs hround⟩

/-- So it is as far from the double as its absolute value from the magnitude. -/
theorem IsNearest.abs_sub {neg : Bool} {a : Magnitude} {r : ℚ} (h : (finite neg a).IsNearest r) :
    |r - (finite neg a).toRat| = |(|r|) - a.toRat| := by
  rw [h.abs.1, abs_sub_comm, abs_toRat_sub, abs_sub_comm]

/-- A decimal of at most `k` digits that is rounded to a double is one that reads back as its magnitude. -/
theorem IsNearest.exists_readsBack {neg : Bool} {a : Magnitude} {k : ℕ} {r : ℚ} (h : (finite neg a).IsNearest r)
    (hr : HasDigits k r) : ∃ (m : ℕ) (p : ℤ), |r| = m * 10 ^ p ∧ m < 10 ^ k ∧ a.readsBack p m = true := by
  obtain ⟨c, p, rfl, hc⟩ := hr
  have hvalue : |(c : ℚ) * 10 ^ p| = (c.natAbs : ℕ) * 10 ^ p := by
    rw [abs_mul, abs_of_pos (show (0 : ℚ) < 10 ^ p by positivity), Nat.cast_natAbs, Int.cast_abs]
  refine ⟨c.natAbs, p, hvalue, ?_, ?_⟩
  · rw [Int.abs_eq_natAbs] at hc
    exact_mod_cast hc
  · rw [Magnitude.readsBack_iff_nearest, ← hvalue]
    exact h.abs.2

section
variable {a : Magnitude}

/-- The significant digits of the text of a double other than a zero are the shortest ones. -/
theorem significant_text (neg : Bool) (ha : a.mant ≠ 0) : significant (finite neg a).text = a.shortest.digits := by
  rw [text, if_neg ha, significant_signText_append, (Magnitude.normal_shortest ha).significant_canonical]

/-- What its text denotes is the shortest decimal with the sign. -/
theorem exists_readDecimal?_shortest (neg : Bool) (ha : a.mant ≠ 0) :
    ∃ q, readDecimal? (finite neg a).text = some q ∧ |q| = a.shortest.toRat ∧ (finite neg a).IsNearest q ∧
      HasDigits a.shortest.digits.length q := by
  obtain ⟨c, place, hshort, hback⟩ := Magnitude.exists_shortest_eq ha
  obtain ⟨q, hread, habs⟩ : ∃ q, readDecimal? (finite neg a).text = some q ∧ |q| = a.shortest.toRat := by
    have hpos : (0 : ℚ) ≤ c * 10 ^ place := by positivity
    have hread := readDecimal?_ofScaled (Magnitude.ne_zero_of_readsBack ha hback) place neg
    rw [text, if_neg ha, hshort, Decimal.toRat_ofScaled]
    refine ⟨_, hread, ?_⟩
    cases neg with
    | false => exact abs_of_nonneg hpos
    | true => rw [if_pos rfl, abs_neg, abs_of_nonneg hpos]
  refine ⟨q, hread, habs, (isNearest_iff _ q).2 (nearest_of_readDecimal?_text ha hread).symm, ?_⟩
  rw [hshort] at habs ⊢
  exact Decimal.hasDigits_of_abs_eq habs

/-- It has a power of ten if the double is large or small. -/
theorem mem_text_iff (neg : Bool) (ha : a.mant ≠ 0) :
    'e' ∈ (finite neg a).text ↔ 10 ^ 21 ≤ a.toRat ∨ a.toRat < (nearest (1 / 10 ^ 6)).toRat := by
  have hlow := Magnitude.lt_point_shortest_iff ha
  have hhigh := Magnitude.point_shortest_le_iff ha
  rw [text, if_neg ha, mem_signText_append (by decide), (Magnitude.normal_shortest ha).mem_canonical_iff, hlow, hhigh,
    not_and_or, not_le, not_lt, or_comm]

end

/-- The text of a finite double other than a zero is read as it, no decimal of fewer significant digits is, and no decimal of
equally many is read as it and is nearer. It has a power of ten exactly for the doubles from `10 ^ 21` on and for those below
the double nearest to a millionth. -/
theorem text_fewestDigits {x : Binary64} (hx : x.isFinite = true) (h0 : x.toRat ≠ 0) :
    ∃ q, readDecimal? x.text = some q ∧ x.IsNearest q ∧ HasDigits (significant x.text).length q ∧
      (∀ k r, HasDigits k r → x.IsNearest r → (significant x.text).length ≤ k) ∧
      (∀ r, HasDigits (significant x.text).length r → x.IsNearest r → |q - x.toRat| ≤ |r - x.toRat|) ∧
      ('e' ∈ x.text ↔ 10 ^ 21 ≤ |x.toRat| ∨ |x.toRat| < (nearest (1 / 10 ^ 6)).toRat) := by
  obtain ⟨neg, a, rfl⟩ := exists_eq_finite hx
  have ha : a.mant ≠ 0 := fun hzero => h0 ((toRat_finite_eq_zero_iff neg a).2 hzero)
  obtain ⟨q, hread, hqabs, hnearest, hq⟩ := exists_readDecimal?_shortest neg ha
  have habs : |(finite neg a).toRat| = a.toRat := by rw [abs_toRat_finite, Magnitude.toRat]
  rw [significant_text neg ha, mem_text_iff neg ha, habs]
  refine ⟨q, hread, hnearest, hq, fun k r hr hrnear => ?_, fun r hr hrnear => ?_, Iff.rfl⟩
  · obtain ⟨m, p, -, hm, hback⟩ := hrnear.exists_readsBack hr
    exact Magnitude.length_digits_shortest_le ha hback hm
  · obtain ⟨m, p, hvalue, hm, hback⟩ := hrnear.exists_readsBack hr
    rw [hnearest.abs_sub, hrnear.abs_sub, hqabs, hvalue]
    exact Magnitude.abs_toRat_shortest_sub_le ha hback hm

/-- The smallest positive double. -/
def smallest : Binary64 := finite false (.ofUnits 1 (by decide))

/-- Every decimal from about `2.5e-324` to `7.4e-324` is read as the smallest positive double, and of those with one digit its
text has the nearest. -/
theorem text_fewestDigits_smallest :
    smallest.isFinite = true ∧ smallest.toRat ≠ 0 ∧ smallest.text = "5e-324".toList ∧
      ∃ q, readDecimal? "5e-324".toList = some q ∧ smallest.IsNearest q ∧
        ∀ r, HasDigits 1 r → smallest.IsNearest r → |q - smallest.toRat| ≤ |r - smallest.toRat| := by
  have hne : smallest.toRat ≠ 0 := fun h0 => absurd ((toRat_finite_eq_zero_iff _ _).1 h0) (by decide)
  have htext : smallest.text = "5e-324".toList := by decide +kernel
  have hone : (significant "5e-324".toList).length = 1 := by decide
  obtain ⟨q, hread, hnearest, -, -, hclosest, -⟩ := text_fewestDigits (x := smallest) rfl hne
  rw [htext] at hread hclosest
  rw [hone] at hclosest
  exact ⟨rfl, hne, htext, q, hread, hnearest, hclosest⟩

end Binary64

end Calculator
