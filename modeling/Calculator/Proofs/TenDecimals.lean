import Mathlib
import Calculator.Proofs.Canonical
import Calculator.Proofs.Shortest

/-!
# Ten decimals

The double that is displayed is the one nearest to a number of units of the tenth decimal. So a multiple of `10 ^ -10` is read
as it (`Binary64.OnGrid`), although its own value is no such multiple, and the shortest digits do not go beyond that place: the
text has at most ten decimals (`Binary64.display_tenDecimals`).
-/

namespace Calculator

open Text

namespace Decimal

variable {d : Decimal}

/-! ## Layouts of decimals with ten places -/

/-- With at most ten places after the point, a fraction has at most ten digits, and a negative power of ten is one of four. -/
theorem Normal.isTenDecimal_canonical (h : d.Normal) (hlast : -10 ≤ d.lastPlace) : IsTenDecimal d.canonical := by
  rw [Decimal.canonical]
  split
  · rename_i hpoint
    obtain ⟨w, f, heq, hw, hwlen, hf, hflen⟩ := h.exists_positional_eq
    exact Or.inl ⟨w, f, heq, hw, by omega, hf, by omega⟩
  · rename_i hpoint
    obtain ⟨c, f, heq, hc, hf⟩ := h.exists_scientific_eq
    refine Or.inr ⟨c, f, _, heq, hc, hf, isExponent_exponentText (by omega), fun v hv => ?_⟩
    have hlen : 0 < d.digits.length := List.length_pos_iff.2 h.ne_nil
    rw [lastPlace] at hlast
    rw [exponentText] at hv
    obtain ⟨hsign, rfl⟩ := List.cons.inj (List.cons.inj hv).2
    have hneg : d.point - 1 < 0 := by
      by_contra hpos
      rw [if_neg hpos] at hsign
      cases hsign
    have hlow : -10 ≤ d.point - 1 := by omega
    have hhigh : d.point - 1 ≤ -7 := by omega
    generalize d.point - 1 = e at hlow hhigh ⊢
    interval_cases e <;> decide

/-- Without a place after the point and with at most 21 before it, there are only digits. -/
theorem Normal.isWhole_canonical (h : d.Normal) (hlast : 0 ≤ d.lastPlace) (hpoint : d.point ≤ 21) : IsWhole d.canonical := by
  have hlen : 0 < d.digits.length := List.length_pos_iff.2 h.ne_nil
  have hlast' := hlast
  rw [lastPlace] at hlast'
  rw [Decimal.canonical, if_pos (by omega)]
  obtain ⟨w, f, heq, hw, -, hf, hflen⟩ := h.exists_positional_eq
  cases hf with
  | none => rwa [heq, List.append_nil]
  | point hv hc =>
    rw [List.tail_cons, List.length_append, List.length_singleton] at hflen
    omega

end Decimal

namespace Binary64

/-! ## Doubles with ten decimals -/

/-- A number and its absolute value are rounded to the same magnitude. -/
theorem nearest_abs {q : ℚ} {s : Bool} {a : Magnitude} (h : nearest q = finite s a) : nearest |q| = finite false a := by
  have hunits : |(|q|)| * Magnitude.unitsInOne = (q.num.natAbs * Magnitude.unitsInOne : ℕ) / q.den := by
    rw [abs_abs, abs_eq_units_div q, div_mul_cancel₀ _ Magnitude.unitsInOne_ne_zero]
  rw [nearest_units q.den_pos hunits, decide_eq_false (not_lt.2 (abs_nonneg q))]
  rw [nearest] at h
  cases hround : Magnitude.ofRatio? (q.num.natAbs * Magnitude.unitsInOne) q.den with
  | none =>
    rw [ofRatio_of_none _ hround] at h
    cases h
  | some b =>
    rw [ofRatio_of_some _ hround] at h ⊢
    rw [(finite.inj h).2]

set_option maxRecDepth 4000 in
/-- The double nearest to a unit of the tenth decimal is above it. -/
theorem tenth_le_toRat_nearest : (10 : ℚ) ^ (-10 : ℤ) ≤ (nearest (10 ^ (-10 : ℤ))).toRat := by
  have hround : (Magnitude.ofRatio? Magnitude.unitsInOne (tenPow 10)).any
      (fun a => Magnitude.unitsInOne ≤ a.units * tenPow 10) = true := by decide
  obtain ⟨a, ha, hle⟩ := (Option.any_eq_true _ _).1 hround
  have hle' : (Magnitude.unitsInOne : ℚ) ≤ a.units * 10 ^ 10 := by
    rw [← tenPow_eq 10]
    exact_mod_cast of_decide_eq_true hle
  have hpos : (0 : ℚ) < 10 ^ (-10 : ℤ) := by positivity
  have hunits : |(10 : ℚ) ^ (-10 : ℤ)| * Magnitude.unitsInOne = Magnitude.unitsInOne / (tenPow 10 : ℕ) := by
    rw [abs_of_pos hpos, tenPow_eq, zpow_neg, mul_comm, div_eq_mul_inv]
    rfl
  have hvalue : (finite false a).toRat = a.units / Magnitude.unitsInOne := rfl
  rw [nearest_units (tenPow_pos 10) hunits, decide_eq_false hpos.not_gt, ofRatio_of_some _ ha, hvalue,
    le_div_iff₀ (Nat.cast_pos.2 Magnitude.unitsInOne_pos), zpow_neg, inv_mul_le_iff₀ (by positivity), mul_comm]
  exact hle'

/-- A magnitude that is zero, or one that a multiple of a power of ten is read as and that is not below this power. -/
def OnGrid (a : Magnitude) (place : ℤ) : Prop :=
  a.mant ≠ 0 → (∃ m, a.readsBack place m = true) ∧ (10 : ℚ) ^ place ≤ a.toRat

/-- A multiple of a power of ten is one of each smaller power. -/
theorem OnGrid.mono {a : Magnitude} {place place' : ℤ} (h : OnGrid a place) (hle : place' ≤ place) : OnGrid a place' := by
  intro ha
  obtain ⟨⟨m, hm⟩, hlow⟩ := h ha
  obtain ⟨i, hi, -⟩ := Magnitude.exists_readsBack_of_le hm hle
  exact ⟨⟨i, hi⟩, (zpow_le_zpow_right₀ (by norm_num) hle).trans hlow⟩

/-- An integer is on the grid of the whole numbers. -/
theorem onGrid_of_isInteger {s : Bool} {a : Magnitude} {n : ℤ} (h : (finite s a).toRat = n) : OnGrid a 0 := by
  intro ha
  have hvalue := toRat_eq_natAbs h
  have hpos := Magnitude.toRat_pos ha
  refine ⟨⟨n.natAbs, ?_⟩, ?_⟩
  · rw [Magnitude.readsBack_iff_nearest, zpow_zero, mul_one, ← hvalue, ← toRat_finite_false]
    rw [← toRat_finite_false] at hpos
    exact nearest_toRat hpos.ne'
  · rw [hvalue] at hpos ⊢
    rw [zpow_zero]
    exact_mod_cast hpos

/-- The double nearest to a number of units of the tenth decimal is on the grid of these units. -/
theorem onGrid_of_nearest {n : ℤ} {t : Bool} {b : Magnitude} (hbound : |(n : ℚ) / 10 ^ 10| < overflowBound)
    (h : (finite t b).toRat = (nearest ((n : ℚ) / 10 ^ 10)).toRat) : OnGrid b (-10) := by
  intro hb
  have hscaled : |(n : ℚ) / 10 ^ 10| = (n.natAbs : ℚ) * 10 ^ (-10 : ℤ) := by
    rw [abs_div, abs_of_pos (show (0 : ℚ) < 10 ^ 10 by norm_num), Nat.cast_natAbs, Int.cast_abs, zpow_neg, div_eq_mul_inv]
    rfl
  obtain ⟨c, hc⟩ := exists_nearest_eq hbound
  have hcb : c = b := by
    have habs := congrArg abs h
    rw [hc, abs_toRat_finite, abs_toRat_finite] at habs
    exact (Magnitude.toRat_injective habs).symm
  rw [hcb] at hc
  have hround := nearest_abs hc
  have hn : n ≠ 0 := by
    rintro rfl
    exact ne_zero_of_nearest_eq hb hround (by simp)
  rw [hscaled] at hround
  refine ⟨⟨n.natAbs, (Magnitude.readsBack_iff_nearest _ _ _).2 hround⟩, ?_⟩
  have hone : (10 : ℚ) ^ (-10 : ℤ) ≤ n.natAbs * 10 ^ (-10 : ℤ) := by
    have hpos : (1 : ℚ) ≤ n.natAbs := by exact_mod_cast Int.natAbs_pos.2 hn
    exact le_mul_of_one_le_left (by positivity) hpos
  have hsmall : |(10 : ℚ) ^ (-10 : ℤ)| ≤ |(n.natAbs : ℚ) * 10 ^ (-10 : ℤ)| := by
    rw [abs_of_pos (by positivity)]
    exact hone.trans (le_abs_self _)
  have hbig : |(n.natAbs : ℚ) * 10 ^ (-10 : ℤ)| < overflowBound := by rwa [← hscaled, abs_abs]
  have hmono := toRat_nearest_mono (lt_of_le_of_lt hsmall hbig) hbig hone
  rw [hround] at hmono
  exact tenth_le_toRat_nearest.trans hmono

/-- What is displayed is on the grid of ten decimals. -/
theorem exists_rounded_onGrid (s : Bool) (a : Magnitude) : ∃ t b, (finite s a).rounded = finite t b ∧ OnGrid b (-10) := by
  cases hint : (finite s a).isInteger with
  | true =>
    obtain ⟨n, hn⟩ := (isInteger_iff s a).1 hint
    exact ⟨s, a, rounded_of_isInteger hint, (onGrid_of_isInteger hn).mono (by decide)⟩
  | false =>
    have hnot := (isInteger_eq_false_iff s a).1 hint
    obtain ⟨t, b, hround, hvalue⟩ := exists_rounded_eq hint
    have hbound := abs_displayUnits_div_lt_overflowBound (abs_toRat_lt_of_not_isInteger hnot)
    exact ⟨t, b, hround, onGrid_of_nearest hbound hvalue⟩

/-! ## Texts on a grid -/

/-- The shortest digits of a magnitude on a grid do not go beyond the grid. -/
theorem OnGrid.exists_shortest_eq {a : Magnitude} {place : ℤ} (h : OnGrid a place) (ha : a.mant ≠ 0) :
    ∃ c place', a.shortest = Decimal.ofScaled c place' ∧ c ≠ 0 ∧ a.readsBack place' c = true ∧ place ≤ place' := by
  obtain ⟨⟨m, hm⟩, hlow⟩ := h ha
  have hplace : place < a.decimalExponent :=
    (zpow_lt_zpow_iff_right₀ (by norm_num)).1 (lt_of_le_of_lt hlow a.toRat_lt_of_decimalExponent)
  obtain ⟨c, place', hshort, hback, hle⟩ := Magnitude.exists_shortest_of_readsBack ha hplace hm
  exact ⟨c, place', hshort, Magnitude.ne_zero_of_readsBack ha hback, hback, hle⟩

/-- Its text denotes a multiple of the power of ten. -/
theorem exists_readDecimal?_of_onGrid (neg : Bool) {a : Magnitude} {place : ℤ} (h : OnGrid a place) :
    ∃ n : ℤ, readDecimal? (finite neg a).text = some ((n : ℚ) * 10 ^ place) := by
  by_cases ha : a.mant = 0
  · refine ⟨0, ?_⟩
    rw [text, if_pos ha, Int.cast_zero, zero_mul]
    exact readDecimal?_signText readUnsigned?_zero false
  · obtain ⟨c, place', hshort, hc, -, hle⟩ := h.exists_shortest_eq ha
    obtain ⟨k, -, hscale⟩ := exists_mul_zpow_eq hle
    rw [text, if_neg ha, hshort, readDecimal?_ofScaled hc, hscale]
    refine ⟨if neg then -(c * 10 ^ k) else c * 10 ^ k, ?_⟩
    congr 1
    split <;> push_cast <;> ring

/-- With ten places it has ten decimals. -/
theorem isTenDecimal_text (neg : Bool) {a : Magnitude} (h : OnGrid a (-10)) :
    ∃ sign body, (finite neg a).text = sign ++ body ∧ (sign = [] ∨ sign = ['-']) ∧ IsTenDecimal body := by
  by_cases ha : a.mant = 0
  · exact ⟨[], ['0'], if_pos ha, Or.inl rfl, Or.inl ⟨['0'], [], rfl, .zero, by decide, .none, by decide⟩⟩
  · obtain ⟨c, place, hshort, hc, -, hle⟩ := h.exists_shortest_eq ha
    have hlast := hle.trans (Decimal.le_lastPlace_ofScaled c place)
    have hbody := (Decimal.normal_ofScaled hc place).isTenDecimal_canonical hlast
    rw [← hshort] at hbody
    exact ⟨signText neg, _, if_neg ha, signText_eq neg, hbody⟩

/-- The least number that is too large for digits alone is a double. -/
theorem exists_toRat_eq_ten_pow : ∃ m : Magnitude, m.toRat = 10 ^ 21 := by
  obtain ⟨m, hm⟩ := Magnitude.exists_toRat_eq (show 5 ^ 21 < 2 ^ 53 by decide) (show 21 + 1074 ≤ 2045 by decide)
  refine ⟨m, ?_⟩
  rw [hm, Magnitude.step_add, Magnitude.step_unitPlace]
  norm_num

/-- A multiple of a power of ten that is read as a magnitude below this double is below it. -/
theorem point_le_of_readsBack {a : Magnitude} {c : ℕ} {place : ℤ} (hc : c ≠ 0) (h : a.readsBack place c = true)
    (hlt : a.toRat < 10 ^ 21) : (Decimal.ofScaled c place).point ≤ 21 := by
  rw [Magnitude.readsBack_iff_nearest] at h
  have hsmall : (c : ℚ) * 10 ^ place < 10 ^ 21 := by
    by_contra hge
    obtain ⟨m, hm⟩ := exists_toRat_eq_ten_pow
    have hbound := ((isNearest_iff _ _).2 h.symm).1
    have hle := toRat_le_toRat_nearest (s := false) (a := m) hbound (by rw [toRat_finite_false, hm]; exact not_lt.1 hge)
    rw [h, toRat_finite_false, toRat_finite_false, hm] at hle
    exact absurd hlt (not_lt.2 hle)
  have hfirst : (10 : ℚ) ^ ((Decimal.ofScaled c place).point - 1) < 10 ^ (21 : ℤ) :=
    (Decimal.le_of_ofScaled hc place).trans_lt hsmall
  have hexp := (zpow_lt_zpow_iff_right₀ (by norm_num)).1 hfirst
  omega

/-- The shortest digits of a whole number below it are laid out as digits alone. -/
theorem OnGrid.isWhole_shortest {a : Magnitude} (h : OnGrid a 0) (ha : a.mant ≠ 0) (hlt : a.toRat < 10 ^ 21) :
    IsWhole a.shortest.canonical := by
  obtain ⟨c, place, hshort, hc, hback, hle⟩ := h.exists_shortest_eq ha
  have hlast := hle.trans (Decimal.le_lastPlace_ofScaled c place)
  rw [hshort]
  exact (Decimal.normal_ofScaled hc place).isWhole_canonical hlast (point_le_of_readsBack hc hback hlt)

/-- So it has a text of digits. -/
theorem isWhole_text (neg : Bool) {a : Magnitude} (h : OnGrid a 0) (hlt : a.toRat < 10 ^ 21) :
    ∃ sign w, (finite neg a).text = sign ++ w ∧ (sign = [] ∨ sign = ['-']) ∧ IsWhole w := by
  by_cases ha : a.mant = 0
  · exact ⟨[], ['0'], if_pos ha, Or.inl rfl, .zero⟩
  · exact ⟨signText neg, _, if_neg ha, signText_eq neg, h.isWhole_shortest ha hlt⟩

/-- A finite double is displayed with at most ten decimals: the displayed number is a whole multiple of `10 ^ -10`, a positional
text has at most ten digits after its point, and a negative power of ten is one of those from `e-7` to `e-10`. An integer is
displayed as an integer, by digits alone if it is below `10 ^ 21`. -/
theorem display_tenDecimals (neg : Bool) (a : Magnitude) :
    ∃ t q, (finite neg a).display = .ok t ∧ readDecimal? t = some q ∧ (∃ n : ℤ, q * 10 ^ 10 = n) ∧
      (∃ sign body, t = sign ++ body ∧ (sign = [] ∨ sign = ['-']) ∧ IsTenDecimal body) ∧
      ((∃ n : ℤ, (finite neg a).toRat = n) → (∃ n : ℤ, q = n) ∧
        (|(finite neg a).toRat| < 10 ^ 21 → ∃ sign w, t = sign ++ w ∧ (sign = [] ∨ sign = ['-']) ∧ IsWhole w)) := by
  obtain ⟨t, b, hround, hgrid⟩ := exists_rounded_onGrid neg a
  obtain ⟨n, hn⟩ := exists_readDecimal?_of_onGrid t hgrid
  have hdisplay : (finite neg a).display = .ok (finite t b).text := by
    rw [← hround]
    exact display_eq rfl
  refine ⟨_, _, hdisplay, hn, ⟨n, ?_⟩, isTenDecimal_text t hgrid, ?_⟩
  · rw [mul_assoc, zpow_neg]
    exact (congrArg _ (inv_mul_cancel₀ (by norm_num))).trans (mul_one _)
  · rintro ⟨m, hm⟩
    -- an integer is displayed as it is
    have hint := (isInteger_iff neg a).2 ⟨m, hm⟩
    rw [rounded_of_isInteger hint] at hround
    obtain ⟨rfl, rfl⟩ := finite.inj hround
    have hwhole := onGrid_of_isInteger hm
    refine ⟨?_, fun hlt => isWhole_text neg hwhole ?_⟩
    · obtain ⟨k, hk⟩ := exists_readDecimal?_of_onGrid neg hwhole
      rw [hn, Option.some.injEq, zpow_zero, mul_one] at hk
      exact ⟨k, hk⟩
    · rwa [abs_toRat_finite] at hlt

end Binary64

end Calculator
