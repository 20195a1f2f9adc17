import Mathlib
import Calculator.Proofs.Canonical
import Calculator.Proofs.FifteenDigits
import Calculator.Proofs.TenDecimals

/-!
# Numbers displayed as they are written

A number written without a superfluous zero is the positional layout of its own digits (`Text.IsPlain.positional`). So with at
most fifteen significant digits it is the text of its double. A whole number is displayed as it is written, since its double is
an integer and integers are not rounded. The double of any other number is no integer
(`Text.IsPlain.isInteger_nearest_eq_false`), and the number is displayed as it is written exactly if the rounding to ten decimals
gives the double again (`evaluate_plain`). That rounding is done on doubles, and from `2 ^ 18` on it may give another one.
-/

namespace Calculator

open Text

namespace Decimal

/-! ## Plain texts are layouts -/

/-- Digits that do not end with a zero are all significant. -/
theorem significantDigits_of_getLast? {c : ℕ} (h : (Nat.toDigits 10 c).getLast? ≠ some '0') :
    significantDigits c = Nat.toDigits 10 c := by
  obtain ⟨n, hn⟩ := exists_toDigits_eq c
  cases n with
  | zero => rw [hn, List.replicate_zero, List.append_nil]
  | succ n =>
    rw [hn, List.replicate_succ', ← List.append_assoc, List.getLast?_concat] at h
    exact absurd rfl h

/-- The digits of a whole number are its layout. -/
theorem positional_whole {w : List Char} (hw : ∀ c ∈ w, c.isDigit = true) (hne : w ≠ []) (hhead : w.head? ≠ some '0') :
    (ofScaled (Nat.ofDigitChars 10 w 0) 0).positional = w := by
  obtain ⟨-, hdigits⟩ := toDigits_ofDigitChars hw hne hhead
  obtain ⟨n, hn⟩ := exists_toDigits_eq (Nat.ofDigitChars 10 w 0)
  rw [hdigits] at hn
  have hlength := congrArg List.length hn
  rw [List.length_append, List.length_replicate] at hlength
  rw [positional, ofScaled, hdigits]
  dsimp only
  rw [if_pos (by omega)]
  have hzeros : ((w.length : ℤ) + 0 - (significantDigits (Nat.ofDigitChars 10 w 0)).length).toNat = n := by omega
  rw [hzeros, ← hn]

/-- So are digits with a point among them, if the last one is no zero. -/
theorem positional_point {w g : List Char} (hw : ∀ c ∈ w, c.isDigit = true) (hne : w ≠ []) (hhead : w.head? ≠ some '0')
    (hg : ∀ c ∈ g, c.isDigit = true) (hgne : g ≠ []) (hlast : g.getLast? ≠ some '0') :
    (ofScaled (Nat.ofDigitChars 10 (w ++ g) 0) (-g.length)).positional = w ++ '.' :: g := by
  have hall : ∀ c ∈ w ++ g, c.isDigit = true := fun c hc => (List.mem_append.1 hc).elim (hw c) (hg c)
  have hhead' : (w ++ g).head? ≠ some '0' := by rwa [List.head?_append_of_ne_nil _ hne]
  obtain ⟨-, hdigits⟩ := toDigits_ofDigitChars hall (by simp [hne]) hhead'
  have hsig : significantDigits (Nat.ofDigitChars 10 (w ++ g) 0) = w ++ g := by
    rw [significantDigits_of_getLast?, hdigits]
    rwa [hdigits, List.getLast?_append_of_ne_nil _ hgne]
  have hglen := List.length_pos_iff.2 hgne
  have hwlen := List.length_pos_iff.2 hne
  have hpoint : ((w ++ g).length : ℤ) + -g.length = w.length := by
    rw [List.length_append]
    omega
  rw [positional, ofScaled, hdigits, hsig]
  dsimp only
  rw [hpoint, if_neg (by rw [List.length_append]; omega), if_pos (by omega), Int.toNat_natCast, List.take_left, List.drop_left]

/-- So are a zero, a point, zeros and digits. -/
theorem positional_zero_point {g : List Char} (z : ℕ) (hg : ∀ c ∈ g, c.isDigit = true) (hne : g ≠ [])
    (hhead : g.head? ≠ some '0') (hlast : g.getLast? ≠ some '0') :
    (ofScaled (Nat.ofDigitChars 10 g 0) (-(List.replicate z '0' ++ g).length)).positional =
      '0' :: '.' :: (List.replicate z '0' ++ g) := by
  obtain ⟨-, hdigits⟩ := toDigits_ofDigitChars hg hne hhead
  have hsig : significantDigits (Nat.ofDigitChars 10 g 0) = g := by
    rw [significantDigits_of_getLast?, hdigits]
    rwa [hdigits]
  have hlen := List.length_pos_iff.2 hne
  have hpoint : (g.length : ℤ) + -(List.replicate z '0' ++ g).length = -z := by
    rw [List.length_append, List.length_replicate]
    omega
  rw [positional, ofScaled, hdigits, hsig]
  dsimp only
  rw [hpoint, if_neg (by omega), if_neg (by omega), neg_neg, Int.toNat_natCast]

end Decimal

namespace Text

variable {d : List Char}

theorem IsPlain.isLiteral (h : IsPlain d) : Literal.isLiteral d = true := by
  obtain ⟨w, f, rfl, hw, hf⟩ := h
  rcases hf.eq_nil_or with rfl | ⟨g, rfl, hg, -⟩
  · rw [List.append_nil]
    exact Literal.isLiteral_digits hw.isDigit hw.ne_nil
  · exact Literal.isLiteral_point hw.isDigit hw.ne_nil hg

/-- Digits are zeros and then digits that do not begin with one. -/
theorem exists_zeros_append (g : List Char) : ∃ z g', g = List.replicate z '0' ++ g' ∧ g'.head? ≠ some '0' := by
  have hzeros : ∀ a ∈ g.takeWhile (· == '0'), a = '0' := by
    intro a ha
    exact beq_iff_eq.1 (List.mem_takeWhile_imp (p := (· == '0')) ha)
  refine ⟨(g.takeWhile (· == '0')).length, g.dropWhile (· == '0'), ?_, ?_⟩
  · rw [← List.eq_replicate_of_mem hzeros, List.takeWhile_append_dropWhile]
  · intro hhead
    have hnot := List.head?_dropWhile_not (· == '0') g
    rw [hhead] at hnot
    exact absurd hnot (by decide)

/-- A plain text other than a zero is the positional layout of its digits. -/
theorem IsPlain.positional (h : IsPlain d) (hne : d ≠ ['0']) :
    Literal.coefficient d ≠ 0 ∧
      (Decimal.ofScaled (Literal.coefficient d) (-(Literal.fraction d).length)).positional = d := by
  obtain ⟨w, f, rfl, hw, hf⟩ := h
  have hpoint := Literal.point_not_mem_digits hw.isDigit
  rcases hf.eq_nil_or with rfl | ⟨g, rfl, hg, hgne, hlast⟩
  · rw [List.append_nil] at hne ⊢
    have hhead := hw.head?_ne hne
    rw [Literal.coefficient, Literal.whole_of_not_mem hpoint, Literal.fraction_of_not_mem hpoint, List.append_nil,
      List.length_nil, Nat.cast_zero, neg_zero]
    exact ⟨(toDigits_ofDigitChars hw.isDigit hw.ne_nil hhead).1, Decimal.positional_whole hw.isDigit hw.ne_nil hhead⟩
  · rw [Literal.coefficient, Literal.whole_append_point hpoint, Literal.fraction_append_point hpoint]
    by_cases hzero : w = ['0']
    · -- the zero of the whole part and those after the point are not among the digits
      subst hzero
      obtain ⟨z, g, rfl, hhead⟩ := exists_zeros_append g
      have hgne' : g ≠ [] := by
        rintro rfl
        cases z with
        | zero => exact hgne rfl
        | succ z =>
          rw [List.append_nil, List.replicate_succ', List.getLast?_concat] at hlast
          exact hlast rfl
      have hlast' : g.getLast? ≠ some '0' := by rwa [List.getLast?_append_of_ne_nil _ hgne'] at hlast
      have hg' : ∀ a ∈ g, a.isDigit = true := fun a ha => hg a (List.mem_append_right _ ha)
      rw [ofDigitChars_zeros_append]
      exact ⟨(toDigits_ofDigitChars hg' hgne' hhead).1, Decimal.positional_zero_point z hg' hgne' hhead hlast'⟩
    · have hhead := hw.head?_ne hzero
      have hall : ∀ a ∈ w ++ g, a.isDigit = true := fun a ha => (List.mem_append.1 ha).elim (hw.isDigit a) (hg a)
      have hhead' : (w ++ g).head? ≠ some '0' := by rwa [List.head?_append_of_ne_nil _ hw.ne_nil]
      exact ⟨(toDigits_ofDigitChars hall (by simp [hgne]) hhead').1,
        Decimal.positional_point hw.isDigit hw.ne_nil hhead hg hgne hlast⟩

/-- The number that a plain text denotes, by its digits and their last place. -/
theorem toRat_eq_mul (d : List Char) :
    Literal.toRat d = Literal.coefficient d * (10 : ℚ) ^ (-(Literal.fraction d).length : ℤ) := by
  rw [Literal.toRat_eq, tenPow_eq, zpow_neg, zpow_natCast, div_eq_mul_inv]

theorem abs_lt_overflowBound {q : ℚ} (h0 : 0 ≤ q) (h : q < 10 ^ 21) : |q| < Binary64.overflowBound := by
  rw [abs_of_nonneg h0]
  exact lt_trans (h.trans (by norm_num)) (Binary64.two_pow_lt_overflowBound (show 70 ≤ 971 by decide))

/-- The double of a number with at most ten decimals and fifteen digits has the text of the number. -/
theorem IsPlain.text_nearest (h : IsPlain d) (hne : d ≠ ['0']) (hplaces : (Literal.fraction d).length ≤ 10)
    (hdigits : (Decimal.significantDigits (Literal.coefficient d)).length ≤ 15) (hlow : 1 / 10 ^ 6 ≤ Literal.toRat d)
    (hhigh : Literal.toRat d < 10 ^ 21) :
    ∃ a, Binary64.nearest (Literal.toRat d) = .finite false a ∧ a.mant ≠ 0 ∧ (Binary64.finite false a).text = d := by
  obtain ⟨hc, hlayout⟩ := h.positional hne
  obtain ⟨n, hm, -⟩ := Decimal.exists_eq_mul_ten_pow (Literal.coefficient d)
  have hlt := Decimal.ofDigitChars_significantDigits_lt (Literal.coefficient d)
  set m := Nat.ofDigitChars 10 (Decimal.significantDigits (Literal.coefficient d)) 0
  have hm0 : m ≠ 0 := by
    intro h0
    rw [h0, Nat.zero_mul] at hm
    exact hc hm
  have hm15 : m < 10 ^ 15 := hlt.trans_le (Nat.pow_le_pow_right (by decide) hdigits)
  have hvalue := toRat_eq_mul d
  set place : ℤ := -(Literal.fraction d).length with hplace
  have hsame : Decimal.ofScaled (Literal.coefficient d) place = Decimal.ofScaled m (place + n) := by
    rw [hm, Decimal.ofScaled_mul_ten_pow hm0]
  have hvalue' : Literal.toRat d = m * (10 : ℚ) ^ (place + n) := by
    rw [hvalue, hm, zpow_add₀ (by norm_num), zpow_natCast]
    push_cast
    ring
  have hpos : (0 : ℚ) < Literal.toRat d := lt_of_lt_of_le (by norm_num) hlow
  obtain ⟨a, ha⟩ := Binary64.exists_nearest_eq (abs_lt_overflowBound hpos.le hhigh)
  rw [decide_eq_false hpos.not_gt] at ha
  have ha0 : a.mant ≠ 0 := by
    refine Binary64.mant_ne_zero_of_nearest (le_trans ?_ hlow) ha
    have hnormal := Binary64.two_pow_mul_step_zero_le (show (-11 : ℤ) ≤ -6 by decide)
    rwa [zpow_neg, ← one_div] at hnormal
  have hshort : a.shortest = Decimal.ofScaled m (place + n) := by
    rw [hvalue'] at ha
    exact Magnitude.shortest_of_nearest ha hm15 hm0 (by omega)
  refine ⟨a, ha, ha0, ?_⟩
  rw [hvalue] at hlow hhigh
  rw [Binary64.text, if_neg ha0, hshort, ← hsame, Decimal.canonical_ofScaled hc hlow hhigh, hlayout]
  rfl

/-- A plain number that is an integer is written without a point: the last place of its digits is that of the number. -/
theorem IsPlain.fraction_eq_nil (h : IsPlain d) {n : ℤ} (hn : Literal.toRat d = n) : Literal.fraction d = [] := by
  by_cases hne : d = ['0']
  · subst hne
    rfl
  obtain ⟨hc, hlayout⟩ := h.positional hne
  have hvalue : (Literal.coefficient d : ℚ) * 10 ^ (-(Literal.fraction d).length : ℤ) = n.natAbs * 10 ^ (0 : ℤ) := by
    rw [← toRat_eq_mul, ← abs_of_nonneg (Literal.toRat_nonneg d), hn, zpow_zero, mul_one, Nat.cast_natAbs, Int.cast_abs]
  have hlast : 0 ≤ (Decimal.ofScaled (Literal.coefficient d) (-(Literal.fraction d).length)).lastPlace := by
    rw [Decimal.ofScaled_eq_of_eq hc hvalue]
    exact Decimal.le_lastPlace_ofScaled _ _
  obtain ⟨w, f, heq, hw, -, hf, hlength⟩ := (Decimal.normal_ofScaled hc (-(Literal.fraction d).length)).exists_positional_eq
  rw [hlayout] at heq
  cases hf with
  | none =>
    rw [heq, List.append_nil]
    exact Literal.fraction_of_not_mem (Literal.point_not_mem_digits hw.isDigit)
  | point hv hb =>
    rw [List.tail_cons, List.length_append, List.length_singleton] at hlength
    omega

/-- So the double of a plain number with decimals is no integer: the text of an integer denotes one, and the number is the text
of its double. -/
theorem IsPlain.isInteger_nearest_eq_false (h : IsPlain d) (hplaces : (Literal.fraction d).length ≤ 10)
    (hdigits : (Decimal.significantDigits (Literal.coefficient d)).length ≤ 15)
    (hlow : Literal.toRat d = 0 ∨ 1 / 10 ^ 6 ≤ Literal.toRat d) (hhigh : Literal.toRat d < 10 ^ 21)
    (hfraction : Literal.fraction d ≠ []) : (Binary64.nearest (Literal.toRat d)).isInteger = false := by
  have hno : ∀ n : ℤ, Literal.toRat d ≠ n := fun n hn => hfraction (h.fraction_eq_nil hn)
  have hne : d ≠ ['0'] := by
    rintro rfl
    exact hfraction rfl
  obtain ⟨a, ha, -, htext⟩ := h.text_nearest hne hplaces hdigits (hlow.resolve_left (by exact_mod_cast hno 0)) hhigh
  rw [ha, Binary64.isInteger_eq_false_iff]
  rintro ⟨m, hm⟩
  obtain ⟨n, hn⟩ := Binary64.exists_readDecimal?_of_onGrid false (Binary64.onGrid_of_isInteger hm)
  have hread : readDecimal? d = some (Literal.toRat d) := readDecimal?_signText (readUnsigned?_literal h.isLiteral) false
  rw [htext, hread, zpow_zero, mul_one, Option.some.injEq] at hn
  exact hno n hn

/-- The double of a whole number is an integer, which is not rounded, and that of a number with ten decimals below `2 ^ 18` is
kept by the rounding. -/
theorem rounded_nearest_toRat (hplaces : (Literal.fraction d).length ≤ 10) (hhigh : Literal.toRat d < 10 ^ 21)
    (h : Literal.fraction d = [] ∨ Literal.toRat d < 2 ^ 18) :
    (Binary64.nearest (Literal.toRat d)).rounded = Binary64.nearest (Literal.toRat d) := by
  have hnonneg := Literal.toRat_nonneg d
  have hvalue := toRat_eq_mul d
  rcases h with hwhole | hsmall
  · rw [hwhole, List.length_nil, Nat.cast_zero, neg_zero, zpow_zero, mul_one] at hvalue
    have hbound := abs_lt_overflowBound hnonneg hhigh
    rw [hvalue, Nat.abs_cast] at hbound
    rw [hvalue]
    exact Binary64.rounded_of_isInteger (Binary64.isInteger_nearest hbound)
  · obtain ⟨k, hk⟩ := Nat.exists_eq_add_of_le hplaces
    have hunits : Literal.toRat d * 10 ^ 10 = ((Literal.coefficient d * 10 ^ k : ℕ) : ℤ) := by
      have hsplit : (10 : ℚ) ^ 10 = 10 ^ (Literal.fraction d).length * 10 ^ k := by rw [← pow_add, ← hk]
      rw [hvalue, hsplit, zpow_neg, zpow_natCast]
      push_cast
      field_simp
    exact Binary64.rounded_nearest (by rwa [abs_of_nonneg hnonneg]) hunits

end Text

/-! ## Literals that are evaluated -/

/-- A literal is displayed by the double it is read as. -/
theorem evaluate_of_isLiteral {d : List Char} (h : Literal.isLiteral d = true) :
    evaluate d = (Binary64.nearest (Literal.toRat d)).display := by
  have hderives : Derives Spelling.exact .sum d (.number (Literal.toRat d)) := .term (.factor (.number ⟨h, rfl⟩))
  exact evaluate_of_derives_self (fun hslash => absurd (Literal.all_isNumeral h '/' hslash) (by decide)) hderives

/-- A plain number is displayed as it is written exactly if its double is displayed without a change: it is the text of this
double, and no other double has this text. -/
theorem Text.IsPlain.evaluate_eq_self_iff {d : List Char} (hd : IsPlain d) (hplaces : (Literal.fraction d).length ≤ 10)
    (hdigits : (Decimal.significantDigits (Literal.coefficient d)).length ≤ 15)
    (hlow : Literal.toRat d = 0 ∨ 1 / 10 ^ 6 ≤ Literal.toRat d) (hhigh : Literal.toRat d < 10 ^ 21) :
    evaluate d = .ok d ↔ (Binary64.nearest (Literal.toRat d)).rounded = Binary64.nearest (Literal.toRat d) := by
  by_cases hne : d = ['0']
  · subst hne
    exact iff_of_true (by decide +kernel) (rounded_nearest_toRat hplaces hhigh (Or.inl rfl))
  have hpositive : Literal.toRat d ≠ 0 := by
    rw [toRat_eq_mul]
    exact mul_ne_zero (Nat.cast_ne_zero.2 (hd.positional hne).1) (by positivity)
  have hfinite := Binary64.isFinite_nearest (abs_lt_overflowBound (Literal.toRat_nonneg d) hhigh)
  obtain ⟨b, hb, hb0, htext⟩ := hd.text_nearest hne hplaces hdigits (hlow.resolve_left hpositive) hhigh
  obtain ⟨t, c, hround⟩ := Binary64.exists_rounded_eq_finite false b
  rw [evaluate_of_isLiteral hd.isLiteral, display_eq hfinite, Except.ok.injEq, hb, hround]
  constructor
  · intro h
    exact (Binary64.eq_of_text_eq hb0 (htext.trans h.symm)).symm
  · intro h
    rw [h, htext]

/-- A number with at most ten decimals and fifteen significant digits, from a millionth up to below `10 ^ 21`, is displayed as it
is written exactly if its double is displayed without a change. A whole number always is, since its double is an integer, and
integers are not rounded. The double of a number with a fraction is scaled, rounded half up and divided by the scale again; that
gives the same double whenever the number is below `2 ^ 18`. -/
theorem evaluate_plain {d : List Char} (hd : IsPlain d) (hplaces : (Literal.fraction d).length ≤ 10)
    (hdigits : (Decimal.significantDigits (Literal.coefficient d)).length ≤ 15)
    (hlow : Literal.toRat d = 0 ∨ 1 / 10 ^ 6 ≤ Literal.toRat d) (hhigh : Literal.toRat d < 10 ^ 21) :
    ∃ x : Binary64, x.IsNearest (Literal.toRat d) ∧ x.isFinite = true ∧ evaluate d = x.display ∧
      (evaluate d = .ok d ↔ x.rounded = x) ∧
      (Literal.fraction d ≠ [] →
        (evaluate d = .ok d ↔ ((x.mul Binary64.tenDecimals).roundHalfUp).div Binary64.tenDecimals = x)) ∧
      (Literal.fraction d = [] ∨ Literal.toRat d < 2 ^ 18 → evaluate d = .ok d) := by
  have hfinite := Binary64.isFinite_nearest (abs_lt_overflowBound (Literal.toRat_nonneg d) hhigh)
  have hiff := hd.evaluate_eq_self_iff hplaces hdigits hlow hhigh
  refine ⟨_, (Binary64.isNearest_iff _ _).2 rfl, hfinite, evaluate_of_isLiteral hd.isLiteral, hiff, fun hfraction => ?_,
    fun h => hiff.2 (rounded_nearest_toRat hplaces hhigh h)⟩
  have hint := hd.isInteger_nearest_eq_false hplaces hdigits hlow hhigh hfraction
  rw [hiff, Binary64.rounded_of_not_isInteger hint]

/-- The greatest number of fifteen digits below `2 ^ 18`. -/
def Literal.greatestKept : List Char := ['2', '6', '2', '1', '4', '3', '.', '9', '9', '9', '9', '9', '9', '9', '9', '9']

theorem evaluate_plain_greatestKept :
    IsPlain Literal.greatestKept ∧ (Literal.fraction Literal.greatestKept).length ≤ 10 ∧
      (Decimal.significantDigits (Literal.coefficient Literal.greatestKept)).length ≤ 15 ∧
      1 / 10 ^ 6 ≤ Literal.toRat Literal.greatestKept ∧ Literal.toRat Literal.greatestKept < 2 ^ 18 ∧
      evaluate Literal.greatestKept = .ok Literal.greatestKept := by
  have hd : IsPlain Literal.greatestKept := by
    refine ⟨['2', '6', '2', '1', '4', '3'], _, rfl, .digits (by decide) (by simp), ?_⟩
    exact .point (v := ['9', '9', '9', '9', '9', '9', '9', '9']) (c := '9') (by simp) (by decide)
  have hplaces : (Literal.fraction Literal.greatestKept).length = 9 := by decide
  have hcoefficient : Literal.coefficient Literal.greatestKept = 262143999999999 := by decide
  have hdigits : (Decimal.significantDigits (Literal.coefficient Literal.greatestKept)).length ≤ 15 := by decide +kernel
  have hvalue : Literal.toRat Literal.greatestKept = 262143999999999 / 10 ^ 9 := by
    rw [Literal.toRat_eq, hplaces, hcoefficient, tenPow_eq]
    rfl
  have hlow : 1 / 10 ^ 6 ≤ Literal.toRat Literal.greatestKept := by rw [hvalue]; norm_num
  have hhigh : Literal.toRat Literal.greatestKept < 2 ^ 18 := by rw [hvalue]; norm_num
  obtain ⟨x, -, -, -, -, -, h⟩ := evaluate_plain hd (by omega) hdigits (Or.inr hlow) (hhigh.trans (by norm_num))
  exact ⟨hd, by omega, hdigits, hlow, hhigh, h (Or.inr hhigh)⟩

/-- A number of which the double is not kept: after the product with the scale, the error is half a unit and is rounded up. -/
def Literal.notKept : List Char := ['4', '1', '2', '7', '4', '0', '.', '5', '9']

/-- It is displayed one unit of the tenth decimal greater. From `10 ^ 21` on, whole numbers have an exponent. -/
theorem evaluate_plain_counterexample :
    IsPlain Literal.notKept ∧ (Literal.fraction Literal.notKept).length ≤ 10 ∧
      (Decimal.significantDigits (Literal.coefficient Literal.notKept)).length ≤ 15 ∧
      1 / 10 ^ 6 ≤ Literal.toRat Literal.notKept ∧
      evaluate Literal.notKept = .ok "412740.5900000001".toList ∧ evaluate Literal.notKept ≠ .ok Literal.notKept ∧
      evaluate ('1' :: List.replicate 21 '0') = .ok "1e+21".toList := by
  have hd : IsPlain Literal.notKept := by
    refine ⟨['4', '1', '2', '7', '4', '0'], _, rfl, .digits (by decide) (by simp), ?_⟩
    exact .point (v := ['5']) (c := '9') (by simp) (by decide)
  have hplaces : (Literal.fraction Literal.notKept).length = 2 := by decide
  have hcoefficient : Literal.coefficient Literal.notKept = 41274059 := by decide
  have hlow : 1 / 10 ^ 6 ≤ Literal.toRat Literal.notKept := by
    rw [Literal.toRat_eq, hplaces, hcoefficient, tenPow_eq]
    norm_num
  exact ⟨hd, by omega, by decide +kernel, hlow, by decide +kernel, by decide +kernel, by decide +kernel⟩

end Calculator
