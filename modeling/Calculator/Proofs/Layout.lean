import Mathlib
import Calculator.Display
import Calculator.Decimal.Reader
import Calculator.Proofs.Literal

/-!
# Layouts read back

A decimal is denoted by the text of its canonical layout, whichever of the layouts that is (`Decimal.readUnsigned?_canonical`).
All layouts but one are literals, and the scientific one is a literal and a power of ten.
-/

namespace Calculator

namespace Literal

/-! ## Literals by their two parts -/

variable {u v w : List Char}

theorem isNumeral_of_isDigit {c : Char} (h : c.isDigit = true) : isNumeral c = true := by
  rw [isNumeral, h]
  rfl

theorem ne_point_of_isDigit {c : Char} (h : c.isDigit = true) : c ≠ '.' := by
  rintro rfl
  cases h

theorem point_not_mem_digits (hu : ∀ c ∈ u, c.isDigit = true) : '.' ∉ u := fun h => ne_point_of_isDigit (hu _ h) rfl

theorem count_point_digits (hu : ∀ c ∈ u, c.isDigit = true) : u.count '.' = 0 :=
  List.count_eq_zero.2 (point_not_mem_digits hu)

theorem any_isDigit (hu : ∀ c ∈ u, c.isDigit = true) (hne : u ≠ []) : u.any Char.isDigit = true := by
  obtain ⟨c, hc⟩ := List.exists_mem_of_ne_nil u hne
  exact List.any_eq_true.2 ⟨c, hc, hu c hc⟩

/-- Digits are a literal. -/
theorem isLiteral_digits (hu : ∀ c ∈ u, c.isDigit = true) (hne : u ≠ []) : isLiteral u = true := by
  have hall : u.all isNumeral = true := List.all_eq_true.2 fun c hc => isNumeral_of_isDigit (hu c hc)
  rw [isLiteral, hall, any_isDigit hu hne, count_point_digits hu]
  rfl

/-- Digits with a point among them are a literal. -/
theorem isLiteral_point (hu : ∀ c ∈ u, c.isDigit = true) (hne : u ≠ []) (hv : ∀ c ∈ v, c.isDigit = true) :
    isLiteral (u ++ '.' :: v) = true := by
  have hall : (u ++ '.' :: v).all isNumeral = true := by
    refine List.all_eq_true.2 fun c hc => ?_
    rcases List.mem_append.1 hc with hc | hc
    · exact isNumeral_of_isDigit (hu c hc)
    · rcases List.mem_cons.1 hc with rfl | hc
      · rfl
      · exact isNumeral_of_isDigit (hv c hc)
  have hany : (u ++ '.' :: v).any Char.isDigit = true := by rw [List.any_append, any_isDigit hu hne, Bool.true_or]
  have hcount : (u ++ '.' :: v).count '.' = 1 := by
    rw [List.count_append, List.count_cons_self, count_point_digits hu, count_point_digits hv]
  rw [isLiteral, hall, hany, hcount]
  rfl

/-- Digits denote the number they write. -/
theorem toRat_digits (hu : ∀ c ∈ u, c.isDigit = true) : toRat u = Nat.ofDigitChars 10 u 0 := by
  rw [toRat_of_not_mem (point_not_mem_digits hu), wholeNumber_eq]

/-- Digits with a point among them denote the number that all of them write, a tenth of it for each digit after the point. -/
theorem toRat_point (hu : ∀ c ∈ u, c.isDigit = true) :
    toRat (u ++ '.' :: v) = Nat.ofDigitChars 10 (u ++ v) 0 / 10 ^ v.length := by
  have hpoint := point_not_mem_digits hu
  rw [toRat_eq, coefficient, whole_append_point hpoint, fraction_append_point hpoint, tenPow_eq]

end Literal

/-! ## Zeros among digits -/

theorem isDigit_of_mem_replicate {n : ℕ} {c : Char} (h : c ∈ List.replicate n '0') : c.isDigit = true := by
  rw [List.eq_of_mem_replicate h]
  rfl

theorem beq_zero_of_mem_replicate {n : ℕ} {c : Char} (h : c ∈ List.replicate n '0') : (c == '0') = true :=
  beq_iff_eq.2 (List.eq_of_mem_replicate h)

/-- Zeros in front of digits do not count. -/
theorem ofDigitChars_zeros_append (n : ℕ) (g : List Char) :
    Nat.ofDigitChars 10 (['0'] ++ (List.replicate n '0' ++ g)) 0 = Nat.ofDigitChars 10 g 0 := by
  rw [Nat.ofDigitChars_append, Nat.ofDigitChars_append]
  simp [Nat.ofDigitChars_cons]

/-! ## Reading texts -/

/-- The letter of a power of ten is not among the characters of literals. -/
theorem Literal.bne_e {w : List Char} (hw : ∀ c ∈ w, Literal.isNumeral c = true) : ∀ c ∈ w, (c != 'e') = true := by
  intro c hc
  refine bne_iff_ne.2 ?_
  rintro rfl
  cases hw _ hc

theorem readUnsigned?_literal {w : List Char} (hw : Literal.isLiteral w = true) :
    readUnsigned? w = some (Literal.toRat w) := by
  have hplain := Literal.bne_e (Literal.all_isNumeral hw)
  unfold readUnsigned?
  simp only [List.takeWhile_eq_self_iff.2 hplain, List.dropWhile_eq_nil_iff.2 hplain, hw, if_true]

/-- The power of ten is read as it is written. -/
theorem readExponent?_exponentText (e : ℤ) :
    readExponent? ((if e < 0 then '-' else '+') :: Nat.toDigits 10 e.natAbs) = some e := by
  have hdigits : (Nat.toDigits 10 e.natAbs).all Char.isDigit = true :=
    List.all_eq_true.2 fun c hc => Nat.isDigit_of_mem_toDigits (by decide) (by decide) hc
  have hne : (Nat.toDigits 10 e.natAbs).isEmpty = false := List.isEmpty_eq_false_iff.2 Nat.toDigits_ne_nil
  simp only [readExponent?, hdigits, hne, Bool.not_true, Bool.or_false, Nat.ofDigitChars_ten_toDigits]
  by_cases h : e < 0
  · simp [h, abs_of_neg h]
  · simp [h, abs_of_nonneg (not_lt.1 h)]

theorem readUnsigned?_exponent {w : List Char} (hw : Literal.isLiteral w = true) (e : ℤ) :
    readUnsigned? (w ++ Decimal.exponentText e) = some (Literal.toRat w * 10 ^ e) := by
  have hplain := Literal.bne_e (Literal.all_isNumeral hw)
  have htake : (w ++ Decimal.exponentText e).takeWhile (· != 'e') = w := by
    rw [List.takeWhile_append_of_pos hplain, Decimal.exponentText, List.takeWhile_cons_of_neg (by simp), List.append_nil]
  have hdrop : (w ++ Decimal.exponentText e).dropWhile (· != 'e') = Decimal.exponentText e := by
    rw [List.dropWhile_append_of_pos hplain, Decimal.exponentText, List.dropWhile_cons_of_neg (by simp)]
  unfold readUnsigned?
  simp only [htake, hdrop, hw, if_true]
  simp only [Decimal.exponentText, readExponent?_exponentText, Option.map_some]

/-- A text without a sign is read as it is, and one with a minus sign as its opposite. -/
theorem readDecimal?_signText {cs : List Char} {q : ℚ} (h : readUnsigned? cs = some q) (neg : Bool) :
    readDecimal? (Binary64.signText neg ++ cs) = some (if neg then -q else q) := by
  cases neg with
  | true => simp [Binary64.signText, readDecimal?, h]
  | false =>
    change readDecimal? cs = some q
    unfold readDecimal?
    split
    · -- no literal begins with a minus sign
      rename_i cs
      have hnone : readUnsigned? ('-' :: cs) = none := by
        unfold readUnsigned?
        rw [List.takeWhile_cons_of_pos (by decide)]
        simp [Literal.isLiteral, Literal.isNumeral]
      rw [hnone] at h
      cases h
    · exact h

namespace Decimal

/-! ## The texts of decimals -/

variable {d : Decimal}

/-- A decimal is the number that its digits write, moved to its place. -/
theorem toRat_eq (d : Decimal) : d.toRat = Nat.ofDigitChars 10 d.digits 0 * 10 ^ (d.point - d.digits.length) := by
  rw [toRat, Literal.fractionNumber_eq, Literal.wholeNumber_eq, zpow_sub₀ (by norm_num), zpow_natCast]
  ring

/-- The positional layout is a literal that denotes the decimal. -/
theorem readUnsigned?_positional (hd : ∀ c ∈ d.digits, c.isDigit = true) (hne : d.digits ≠ []) :
    readUnsigned? d.positional = some d.toRat := by
  rw [toRat_eq]
  rcases d.positional_cases with ⟨z, hpoint, htext⟩ | ⟨u, v, hsplit, hu, -, hpoint, htext⟩ | ⟨z, hpoint, htext⟩
  · -- zeros after the digits
    have hall : ∀ c ∈ d.digits ++ List.replicate z '0', c.isDigit = true :=
      fun c hc => (List.mem_append.1 hc).elim (hd c) isDigit_of_mem_replicate
    have hplace : d.point - d.digits.length = (z : ℤ) := by omega
    rw [htext, hplace, readUnsigned?_literal (Literal.isLiteral_digits hall (by simp [hne])), Literal.toRat_digits hall,
      Nat.ofDigitChars_append, Nat.ofDigitChars_replicate_zero, zpow_natCast]
    push_cast
    rw [mul_comm]
  · -- the point among the digits
    have hfirst : ∀ c ∈ u, c.isDigit = true := fun c hc => hd c (by simp [hsplit, hc])
    have hlast : ∀ c ∈ v, c.isDigit = true := fun c hc => hd c (by simp [hsplit, hc])
    have hplace : d.point - d.digits.length = -(v.length : ℤ) := by
      rw [hpoint, hsplit, List.length_append]
      omega
    rw [htext, hplace, readUnsigned?_literal (Literal.isLiteral_point hfirst hu hlast), Literal.toRat_point hfirst, hsplit,
      zpow_neg, zpow_natCast, div_eq_mul_inv]
  · -- zeros between the point and the digits
    have hzero : ∀ c ∈ ['0'], c.isDigit = true := by simp
    have hall : ∀ c ∈ List.replicate z '0' ++ d.digits, c.isDigit = true :=
      fun c hc => (List.mem_append.1 hc).elim isDigit_of_mem_replicate (hd c)
    have hplace : d.point - d.digits.length = -((List.replicate z '0' ++ d.digits).length : ℤ) := by
      rw [List.length_append, List.length_replicate]
      omega
    rw [htext, hplace, readUnsigned?_literal (Literal.isLiteral_point hzero (by simp) hall), Literal.toRat_point hzero,
      ofDigitChars_zeros_append, zpow_neg, zpow_natCast, div_eq_mul_inv]

/-- The scientific layout is a literal with one digit before the point, and a power of ten that moves it back. -/
theorem readUnsigned?_scientific (hd : ∀ c ∈ d.digits, c.isDigit = true) (hne : d.digits ≠ []) :
    readUnsigned? d.scientific = some d.toRat := by
  obtain ⟨c, w, hcw⟩ := List.exists_cons_of_ne_nil hne
  have hc : ∀ a ∈ [c], a.isDigit = true := fun a ha => hd a (by simp_all)
  have hw : ∀ a ∈ w, a.isDigit = true := fun a ha => hd a (by simp_all)
  have hmantissa : ∃ m, [c] ++ (if w.isEmpty then [] else '.' :: w) = m ∧ Literal.isLiteral m = true ∧
      Literal.toRat m = Nat.ofDigitChars 10 (c :: w) 0 / 10 ^ w.length := by
    cases w with
    | nil => exact ⟨[c], rfl, Literal.isLiteral_digits hc (by simp), by simp [Literal.toRat_digits hc]⟩
    | cons a w => exact ⟨[c] ++ '.' :: a :: w, rfl, Literal.isLiteral_point hc (by simp) hw, Literal.toRat_point hc⟩
  obtain ⟨m, hm, hlit, hvalue⟩ := hmantissa
  have hplace : d.point - d.digits.length = d.point - 1 - w.length := by
    rw [hcw, List.length_cons]
    omega
  have htext : d.scientific = m ++ exponentText (d.point - 1) := by
    rw [scientific, hcw, ← hm]
    rfl
  rw [htext, readUnsigned?_exponent hlit, hvalue, toRat_eq, hplace, hcw, zpow_sub₀ (by norm_num) (d.point - 1), zpow_natCast]
  congr 1
  ring

/-- So is the canonical layout. -/
theorem readUnsigned?_canonical (hd : ∀ c ∈ d.digits, c.isDigit = true) (hne : d.digits ≠ []) :
    readUnsigned? d.canonical = some d.toRat := by
  rw [canonical]
  split
  · exact readUnsigned?_positional hd hne
  · exact readUnsigned?_scientific hd hne

end Decimal

end Calculator
