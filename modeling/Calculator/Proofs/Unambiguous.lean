import Mathlib
import Calculator.Decimal.CheckedLayout
import Calculator.Proofs.PlainLiteral

/-!
# The canonical layout is exact and unambiguous

A decimal without zeros at its ends is told from its text: the text denotes the number that the decimal stands for, and two of
these decimals that stand for one number are one (`Decimal.Normal.eq_of_toRat_eq`). Nothing is cut off on the way, since no number
of zeros is negative and no place lies outside of the digits (`Decimal.canonical?_eq`).
-/

namespace Calculator

namespace Decimal

variable {d d' : Decimal}

/-! ## The counts -/

theorem zeros?_of_nonneg {n : ℤ} (h : 0 ≤ n) : zeros? n = some (List.replicate n.toNat '0') := if_pos h

theorem divide?_of_le {w : List Char} {n : ℤ} (h : 0 ≤ n) (hle : n ≤ w.length) :
    divide? w n = some (w.take n.toNat, w.drop n.toNat) := by
  rw [divide?, if_pos ⟨h, hle⟩, List.splitAt_eq]

/-- In each of the four cases the numbers of zeros are not negative and the places are among the digits, so the checks change
nothing. -/
theorem canonical?_eq (hne : d.digits ≠ []) : d.canonical? = some d.canonical := by
  have hlength : 1 ≤ d.digits.length := List.length_pos_iff.2 hne
  rw [canonical?, canonical]
  by_cases hlast : d.digits.length ≤ d.point ∧ d.point ≤ 21
  · rw [if_pos hlast, if_pos (by omega), zeros?_of_nonneg (by omega), positional, if_pos hlast.1]
    rfl
  · rw [if_neg hlast]
    by_cases hamong : 0 < d.point ∧ d.point ≤ 21
    · rw [if_pos hamong, if_pos (by omega), divide?_of_le (by omega) (by omega), positional, if_neg (by omega), if_pos hamong.1]
      rfl
    · rw [if_neg hamong]
      by_cases hfirst : -6 < d.point ∧ d.point ≤ 0
      · rw [if_pos hfirst, if_pos (by omega), zeros?_of_nonneg (by omega), positional, if_neg (by omega), if_neg (by omega)]
        rfl
      · rw [if_neg hfirst, if_neg (by omega), divide?_of_le (by omega) (by omega)]
        rfl

/-! ## Decimals that stand for one number -/

/-- A decimal without zeros at its ends is that of the number which its digits write. -/
theorem Normal.eq_ofScaled (h : d.Normal) : d = ofScaled (Nat.ofDigitChars 10 d.digits 0) d.lastPlace := by
  obtain ⟨-, hdigits⟩ := toDigits_ofDigitChars h.isDigit h.ne_nil h.first
  have hlast : (Nat.toDigits 10 (Nat.ofDigitChars 10 d.digits 0)).getLast? ≠ some '0' := by
    rw [hdigits]
    exact h.last
  have hpoint : (d.digits.length : ℤ) + d.lastPlace = d.point := by rw [lastPlace, add_sub_cancel]
  rw [ofScaled, significantDigits_of_getLast? hlast, hdigits, hpoint]

/-- So it is told by the number that it stands for. -/
theorem Normal.eq_of_toRat_eq (h : d.Normal) (h' : d'.Normal) (heq : d.toRat = d'.toRat) : d = d' := by
  obtain ⟨hne, -⟩ := toDigits_ofDigitChars h.isDigit h.ne_nil h.first
  rw [toRat_eq, toRat_eq] at heq
  rw [h.eq_ofScaled, h'.eq_ofScaled]
  exact ofScaled_eq_of_eq hne heq

theorem Normal.readDecimal?_canonical (h : d.Normal) : readDecimal? d.canonical = some d.toRat :=
  readDecimal?_signText (readUnsigned?_canonical h.isDigit h.ne_nil) false

end Decimal

/-- The canonical text of a decimal without zeros at its ends, whatever the number of its digits and the place of its point: no
count that it is made with is negative and no place is outside of the digits, it denotes exactly the number that the digits after
a point stand for with the point moved, and no other such decimal has the same text. -/
theorem canonical_unambiguous {d : Decimal} (h : d.Normal) :
    d.canonical? = some d.canonical ∧ readDecimal? d.canonical = some d.toRat ∧
      ∀ d' : Decimal, d'.Normal → d'.canonical = d.canonical → d' = d := by
  refine ⟨Decimal.canonical?_eq h.ne_nil, h.readDecimal?_canonical, fun d' h' htext => ?_⟩
  have hread := h'.readDecimal?_canonical
  rw [htext, h.readDecimal?_canonical, Option.some.injEq] at hread
  exact (h.eq_of_toRat_eq h' hread).symm

/-- The greatest decimal with two digits that is written with a power of ten for being small. -/
theorem canonical_unambiguous_small :
    (⟨"99".toList, -6⟩ : Decimal).Normal ∧ (⟨"99".toList, -6⟩ : Decimal).canonical? = some "9.9e-7".toList ∧
      readDecimal? "9.9e-7".toList = some (99 / 10 ^ 8) ∧
      ∀ d' : Decimal, d'.Normal → d'.canonical = "9.9e-7".toList → d' = ⟨"99".toList, -6⟩ := by
  have hnormal : (⟨"99".toList, -6⟩ : Decimal).Normal := ⟨by simp, by decide, by decide, by decide⟩
  have htext : (⟨"99".toList, -6⟩ : Decimal).canonical = "9.9e-7".toList := by cbv
  have hvalue : (⟨"99".toList, -6⟩ : Decimal).toRat = 99 / 10 ^ 8 := by
    rw [Decimal.toRat_eq, show Nat.ofDigitChars 10 "99".toList 0 = 99 from rfl, show "99".toList.length = 2 from rfl]
    norm_num
  obtain ⟨hchecked, hread, hunique⟩ := canonical_unambiguous hnormal
  rw [htext] at hchecked hread hunique
  rw [hvalue] at hread
  exact ⟨hnormal, hchecked, hread, hunique⟩

end Calculator
