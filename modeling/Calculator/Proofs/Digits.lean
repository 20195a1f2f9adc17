import Mathlib
import Calculator.Proofs.ReadBack

/-!
# The digits of decimals

The digits of a positive decimal have no zero at either end (`Decimal.normal_ofScaled`), so a decimal is told by the number it
stands for (`Decimal.ofScaled_eq_of_eq`), and digits without a zero in front are those of the number they write
(`toDigits_ofDigitChars`).
-/

namespace Calculator

/-! ## Digits of natural numbers -/

theorem digitChar_ne_zero {n : ℕ} (h0 : n ≠ 0) (hn : n < 10) : n.digitChar ≠ '0' := by
  have hall : ∀ m < 10, m ≠ 0 → m.digitChar ≠ '0' := by decide
  exact hall n hn h0

/-- Only zero begins with a zero. -/
theorem head?_toDigits {n : ℕ} (hn : n ≠ 0) : (Nat.toDigits 10 n).head? ≠ some '0' := by
  induction n using Nat.strongRecOn with
  | ind n ih =>
    by_cases hlt : n < 10
    · rw [Nat.toDigits_of_lt_base hlt, List.head?_singleton, ne_eq, Option.some.injEq]
      exact digitChar_ne_zero hn hlt
    · have hdiv : n / 10 ≠ 0 := by omega
      rw [Nat.toDigits_of_base_le (by decide) (not_lt.1 hlt), List.head?_append_of_ne_nil _ Nat.toDigits_ne_nil]
      exact ih (n / 10) (by omega) hdiv

/-- Times ten, a zero follows the digits. -/
theorem toDigits_mul_ten_pow {n : ℕ} (hn : n ≠ 0) (k : ℕ) :
    Nat.toDigits 10 (n * 10 ^ k) = Nat.toDigits 10 n ++ List.replicate k '0' := by
  induction k with
  | zero => simp
  | succ k ih =>
    have hpos : 0 < n * 10 ^ k := by positivity
    have happend := Nat.toDigits_append_toDigits (b := 10) (d := 0) (by decide) hpos (by decide)
    have hmul : n * 10 ^ (k + 1) = 10 * (n * 10 ^ k) + 0 := by ring
    rw [hmul, ← happend, ih, List.append_assoc, List.replicate_succ']
    rfl

theorem digitChar_sub {c : Char} (h : c.isDigit = true) : (c.toNat - '0'.toNat).digitChar = c ∧ c.toNat - '0'.toNat < 10 := by
  have hc : Char.ofNat c.toNat = c := Char.ofNat_toNat c
  simp only [Char.isDigit, Bool.and_eq_true, decide_eq_true_eq, ge_iff_le, UInt32.le_iff_toNat_le] at h
  obtain ⟨hlo, hhi⟩ := h
  change 48 ≤ c.toNat at hlo
  change c.toNat ≤ 57 at hhi
  change (c.toNat - 48).digitChar = c ∧ c.toNat - 48 < 10
  rw [← hc]
  generalize c.toNat = n at *
  interval_cases n <;> decide

/-- Digits of which the first is no zero are those of the number they write. -/
theorem toDigits_ofDigitChars {w : List Char} (hw : ∀ c ∈ w, c.isDigit = true) (hne : w ≠ []) (hhead : w.head? ≠ some '0') :
    Nat.ofDigitChars 10 w 0 ≠ 0 ∧ Nat.toDigits 10 (Nat.ofDigitChars 10 w 0) = w := by
  induction w using List.reverseRecOn with
  | nil => exact absurd rfl hne
  | append_singleton v c ih =>
    obtain ⟨hchar, hlt⟩ := digitChar_sub (hw c (by simp))
    have hsum : Nat.ofDigitChars 10 (v ++ [c]) 0 = 10 * Nat.ofDigitChars 10 v 0 + (c.toNat - '0'.toNat) := by
      rw [Nat.ofDigitChars_append, Nat.ofDigitChars_cons, Nat.ofDigitChars_nil]
    rw [hsum]
    rcases eq_or_ne v [] with rfl | hv
    · have hc : c.toNat - '0'.toNat ≠ 0 := by
        intro h0
        rw [h0] at hchar
        exact hhead (by rw [← hchar]; rfl)
      rw [Nat.ofDigitChars_nil, Nat.mul_zero, Nat.zero_add, Nat.toDigits_of_lt_base hlt, hchar]
      exact ⟨hc, rfl⟩
    · have hhead' : v.head? ≠ some '0' := by rwa [List.head?_append_of_ne_nil _ hv] at hhead
      obtain ⟨hpos, hdigits⟩ := ih (fun a ha => hw a (by simp [ha])) hv hhead'
      have happend := Nat.toDigits_append_toDigits (b := 10) (by decide) (Nat.pos_of_ne_zero hpos) hlt
      rw [← happend, hdigits, Nat.toDigits_of_lt_base hlt, hchar]
      exact ⟨by omega, rfl⟩

/-- A multiple of a power of ten is one of each smaller power. -/
theorem exists_mul_zpow_eq {place place' : ℤ} (h : place ≤ place') :
    ∃ k : ℕ, place' = place + k ∧ ∀ c : ℚ, c * 10 ^ place' = c * 10 ^ k * 10 ^ place := by
  obtain ⟨k, hk⟩ := Int.eq_ofNat_of_zero_le (sub_nonneg.2 h)
  obtain rfl : place' = place + k := by omega
  refine ⟨k, rfl, fun c => ?_⟩
  rw [zpow_add₀ (by norm_num), zpow_natCast, mul_assoc, mul_comm (10 ^ k)]

namespace Decimal

/-! ## Decimals without zeros at their ends -/

/-- The digits of a positive decimal: there is one, and neither the first nor the last is a zero. -/
structure Normal (d : Decimal) : Prop where
  isDigit : ∀ c ∈ d.digits, c.isDigit = true
  ne_nil : d.digits ≠ []
  first : d.digits.head? ≠ some '0'
  last : d.digits.getLast? ≠ some '0'

theorem normal_ofScaled {c : ℕ} (hc : c ≠ 0) (place : ℤ) : (ofScaled c place).Normal where
  isDigit _ := isDigit_of_mem_significantDigits
  ne_nil := significantDigits_ne_nil hc
  first := by
    obtain ⟨n, hn⟩ := exists_toDigits_eq c
    have hhead := head?_toDigits hc
    rwa [hn, List.head?_append_of_ne_nil _ (significantDigits_ne_nil hc)] at hhead
  last := by
    intro hlast
    have hne := significantDigits_ne_nil hc
    change (significantDigits c).getLast? = _ at hlast
    rw [significantDigits_eq] at hlast hne
    have hstop := List.rdropWhile_last_not (· == '0') (Nat.toDigits 10 c) hne
    rw [List.getLast?_eq_some_getLast hne, Option.some.injEq] at hlast
    rw [hlast] at hstop
    exact hstop rfl

/-- The place of the last digit. -/
def lastPlace (d : Decimal) : ℤ := d.point - d.digits.length

/-- The last digit is not after the place of the number that was written. -/
theorem le_lastPlace_ofScaled (c : ℕ) (place : ℤ) : place ≤ (ofScaled c place).lastPlace := by
  obtain ⟨n, -, hlength⟩ := exists_eq_mul_ten_pow c
  rw [lastPlace, ofScaled]
  dsimp only
  omega

/-- The point is after the first power of ten that is above the number. -/
theorem le_of_ofScaled {c : ℕ} (hc : c ≠ 0) (place : ℤ) : (10 : ℚ) ^ ((ofScaled c place).point - 1) ≤ c * 10 ^ place := by
  obtain ⟨k, hk⟩ := Nat.exists_eq_add_of_le' (Nat.length_toDigits_pos (b := 10) (n := c))
  have hpow : (10 : ℚ) ^ k ≤ c := by exact_mod_cast pow_le_of_length_toDigits (Nat.pos_of_ne_zero hc) hk
  have hpoint : (ofScaled c place).point - 1 = k + place := by
    rw [ofScaled, hk]
    push_cast
    ring
  rw [hpoint, zpow_add₀ (by norm_num), zpow_natCast]
  exact mul_le_mul_of_nonneg_right hpow (by positivity)

theorem lt_of_ofScaled (c : ℕ) (place : ℤ) : c * 10 ^ place < (10 : ℚ) ^ (ofScaled c place).point := by
  rw [ofScaled, zpow_add₀ (by norm_num), zpow_natCast]
  exact mul_lt_mul_of_pos_right (by exact_mod_cast lt_pow_length_toDigits c) (by positivity)

/-- A number between a millionth and `10 ^ 21` has the positional layout. -/
theorem canonical_ofScaled {c : ℕ} {place : ℤ} (hc : c ≠ 0) (hlow : (1 : ℚ) / 10 ^ 6 ≤ c * 10 ^ place)
    (hhigh : (c : ℚ) * 10 ^ place < 10 ^ 21) : (ofScaled c place).canonical = (ofScaled c place).positional := by
  have hfirst : (10 : ℚ) ^ ((ofScaled c place).point - 1) < 10 ^ (21 : ℤ) := (le_of_ofScaled hc place).trans_lt hhigh
  have hlast : (10 : ℚ) ^ (-6 : ℤ) < 10 ^ (ofScaled c place).point := by
    refine lt_of_le_of_lt ?_ (lt_of_ofScaled c place)
    rw [zpow_neg, ← one_div]
    exact hlow
  have hpoint := (zpow_lt_zpow_iff_right₀ (by norm_num)).1 hfirst
  have hpoint' := (zpow_lt_zpow_iff_right₀ (by norm_num)).1 hlast
  exact if_pos ⟨by omega, by omega⟩

/-- A factor of ten can be moved to the place. -/
theorem ofScaled_mul_ten_pow {c : ℕ} (hc : c ≠ 0) (k : ℕ) (place : ℤ) :
    ofScaled (c * 10 ^ k) place = ofScaled c (place + k) := by
  have hdigits : significantDigits (c * 10 ^ k) = significantDigits c := by
    rw [significantDigits, toDigits_mul_ten_pow hc, List.reverse_append, List.reverse_replicate,
      List.dropWhile_append_of_pos fun _ => beq_zero_of_mem_replicate, significantDigits]
  rw [ofScaled, ofScaled, hdigits, toDigits_mul_ten_pow hc, List.length_append, List.length_replicate]
  congr 1
  push_cast
  ring

/-- A positive decimal is told by the number it stands for. -/
theorem ofScaled_eq_of_eq {c c' : ℕ} {place place' : ℤ} (hc : c ≠ 0) (h : (c : ℚ) * 10 ^ place = c' * 10 ^ place') :
    ofScaled c place = ofScaled c' place' := by
  have hc' : c' ≠ 0 := by
    rintro rfl
    rw [Nat.cast_zero, zero_mul, mul_eq_zero] at h
    exact h.elim (fun h0 => hc (by exact_mod_cast h0)) (fun h0 => absurd h0 (by positivity))
  -- the number with the finer place is a multiple of the other one
  have hmultiple : ∀ {c c' : ℕ} {place place' : ℤ}, place ≤ place' → (c : ℚ) * 10 ^ place = c' * 10 ^ place' →
      c' ≠ 0 → ofScaled c place = ofScaled c' place' := by
    intro c c' place place' hle h hc'
    obtain ⟨k, hplace, hscale⟩ := exists_mul_zpow_eq hle
    have hpow : (10 : ℚ) ^ place ≠ 0 := by positivity
    have hcoeff : c = c' * 10 ^ k := by
      rw [hscale] at h
      exact_mod_cast mul_right_cancel₀ hpow h
    rw [hcoeff, ofScaled_mul_ten_pow hc', hplace]
  rcases le_total place place' with hle | hle
  · exact hmultiple hle h hc'
  · exact (hmultiple hle h.symm hc).symm

end Decimal

end Calculator
