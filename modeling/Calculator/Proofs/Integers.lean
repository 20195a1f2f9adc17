import Mathlib
import Calculator.Proofs.PlainLiteral
import Calculator.Proofs.TenDecimals
import Calculator.Proofs.Typing

/-!
# Displayed integers

An integer below `10 ^ 21` is displayed by digits alone, with a minus sign in front of a negative one, and evaluating them again
gives the same text (`evaluate_integer`). Up to `2 ^ 53` the digits are those of the integer (`Binary64.text_eq_toString`). Above
they may be those of another number that is rounded to it: the shortest ones are filled up with zeros.
-/

namespace Calculator

open Text

namespace Magnitude

variable {a : Magnitude}

/-! ## The digits of whole magnitudes -/

/-- The number that digits alone write is rounded to the magnitude. -/
theorem nearest_toRat_shortest (ha : a.mant ≠ 0) (hw : IsWhole a.shortest.canonical) :
    Binary64.nearest (Literal.toRat a.shortest.canonical) = .finite false a := by
  have hread := readDecimal?_signText (readUnsigned?_literal (Literal.isLiteral_digits hw.isDigit hw.ne_nil)) false
  refine Binary64.nearest_of_readDecimal?_text ha ?_
  rw [Binary64.text, if_neg ha, hread, if_neg Bool.false_ne_true]

/-- The grid is coarser than the whole numbers from `2 ^ 53` on. Two of them are rounded to it, and the nearer one is displayed. -/
theorem exists_shortest_eq_toDigits :
    ∃ a : Magnitude, a.toRat = 2 ^ 53 ∧ a.shortest.canonical = Nat.toDigits 10 (2 ^ 53) := by
  obtain ⟨a, hmant, hexp, hdigits⟩ : ∃ a : Magnitude, a.mant = 2 ^ 52 ∧ a.exp = 1 + 1074 ∧
      a.shortest.canonical = Nat.toDigits 10 (2 ^ 53) :=
    ⟨⟨1 <<< 52, 1075, by decide, by decide, Or.inr (by decide)⟩, by decide, rfl, by decide +kernel⟩
  refine ⟨a, ?_, hdigits⟩
  rw [toRat_eq_mul_step, hmant, hexp, step_add, step_unitPlace]
  norm_num

/-- Up to it, only the whole number itself is rounded to a magnitude, so its digits are displayed. -/
theorem shortest_eq_toDigits {k : ℕ} (ha : a.mant ≠ 0) (hk : a.toRat = k) (hle : k ≤ 2 ^ 53)
    (hw : IsWhole a.shortest.canonical) : a.shortest.canonical = Nat.toDigits 10 k := by
  obtain ⟨b, hb, hdisplayed⟩ := exists_shortest_eq_toDigits
  rcases hle.eq_or_lt with rfl | hlt
  · have hab : a = b := by
      refine toRat_injective ?_
      rw [hk, hb]
      norm_num
    rw [hab, hdisplayed]
  · have hnearest := nearest_toRat_shortest ha hw
    have hzero : a.shortest.canonical ≠ ['0'] := by
      intro h0
      rw [h0, Literal.toRat_digits (by simp)] at hnearest
      exact Binary64.ne_zero_of_nearest_eq ha hnearest (by simp [Nat.ofDigitChars_cons])
    obtain ⟨-, hdigits⟩ := toDigits_ofDigitChars hw.isDigit hw.ne_nil (hw.head?_ne hzero)
    rw [Literal.toRat_digits hw.isDigit] at hnearest
    generalize Nat.ofDigitChars 10 a.shortest.canonical 0 = m at hnearest hdigits
    -- a number from `2 ^ 53` on is not rounded below it, as it is a magnitude itself
    have hsmall : m < 2 ^ 53 := by
      by_contra hge
      have hbound := ((Binary64.isNearest_iff _ _).2 hnearest.symm).1
      have hle' : (Binary64.finite false b).toRat ≤ m := by
        rw [Binary64.toRat_finite_false, hb]
        exact_mod_cast not_lt.1 hge
      have hmono := Binary64.toRat_le_toRat_nearest hbound hle'
      rw [hnearest, Binary64.toRat_finite_false, Binary64.toRat_finite_false, hb, hk] at hmono
      have hk' : 2 ^ 53 ≤ k := by exact_mod_cast hmono
      omega
    have hexact := Binary64.toRat_nearest_intCast (n := m) (by rwa [Int.natAbs_natCast])
    rw [Int.cast_natCast, hnearest, Binary64.toRat_finite_false, hk, Nat.cast_inj] at hexact
    rw [hexact, hdigits]

end Magnitude

namespace Binary64

/-! ## The texts of integers -/

/-- The decimal writing of an integer is its sign and its digits. -/
theorem toList_toString (n : ℤ) : (toString n).toList = signText (n < 0) ++ Nat.toDigits 10 n.natAbs := by
  change n.repr.toList = _
  rw [Int.repr_eq_if]
  split
  · rename_i h
    rw [decide_eq_false (not_lt.2 h), Nat.toList_repr, show n.toNat = n.natAbs by omega]
    rfl
  · rename_i h
    rw [decide_eq_true (not_le.1 h), String.toList_append, Nat.toList_repr, show (-n).toNat = n.natAbs by omega]
    rfl

/-- Up to `2 ^ 53` the text of an integer is its decimal writing. -/
theorem text_eq_toString {neg : Bool} {a : Magnitude} {n : ℤ} (hn : (finite neg a).toRat = n) (hle : |n| ≤ 2 ^ 53) :
    (finite neg a).text = (toString n).toList := by
  by_cases ha : a.mant = 0
  · have hzero : n = 0 := by
      rw [(toRat_finite_eq_zero_iff neg a).2 ha] at hn
      exact_mod_cast hn.symm
    rw [text, if_pos ha, hzero]
    decide
  · have hvalue := toRat_eq_natAbs hn
    have hsize : n.natAbs ≤ 2 ^ 53 := by
      rw [Int.abs_eq_natAbs] at hle
      exact_mod_cast hle
    have hlt : a.toRat < 10 ^ 21 := by
      rw [hvalue]
      exact_mod_cast hsize.trans_lt (by norm_num)
    have hsign := toRat_finite_neg (mt (toRat_finite_eq_zero_iff neg a).1 ha)
    rw [hn, decide_eq_decide.2 Int.cast_lt_zero] at hsign
    rw [text, if_neg ha, Magnitude.shortest_eq_toDigits ha hvalue hsize ((onGrid_of_isInteger hn).isWhole_shortest ha hlt),
      toList_toString, hsign]

/-! ## Evaluating them again -/

/-- Zero less a magnitude is the negative number. -/
theorem zero_sub_finite {a : Magnitude} (ha : a.mant ≠ 0) : (zero false).sub (finite false a) = finite true a := by
  have hne : (finite true a).toRat ≠ 0 := mt (toRat_finite_eq_zero_iff true a).1 ha
  have hexact : BinOp.sub.exactResult? (finite false Magnitude.zero).toRat (finite false a).toRat =
      some (finite true a).toRat := by
    rw [toRat_finite_false, Magnitude.toRat_zero, toRat_finite_true, toRat_finite_false, ← zero_sub]
    rfl
  have happly := BinOp.apply_eq_nearest hexact hne
  rwa [nearest_toRat hne] at happly

/-- Digits alone are evaluated to the magnitude that they are displayed for. -/
theorem evaluate_shortest {a : Magnitude} (ha : a.mant ≠ 0) (hw : IsWhole a.shortest.canonical) :
    evaluate a.shortest.canonical = (finite false a).display := by
  rw [evaluate_of_isLiteral (Literal.isLiteral_digits hw.isDigit hw.ne_nil), Magnitude.nearest_toRat_shortest ha hw]

/-- Subtracted from zero, they are evaluated to the negative number. -/
theorem evaluate_zero_sub_shortest {a : Magnitude} (ha : a.mant ≠ 0) (hw : IsWhole a.shortest.canonical) :
    evaluate ('0' :: '-' :: a.shortest.canonical) = (finite true a).display := by
  have hliteral := Literal.isLiteral_digits hw.isDigit hw.ne_nil
  have hderives : Derives Spelling.exact .sum ('0' :: '-' :: a.shortest.canonical)
      (.binary .sub (.number 0) (.number (Literal.toRat a.shortest.canonical))) :=
    .sum (o := .sub) rfl (.term (.factor derives_zero)) (.factor (.number ⟨hliteral, rfl⟩))
  have hslash : '/' ∉ '0' :: '-' :: a.shortest.canonical := by
    intro hmem
    have hdigit := hw.isDigit '/' (by simpa using hmem)
    cases hdigit
  have hvalue : (Expr.binary .sub (.number 0) (.number (Literal.toRat a.shortest.canonical))).rounded =
      (nearest 0).sub (nearest (Literal.toRat a.shortest.canonical)) := rfl
  rw [evaluate_of_derives_self hslash hderives, hvalue, nearest_zero, Magnitude.nearest_toRat_shortest ha hw, zero_sub_finite ha]

/-- The text of an integer below `10 ^ 21` is evaluated to itself, as a difference from zero if it has a minus sign. -/
theorem exists_evaluate_text {neg : Bool} {a : Magnitude} {n : ℤ} (hn : (finite neg a).toRat = n) (hlt : |n| < 10 ^ 21) :
    ∃ w, IsWhole w ∧
      ((finite neg a).text = w ∧ evaluate w = .ok (finite neg a).text ∨
        (finite neg a).text = '-' :: w ∧ evaluate ('0' :: '-' :: w) = .ok (finite neg a).text) := by
  by_cases ha : a.mant = 0
  · have htext : (finite neg a).text = ['0'] := if_pos ha
    rw [htext]
    exact ⟨['0'], .zero, Or.inl ⟨rfl, by decide +kernel⟩⟩
  · have hsize : a.toRat < 10 ^ 21 := by
      rw [toRat_eq_natAbs hn, Nat.cast_natAbs]
      exact_mod_cast hlt
    have hw := (onGrid_of_isInteger hn).isWhole_shortest ha hsize
    have hdisplay : (finite neg a).display = .ok (finite neg a).text := by
      rw [display_eq rfl, rounded_of_isInteger ((isInteger_iff neg a).2 ⟨n, hn⟩)]
    refine ⟨_, hw, ?_⟩
    cases neg with
    | false =>
      have htext : (finite false a).text = a.shortest.canonical := by
        rw [text, if_neg ha, signText, if_neg Bool.false_ne_true, List.nil_append]
      exact Or.inl ⟨htext, by rw [evaluate_shortest ha hw, hdisplay]⟩
    | true =>
      have htext : (finite true a).text = '-' :: a.shortest.canonical := by
        rw [text, if_neg ha, signText, if_pos rfl, List.singleton_append]
      exact Or.inr ⟨htext, by rw [evaluate_zero_sub_shortest ha hw, hdisplay]⟩

end Binary64

/-- An expression of which the value in doubles is an integer below `10 ^ 21` is displayed by digits alone, with a minus sign in
front if it is negative. Evaluating this text, with the minus sign written as a difference from zero, gives it again. Up to
`2 ^ 53` it is the decimal writing of the integer. -/
theorem evaluate_integer {s t : List Char} {e : Expr ℚ} {v : Binary64} {n : ℤ}
    (he : Derives Spelling.exact .sum (stripBlanks s) e) (hv : e.Rounds v) (hn : v.toRat = n) (hlt : |n| < 10 ^ 21)
    (ht : evaluate s = .ok t) :
    (∃ w, IsWhole w ∧ (t = w ∧ evaluate w = .ok t ∨ t = '-' :: w ∧ evaluate ('0' :: '-' :: w) = .ok t)) ∧
      (|n| ≤ 2 ^ 53 → t = (toString n).toList) := by
  have hz : ¬['/', '0'] <:+: stripBlanks s := by
    intro hz
    rw [evaluate_of_validate_error (Guard.validate_of_zeroDivisor hz)] at ht
    cases ht
  rw [evaluate_of_derives hz he, ← (e.rounds_iff v).1 hv] at ht
  have hfin : v.isFinite = true := by
    by_contra hinf
    rw [display_of_not_isFinite (Bool.eq_false_iff.2 hinf)] at ht
    cases ht
  obtain ⟨neg, a, rfl⟩ := Binary64.exists_eq_finite hfin
  rw [display_eq hfin, Binary64.rounded_of_isInteger ((Binary64.isInteger_iff neg a).2 ⟨n, hn⟩)] at ht
  obtain rfl := Except.ok.inj ht
  exact ⟨Binary64.exists_evaluate_text hn hlt, Binary64.text_eq_toString hn⟩

/-- A whole number of twenty-one digits, too many for a double. -/
def Literal.twentyOneDigits : List Char := "123456789012345678901".toList

/-- Its negative is displayed by seventeen digits and four zeros, which are neither its digits nor those of the double. -/
theorem evaluate_integer_twentyOneDigits :
    ∃ e v, Derives Spelling.exact .sum (stripBlanks ('0' :: '-' :: Literal.twentyOneDigits)) e ∧ e.Rounds v ∧
      v.toRat = (-123456789012345683968 : ℤ) ∧ |(-123456789012345683968 : ℤ)| < 10 ^ 21 ∧
      evaluate ('0' :: '-' :: Literal.twentyOneDigits) = .ok "-123456789012345680000".toList ∧
      ∃ w, IsWhole w ∧ ("-123456789012345680000".toList = w ∧ evaluate w = .ok "-123456789012345680000".toList ∨
        "-123456789012345680000".toList = '-' :: w ∧ evaluate ('0' :: '-' :: w) = .ok "-123456789012345680000".toList) := by
  have hderives : Derives Spelling.exact .sum ('0' :: '-' :: Literal.twentyOneDigits)
      (.binary .sub (.number 0) (.number (Literal.toRat Literal.twentyOneDigits))) :=
    .sum (o := .sub) rfl (.term (.factor derives_zero)) (.factor (.number ⟨by decide, rfl⟩))
  have he := hderives
  rw [← stripBlanks_of_derives hderives] at he
  have hvalue : (Expr.binary .sub (.number 0) (.number (Literal.toRat Literal.twentyOneDigits))).rounded =
      (Binary64.zero false).sub (Literal.value Literal.twentyOneDigits) := by
    rw [Literal.value_eq_nearest, ← Binary64.nearest_zero]
    rfl
  have hn : ((Binary64.zero false).sub (Literal.value Literal.twentyOneDigits)).toRat = (-123456789012345683968 : ℤ) := by
    decide +kernel
  have hv := (Expr.rounds_iff _ _).2 hvalue.symm
  have hlt : |(-123456789012345683968 : ℤ)| < 10 ^ 21 := by norm_num
  have ht : evaluate ('0' :: '-' :: Literal.twentyOneDigits) = .ok "-123456789012345680000".toList := by decide +kernel
  exact ⟨_, _, he, hv, hn, hlt, ht, (evaluate_integer he hv hn hlt ht).1⟩

end Calculator
