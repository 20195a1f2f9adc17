import Mathlib
import Calculator.Expr.Exact
import Calculator.Proofs.Grammar
import Calculator.Proofs.Nearest

/-!
# Correct rounding

Literals are read as the double nearest to the rational they denote (`Literal.value_eq_nearest`), and the operations on
doubles are the correctly rounded ones (`BinOp.rounds_iff`), although both round quotients of whole numbers of units. So
every tree has one value in doubles (`Expr.rounds_iff`).
-/

namespace Calculator

namespace Binary64

/-- A number whose absolute value is a quotient of units is rounded by rounding that quotient, with the sign of the number.
-/
theorem nearest_units {q : ℚ} {n d : ℕ} (hd : 0 < d) (h : |q| * Magnitude.unitsInOne = n / d) :
    nearest q = ofRatio (q < 0) n d := by
  have hq : |q| = n / d / Magnitude.unitsInOne := by
    rw [← h, mul_div_cancel_right₀ _ Magnitude.unitsInOne_ne_zero]
  exact ((isNearest_iff _ q).1 (ofRatio_isNearest hd hq)).symm

end Binary64

/-! ## Literals -/

theorem tenPow_eq (n : ℕ) : (tenPow n : ℚ) = 10 ^ n := by
  unfold tenPow
  exact_mod_cast rfl

theorem tenPow_pos (n : ℕ) : 0 < tenPow n := Nat.pow_pos (by decide)

namespace Literal

theorem wholeNumber_eq (cs : List Char) : wholeNumber cs = (Nat.ofDigitChars 10 cs 0 : ℕ) := by
  induction cs with
  | nil => simp [wholeNumber, Nat.ofDigitChars]
  | cons c cs ih =>
    have hinit := @Nat.ofDigitChars_eq_ofDigitChars_zero cs (10 * 0 + (c.toNat - '0'.toNat))
    rw [wholeNumber, ih, Nat.ofDigitChars_cons, hinit, digit]
    push_cast
    ring

theorem fractionNumber_eq (cs : List Char) : fractionNumber cs = wholeNumber cs / 10 ^ cs.length := by
  induction cs with
  | nil => simp [fractionNumber, wholeNumber]
  | cons c cs ih =>
    have hpow : (10 : ℚ) ^ cs.length ≠ 0 := by positivity
    rw [fractionNumber, ih, wholeNumber, List.length_cons, pow_succ]
    field_simp

/-- A literal denotes its digits as a whole number, divided by ten for each digit after the point. -/
theorem toRat_eq (cs : List Char) : toRat cs = coefficient cs / tenPow (fraction cs).length := by
  have hpow : (10 : ℚ) ^ (fraction cs).length ≠ 0 := by positivity
  have hinit := @Nat.ofDigitChars_eq_ofDigitChars_zero (fraction cs) (Nat.ofDigitChars 10 (whole cs) 0)
  unfold toRat coefficient
  rw [fractionNumber_eq, wholeNumber_eq, wholeNumber_eq, Nat.ofDigitChars_append, hinit, tenPow_eq]
  push_cast
  field_simp

/-- A literal is read as the double nearest to the number it denotes. -/
theorem value_eq_nearest (cs : List Char) : value cs = Binary64.nearest (toRat cs) := by
  have hnonneg : 0 ≤ toRat cs := by
    rw [toRat_eq]
    positivity
  have hunits : |toRat cs| * Magnitude.unitsInOne =
      (coefficient cs * Magnitude.unitsInOne : ℕ) / tenPow (fraction cs).length := by
    rw [abs_of_nonneg hnonneg, toRat_eq, Nat.cast_mul, div_mul_eq_mul_div]
  rw [Binary64.nearest_units (tenPow_pos _) hunits, decide_eq_false (not_lt.2 hnonneg)]
  rfl

end Literal

/-! ## Operations -/

namespace Magnitude

theorem units_eq_zero_iff (a : Magnitude) : a.units = 0 ↔ a.mant = 0 := by
  rw [units_eq, Nat.mul_eq_zero]
  simp

theorem toRat_eq_zero_iff (a : Magnitude) : a.toRat = 0 ↔ a.mant = 0 := by
  rw [toRat, div_eq_zero_iff, or_iff_left unitsInOne_ne_zero, Nat.cast_eq_zero, units_eq_zero_iff]

/-- Rounding no units gives the magnitude of the zeros. -/
theorem ofRatio?_zero {d : ℕ} (hd : 0 < d) : ofRatio? 0 d = some zero := by
  have hgrid : gridExponent 0 d = 0 := by
    unfold gridExponent
    rw [Nat.zero_div, Nat.log2_zero]
  have hround : roundHalfEven 0 d = 0 := by
    have h := roundHalfEven_mul 0 hd
    rwa [Nat.zero_mul] at h
  unfold ofRatio?
  simp [hround, hgrid, zero, ofUnits]

end Magnitude

/-- The sign rule of products. -/
theorem decide_mul_neg {x y : ℚ} (hx : x ≠ 0) (hy : y ≠ 0) : decide (x * y < 0) = (decide (x < 0) ^^ decide (y < 0)) := by
  rcases lt_or_gt_of_ne hx with hx | hx
  · rcases lt_or_gt_of_ne hy with hy | hy
    · rw [decide_eq_false (mul_pos_of_neg_of_neg hx hy).not_gt, decide_eq_true hx, decide_eq_true hy]
      rfl
    · rw [decide_eq_true (mul_neg_of_neg_of_pos hx hy), decide_eq_true hx, decide_eq_false hy.not_gt]
      rfl
  · rcases lt_or_gt_of_ne hy with hy | hy
    · rw [decide_eq_true (mul_neg_of_pos_of_neg hx hy), decide_eq_false hx.not_gt, decide_eq_true hy]
      rfl
    · rw [decide_eq_false (mul_pos hx hy).not_gt, decide_eq_false hx.not_gt, decide_eq_false hy.not_gt]
      rfl

/-- The sign rule of quotients. -/
theorem decide_div_neg {x y : ℚ} (hx : x ≠ 0) (hy : y ≠ 0) : decide (x / y < 0) = (decide (x < 0) ^^ decide (y < 0)) := by
  rw [← decide_mul_neg hx hy, decide_eq_decide, div_neg_iff, mul_neg_iff]

namespace Binary64

/-- The absolute value of a finite double is its units, as a part of those in one. -/
theorem abs_toRat_finite (s : Bool) (a : Magnitude) : |(finite s a).toRat| = a.units / Magnitude.unitsInOne := by
  rw [toRat_finite, abs_div, Nat.abs_cast]
  cases s <;> simp [signedUnits]

theorem toRat_finite_eq_zero_iff (s : Bool) (a : Magnitude) : (finite s a).toRat = 0 ↔ a.mant = 0 := by
  rw [← a.toRat_eq_zero_iff]
  cases s <;> simp [toRat]

/-- A finite double without units is one of the zeros. -/
theorem finite_eq_zero {s : Bool} {a : Magnitude} (h : a.mant = 0) : finite s a = zero s := by
  have ha : a = Magnitude.zero := Magnitude.toRat_injective (by rw [Magnitude.toRat_zero, a.toRat_eq_zero_iff.2 h])
  rw [ha, zero]

@[simp] theorem toRat_zero (s : Bool) : (zero s).toRat = 0 := (toRat_finite_eq_zero_iff s _).2 rfl

/-- A finite double that is not zero is negative when its sign says so. -/
theorem toRat_finite_neg {s : Bool} {a : Magnitude} (h : (finite s a).toRat ≠ 0) :
    decide ((finite s a).toRat < 0) = s := by
  have hnonneg := a.toRat_nonneg
  cases s with
  | false => simpa [toRat] using hnonneg
  | true =>
    have hne : a.toRat ≠ 0 := by simpa [toRat] using h
    have hpos : 0 < a.toRat := lt_of_le_of_ne hnonneg (Ne.symm hne)
    simpa [toRat] using hpos

/-- A sum that is not zero is rounded correctly. -/
theorem add_eq_nearest (s t : Bool) (a b : Magnitude) (h : (finite s a).toRat + (finite t b).toRat ≠ 0) :
    add (finite s a) (finite t b) = nearest ((finite s a).toRat + (finite t b).toRat) := by
  have hU := Magnitude.unitsInOne_ne_zero
  have hUpos : (0 : ℚ) < Magnitude.unitsInOne := Nat.cast_pos.2 Magnitude.unitsInOne_pos
  set u := signedUnits s a + signedUnits t b with hu
  have hsum : (finite s a).toRat + (finite t b).toRat = (u : ℚ) / Magnitude.unitsInOne := by
    rw [toRat_finite, toRat_finite, hu, ← add_div, Int.cast_add]
  rw [hsum] at h ⊢
  have hne : u ≠ 0 := by
    intro h0
    rw [h0] at h
    simp at h
  have habs : |(u : ℚ) / Magnitude.unitsInOne| * Magnitude.unitsInOne = (u.natAbs : ℚ) / (1 : ℕ) := by
    rw [abs_div, Nat.abs_cast, div_mul_cancel₀ _ hU, Nat.cast_one, div_one, Nat.cast_natAbs, Int.cast_abs]
  have hneg : decide ((u : ℚ) / Magnitude.unitsInOne < 0) = decide (u < 0) := by
    rw [decide_eq_decide, div_lt_iff₀ hUpos, zero_mul, Int.cast_lt_zero]
  rw [nearest_units Nat.one_pos habs, hneg]
  simp only [add, ← hu, if_neg hne]

/-- A product that is not zero is rounded correctly. -/
theorem mul_eq_nearest (s t : Bool) (a b : Magnitude) (h : (finite s a).toRat * (finite t b).toRat ≠ 0) :
    mul (finite s a) (finite t b) = nearest ((finite s a).toRat * (finite t b).toRat) := by
  have hU := Magnitude.unitsInOne_ne_zero
  obtain ⟨ha, hb⟩ := mul_ne_zero_iff.1 h
  have habs : |(finite s a).toRat * (finite t b).toRat| * Magnitude.unitsInOne =
      (a.units * b.units : ℕ) / Magnitude.unitsInOne := by
    rw [abs_mul, abs_toRat_finite, abs_toRat_finite]
    push_cast
    field_simp
  have hneg : decide ((finite s a).toRat * (finite t b).toRat < 0) = (s ^^ t) := by
    rw [decide_mul_neg ha hb, toRat_finite_neg ha, toRat_finite_neg hb]
  rw [nearest_units Magnitude.unitsInOne_pos habs, hneg]
  rfl

/-- A quotient that is not zero is rounded correctly. -/
theorem div_eq_nearest (s t : Bool) (a b : Magnitude) (h : (finite s a).toRat / (finite t b).toRat ≠ 0) :
    div (finite s a) (finite t b) = nearest ((finite s a).toRat / (finite t b).toRat) := by
  have hU := Magnitude.unitsInOne_ne_zero
  obtain ⟨ha, hb⟩ := div_ne_zero_iff.1 h
  have hmant : b.mant ≠ 0 := fun h0 => hb ((toRat_finite_eq_zero_iff t b).2 h0)
  have hunits : b.units ≠ 0 := fun h0 => hmant (b.units_eq_zero_iff.1 h0)
  have habs : |(finite s a).toRat / (finite t b).toRat| * Magnitude.unitsInOne =
      (a.units * Magnitude.unitsInOne : ℕ) / b.units := by
    have hunits' : (b.units : ℚ) ≠ 0 := Nat.cast_ne_zero.2 hunits
    rw [abs_div, abs_toRat_finite, abs_toRat_finite]
    push_cast
    field_simp
  have hneg : decide ((finite s a).toRat / (finite t b).toRat < 0) = (s ^^ t) := by
    rw [decide_div_neg ha hb, toRat_finite_neg ha, toRat_finite_neg hb]
  rw [nearest_units (Nat.pos_of_ne_zero hunits) habs, hneg]
  simp only [div, if_neg hmant]

/-- Rounding no units gives a zero. -/
theorem ofRatio_zero (neg : Bool) {d : ℕ} (hd : 0 < d) : ofRatio neg 0 d = zero neg :=
  ofRatio_of_some neg (Magnitude.ofRatio?_zero hd)

theorem nearest_zero : nearest 0 = zero false := by
  unfold nearest
  rw [Rat.num_zero, Int.natAbs_zero, Nat.zero_mul, decide_eq_false (lt_irrefl 0)]
  exact ofRatio_zero false (Rat.den_pos 0)

/-- What is rounded to a number other than zero is not zero. -/
theorem ne_zero_of_nearest_eq {q : ℚ} {neg : Bool} {a : Magnitude} (ha : a.mant ≠ 0) (h : nearest q = finite neg a) : q ≠ 0 := by
  rintro rfl
  rw [nearest_zero] at h
  exact ha (by rw [← (finite.inj h).2]; rfl)

/-- A sum that is zero is negative when both summands are. -/
theorem add_of_eq_zero (s t : Bool) (a b : Magnitude) (h : (finite s a).toRat + (finite t b).toRat = 0) :
    add (finite s a) (finite t b) = zero (s && t) := by
  have hu : signedUnits s a + signedUnits t b = 0 := by
    rw [toRat_finite, toRat_finite, ← add_div, div_eq_zero_iff, or_iff_left Magnitude.unitsInOne_ne_zero] at h
    exact_mod_cast h
  simp only [add, if_pos hu]

/-- A product that is zero has the sign of a product. -/
theorem mul_of_eq_zero (s t : Bool) (a b : Magnitude) (h : (finite s a).toRat * (finite t b).toRat = 0) :
    mul (finite s a) (finite t b) = zero (s ^^ t) := by
  have hunits : a.units * b.units = 0 := by
    rw [Nat.mul_eq_zero, a.units_eq_zero_iff, b.units_eq_zero_iff, ← toRat_finite_eq_zero_iff s, ← toRat_finite_eq_zero_iff t]
    exact mul_eq_zero.1 h
  simp only [mul, hunits]
  exact ofRatio_zero _ Magnitude.unitsInOne_pos

/-- A zero divided by another number is a zero with the sign of a product. -/
theorem div_of_eq_zero (s t : Bool) (a b : Magnitude) (hb : (finite t b).toRat ≠ 0)
    (h : (finite s a).toRat / (finite t b).toRat = 0) :
    div (finite s a) (finite t b) = zero (s ^^ t) := by
  have hmant : b.mant ≠ 0 := fun h0 => hb ((toRat_finite_eq_zero_iff t b).2 h0)
  have ha := (toRat_finite_eq_zero_iff s a).1 ((div_eq_zero_iff.1 h).resolve_right hb)
  have hunits : b.units ≠ 0 := fun h0 => hmant (b.units_eq_zero_iff.1 h0)
  simp only [div, if_neg hmant, a.units_eq_zero_iff.2 ha, Nat.zero_mul]
  exact ofRatio_zero _ (Nat.pos_of_ne_zero hunits)

end Binary64

namespace BinOp

/-- The operation on two finite doubles, by its exact result: a result other than zero is rounded to the nearest double. -/
theorem apply_eq_nearest {o : BinOp} {s t : Bool} {a b : Magnitude} {q : ℚ}
    (h : o.exactResult? (Binary64.finite s a).toRat (Binary64.finite t b).toRat = some q) (hq : q ≠ 0) :
    o.apply (.finite s a) (.finite t b) = Binary64.nearest q := by
  cases o with
  | add =>
    obtain rfl := Option.some.inj h
    exact Binary64.add_eq_nearest s t a b hq
  | sub =>
    obtain rfl := Option.some.inj h
    have hneg : (Binary64.finite s a).toRat - (Binary64.finite t b).toRat =
        (Binary64.finite s a).toRat + (Binary64.finite (!t) b).toRat := by
      rw [sub_eq_add_neg, ← Binary64.toRat_negate]
      rfl
    rw [hneg] at hq ⊢
    exact Binary64.add_eq_nearest s (!t) a b hq
  | mul =>
    obtain rfl := Option.some.inj h
    exact Binary64.mul_eq_nearest s t a b hq
  | div =>
    simp only [exactResult?] at h
    split at h
    · cases h
    · obtain rfl := Option.some.inj h
      exact Binary64.div_eq_nearest s t a b hq

/-- A result that is exactly zero has the sign that the operands give it. -/
theorem apply_eq_zero {o : BinOp} {s t : Bool} {a b : Magnitude}
    (h : o.exactResult? (Binary64.finite s a).toRat (Binary64.finite t b).toRat = some 0) :
    o.apply (.finite s a) (.finite t b) = Binary64.zero (o.zeroSign s t) := by
  cases o with
  | add => exact Binary64.add_of_eq_zero s t a b (Option.some.inj h)
  | sub =>
    refine Binary64.add_of_eq_zero s (!t) a b ?_
    rw [← Option.some.inj h, sub_eq_add_neg, ← Binary64.toRat_negate]
    rfl
  | mul => exact Binary64.mul_of_eq_zero s t a b (Option.some.inj h)
  | div =>
    simp only [exactResult?] at h
    split at h
    · cases h
    · rename_i hb
      exact Binary64.div_of_eq_zero s t a b hb (Option.some.inj h)

/-- A division by zero gives an infinity, or a NaN when zero is divided. -/
theorem apply_of_exactResult?_none {o : BinOp} {s t : Bool} {a b : Magnitude}
    (h : o.exactResult? (Binary64.finite s a).toRat (Binary64.finite t b).toRat = none) :
    o.apply (.finite s a) (.finite t b) = if a.toRat = 0 then .nan else .infinite (s ^^ t) := by
  cases o with
  | add => cases h
  | sub => cases h
  | mul => cases h
  | div =>
    simp only [exactResult?] at h
    split at h
    · rename_i hb
      simp only [apply, Binary64.div, if_pos ((Binary64.toRat_finite_eq_zero_iff t b).1 hb), a.toRat_eq_zero_iff]
    · cases h

/-- The operations on doubles are the correctly rounded ones, and no other double is the result. -/
theorem rounds_iff (o : BinOp) (x y z : Binary64) : o.Rounds x y z ↔ z = o.apply x y := by
  unfold Rounds
  cases x with
  | nan => cases o <;> rfl
  | infinite s =>
    cases y with
    | nan => cases o <;> rfl
    | infinite t =>
      cases o with
      | add => rfl
      | sub => cases s <;> cases t <;> rfl
      | mul => rfl
      | div => rfl
    | finite t b =>
      cases o with
      | add => rfl
      | sub => rfl
      | mul => simp only [apply, Binary64.mul, b.toRat_eq_zero_iff]
      | div => rfl
  | finite s a =>
    cases y with
    | nan => cases o <;> rfl
    | infinite t =>
      cases o with
      | add => rfl
      | sub => rfl
      | mul => simp only [apply, Binary64.mul, a.toRat_eq_zero_iff]
      | div => rfl
    | finite t b =>
      dsimp only
      cases h : o.exactResult? (Binary64.finite s a).toRat (Binary64.finite t b).toRat with
      | none =>
        rw [apply_of_exactResult?_none h]
      | some q =>
        dsimp only
        by_cases hq : q = 0
        · rw [if_pos hq]
          rw [hq] at h
          rw [apply_eq_zero h]
        · rw [if_neg hq, Binary64.isNearest_iff, apply_eq_nearest h hq]

end BinOp

/-- The value of a tree in doubles, computed. -/
def Expr.rounded (e : Expr ℚ) : Binary64 := (e.map Binary64.nearest).value

/-- Every tree has one value in doubles. -/
theorem Expr.rounds_iff (e : Expr ℚ) (x : Binary64) : e.Rounds x ↔ x = e.rounded := by
  induction e generalizing x with
  | number q => exact Binary64.isNearest_iff x q
  | paren e ih => exact ih x
  | binary o l r ihl ihr =>
    constructor
    · rintro ⟨y, z, hy, hz, hx⟩
      rw [(ihl y).1 hy, (ihr z).1 hz] at hx
      exact (BinOp.rounds_iff o _ _ x).1 hx
    · intro hx
      exact ⟨l.rounded, r.rounded, (ihl _).2 rfl, (ihr _).2 rfl, (BinOp.rounds_iff o _ _ x).2 hx⟩

/-- A text has a tree over the rationals when it has the tree with rounded numbers over the doubles. -/
theorem Derives.exists_exact {l : Level} {w : List Char} {e : Expr Binary64} (h : Derives Spelling.text l w e) :
    ∃ e', Derives Spelling.exact l w e' ∧ e.value = e'.rounded := by
  obtain ⟨e', he', rfl⟩ := h.exists_map fun w _ => Literal.value_eq_nearest w
  exact ⟨e', he', rfl⟩

theorem Derives.text_of_exact {l : Level} {w : List Char} {e : Expr ℚ} (h : Derives Spelling.exact l w e) :
    Derives Spelling.text l w (e.map Binary64.nearest) :=
  h.map fun w _ => Literal.value_eq_nearest w

end Calculator
