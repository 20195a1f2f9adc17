import Mathlib
import Calculator.Expr.ZeroDivision
import Calculator.Proofs.Evaluate
import Calculator.Proofs.Precision
import Calculator.Proofs.Typing

/-!
# What becomes of a division by zero

An expression has no finite value exactly if a division by zero or an overflow in it reaches the whole expression, that is if
no division of a finite number by an infinity stands between (`Expr.isFinite_rounded_eq_false_iff`). Then, and only then, the
result is refused for not being finite (`evaluate_notFinite_iff`). Below such a division a zero denominator goes unnoticed.
-/

namespace Calculator

open Text

/-! ## Operations on infinities and NaNs -/

namespace BinOp

/-- A left operand that is not finite is passed on. -/
theorem isFinite_apply_of_left (o : BinOp) {x : Binary64} (y : Binary64) (hx : x.isFinite = false) :
    (o.apply x y).isFinite = false := by
  cases x with
  | nan => cases o <;> rfl
  | finite s a => cases hx
  | infinite s =>
    cases y with
    | nan => cases o <;> rfl
    | infinite t => cases o <;> cases s <;> cases t <;> rfl
    | finite t b =>
      cases o with
      | add => rfl
      | sub => rfl
      | mul =>
        simp only [apply, Binary64.mul]
        split <;> rfl
      | div => rfl

/-- So is a right operand, unless a finite number is divided by an infinity. -/
theorem isFinite_apply_of_right (o : BinOp) (x : Binary64) {y : Binary64} (hy : y.isFinite = false)
    (h : ¬(o = .div ∧ x.isFinite = true ∧ ∃ neg, y = .infinite neg)) : (o.apply x y).isFinite = false := by
  cases hx : x.isFinite with
  | false => exact isFinite_apply_of_left o y hx
  | true =>
    obtain ⟨s, a, rfl⟩ := Binary64.exists_eq_finite hx
    cases y with
    | nan => cases o <;> rfl
    | finite t b => cases hy
    | infinite t =>
      cases o with
      | add => rfl
      | sub => rfl
      | mul =>
        simp only [apply, Binary64.mul]
        split <;> rfl
      | div => exact absurd ⟨rfl, rfl, t, rfl⟩ h

/-- A finite number divided by an infinity is a zero. -/
theorem isFinite_div_infinite {x : Binary64} (hx : x.isFinite = true) (neg : Bool) :
    (BinOp.div.apply x (.infinite neg)).isFinite = true := by
  obtain ⟨s, a, rfl⟩ := Binary64.exists_eq_finite hx
  rfl

end BinOp

/-! ## Where a value stops being finite -/

/-- An operation on finite doubles that has an exact result gives an infinity when that is too large. -/
theorem BinOp.isFinite_apply_eq_false_iff {o : BinOp} {x y : Binary64} {q : ℚ} (hx : x.isFinite = true)
    (hy : y.isFinite = true) (h : o.exactResult? x.toRat y.toRat = some q) :
    (o.apply x y).isFinite = false ↔ Binary64.overflowBound ≤ |q| := by
  obtain ⟨s, a, rfl⟩ := Binary64.exists_eq_finite hx
  obtain ⟨t, b, rfl⟩ := Binary64.exists_eq_finite hy
  by_cases hq : q = 0
  · subst hq
    have hbound : ¬Binary64.overflowBound ≤ |(0 : ℚ)| := by
      rw [abs_zero, not_le]
      exact Binary64.overflowBound_pos
    rw [apply_eq_zero h]
    exact iff_of_false (by simp [Binary64.zero, Binary64.isFinite]) hbound
  · rw [apply_eq_nearest h hq, Binary64.isFinite_nearest_eq_false_iff]

namespace Expr

theorem rounds_rounded (e : Expr ℚ) : e.Rounds e.rounded := (e.rounds_iff _).2 rfl

theorem rounded_binary (o : BinOp) (l r : Expr ℚ) : (binary o l r).rounded = o.apply l.rounded r.rounded := rfl

/-- A division of a finite double by an infinity, by the values of its operands. -/
theorem dividesByInfinity_iff (o : BinOp) (l r : Expr ℚ) :
    DividesByInfinity o l r ↔ o = .div ∧ l.rounded.isFinite = true ∧ ∃ neg, r.rounded = .infinite neg := by
  refine and_congr_right fun _ => and_congr ?_ ?_
  · constructor
    · rintro ⟨x, hx, hfin⟩
      rwa [← (l.rounds_iff x).1 hx]
    · exact fun hfin => ⟨_, l.rounds_rounded, hfin⟩
  · exact exists_congr fun neg => (r.rounds_iff _).trans eq_comm

/-- A division by zero and an overflow are not finite. -/
theorem isFinite_rounded_of_breaks {d : Expr ℚ} (h : d.DividesByZero ∨ d.Overflows) : d.rounded.isFinite = false := by
  cases d with
  | number q => exact (Binary64.isFinite_nearest_eq_false_iff q).2 (h.resolve_left id)
  | paren e => exact (h.elim id id).elim
  | binary o l r =>
    rw [rounded_binary]
    rcases h with h | ⟨x, y, q, hl, hr, hx, hy, hq, hbound⟩
    · cases o with
      | add => exact h.elim
      | sub => exact h.elim
      | mul => exact h.elim
      | div =>
        obtain ⟨neg, hneg⟩ := h
        rw [← (r.rounds_iff _).1 hneg]
        cases l.rounded with
        | nan => rfl
        | infinite s => rfl
        | finite s a =>
          simp only [BinOp.apply, Binary64.div, Binary64.zero, Magnitude.zero, Magnitude.ofUnits, if_pos]
          split <;> rfl
    · rw [← (l.rounds_iff x).1 hl, ← (r.rounds_iff y).1 hr]
      exact (BinOp.isFinite_apply_eq_false_iff hx hy hq).2 hbound

/-- What is not finite is passed on as far as it reaches. -/
theorem Reaches.isFinite_rounded {d e : Expr ℚ} (h : d.Reaches e) (hd : d.rounded.isFinite = false) :
    e.rounded.isFinite = false := by
  induction h with
  | here => exact hd
  | paren _ ih => exact ih
  | @left l r o _ ih => exact o.isFinite_apply_of_left r.rounded ih
  | @right l r o _ hinf ih =>
    rw [dividesByInfinity_iff] at hinf
    exact o.isFinite_apply_of_right l.rounded ih hinf

/-- An operation on finite doubles that gives no finite one divides by zero or overflows. -/
theorem breaks_of_isFinite {o : BinOp} {l r : Expr ℚ} (hl : l.rounded.isFinite = true) (hr : r.rounded.isFinite = true)
    (h : (binary o l r).rounded.isFinite = false) : (binary o l r).DividesByZero ∨ (binary o l r).Overflows := by
  cases hq : o.exactResult? l.rounded.toRat r.rounded.toRat with
  | some q =>
    exact Or.inr ⟨_, _, q, l.rounds_rounded, r.rounds_rounded, hl, hr, hq,
      (BinOp.isFinite_apply_eq_false_iff hl hr hq).1 h⟩
  | none =>
    left
    cases o with
    | add => cases hq
    | sub => cases hq
    | mul => cases hq
    | div =>
      simp only [BinOp.exactResult?] at hq
      split at hq
      · rename_i hzero
        obtain ⟨t, b, hx⟩ := Binary64.exists_eq_finite hr
        rw [hx] at hzero
        exact ⟨t, (r.rounds_iff _).2 (by rw [hx, Binary64.finite_eq_zero ((Binary64.toRat_finite_eq_zero_iff t b).1 hzero)])⟩
      · cases hq

/-- A value is not finite exactly if a division by zero or an overflow reaches it. -/
theorem isFinite_rounded_eq_false_iff (e : Expr ℚ) :
    e.rounded.isFinite = false ↔ ∃ d : Expr ℚ, d.Reaches e ∧ (d.DividesByZero ∨ d.Overflows) := by
  constructor
  · intro h
    induction e with
    | number q => exact ⟨_, .here, Or.inr ((Binary64.isFinite_nearest_eq_false_iff q).1 h)⟩
    | paren e ih =>
      obtain ⟨d, hd, hbreaks⟩ := ih h
      exact ⟨d, .paren hd, hbreaks⟩
    | binary o l r ihl ihr =>
      cases hl : l.rounded.isFinite with
      | false =>
        obtain ⟨d, hd, hbreaks⟩ := ihl hl
        exact ⟨d, .left hd, hbreaks⟩
      | true =>
        cases hr : r.rounded.isFinite with
        | true => exact ⟨_, .here, breaks_of_isFinite hl hr h⟩
        | false =>
          obtain ⟨d, hd, hbreaks⟩ := ihr hr
          refine ⟨d, .right hd fun hinf => ?_, hbreaks⟩
          obtain ⟨rfl, -, neg, hneg⟩ := (dividesByInfinity_iff o l r).1 hinf
          rw [rounded_binary, hneg, BinOp.isFinite_div_infinite hl] at h
          cases h
  · rintro ⟨d, hd, hbreaks⟩
    exact hd.isFinite_rounded (isFinite_rounded_of_breaks hbreaks)

end Expr

/-! ## The refusal of a result -/

/-- When the text of an expression that passes the guards is refused for a result that is not finite: exactly if a division by
zero, or a number or a result that is too large, reaches the whole expression. A denominator of zero is not noticed if above
it some finite number is divided by an infinity. -/
theorem evaluate_notFinite_iff {s : List Char} {e : Expr ℚ} (hv : Guard.validate (stripBlanks s) = .ok ())
    (he : Derives Spelling.exact .sum (stripBlanks s) e) :
    evaluate s = .error .notFinite ↔ ∃ d : Expr ℚ, d.Reaches e ∧ (d.DividesByZero ∨ d.Overflows) := by
  have hz : ¬['/', '0'] <:+: stripBlanks s := by
    intro hz
    rw [Guard.validate_of_zeroDivisor hz] at hv
    cases hv
  rw [evaluate_of_derives hz he, ← e.isFinite_rounded_eq_false_iff]
  cases hfin : e.rounded.isFinite with
  | true =>
    obtain ⟨t, ht⟩ := display_of_isFinite hfin
    rw [ht]
    exact iff_of_false (fun h => nomatch h) (by decide)
  | false => exact iff_of_true (display_of_not_isFinite hfin) rfl

/-- One less one in parentheses, a zero that is not written as one. -/
def Expr.oneLessOne : Expr ℚ := .paren (.binary .sub (.number 1) (.number 1))

theorem Expr.rounds_oneLessOne : Expr.oneLessOne.Rounds (.zero false) :=
  (oneLessOne.rounds_iff _).2 (by decide +kernel)

theorem derives_oneLessOne : Derives Spelling.exact .factor ['(', '1', '-', '1', ')'] Expr.oneLessOne := by
  have hone : Derives Spelling.exact .factor ['1'] (.number 1) := derives_digit rfl
  exact .paren (.sum (o := .sub) rfl (.term (.factor hone)) (.factor hone))

/-- Five divided by one less one is refused: nothing is above the division. -/
theorem evaluate_notFinite_oneLessOne :
    Guard.validate (stripBlanks ['5', '/', '(', '1', '-', '1', ')']) = .ok () ∧
      Derives Spelling.exact .sum (stripBlanks ['5', '/', '(', '1', '-', '1', ')'])
        (.binary .div (.number 5) Expr.oneLessOne) ∧
      evaluate ['5', '/', '(', '1', '-', '1', ')'] = .error .notFinite := by
  have hv : Guard.validate (stripBlanks ['5', '/', '(', '1', '-', '1', ')']) = .ok () := by decide
  have hfive : Derives Spelling.exact .factor ['5'] (.number 5) := derives_digit rfl
  have he : Derives Spelling.exact .sum (stripBlanks ['5', '/', '(', '1', '-', '1', ')'])
      (.binary .div (.number 5) Expr.oneLessOne) :=
    .term (.product (o := .div) (v := ['5']) rfl (.factor hfive) derives_oneLessOne)
  exact ⟨hv, he, (evaluate_notFinite_iff hv he).2 ⟨_, .here, Or.inl ⟨false, Expr.rounds_oneLessOne⟩⟩⟩

/-- Five divided by the quotient of one and one less one passes the guards, is of the grammar and has a denominator of value
zero, and yet it is displayed, as zero: the quotient is an infinity, and five is divided by it. -/
theorem evaluate_notFinite_counterexample :
    Guard.validate (stripBlanks ['5', '/', '(', '1', '/', '(', '1', '-', '1', ')', ')']) = .ok () ∧
      Derives Spelling.exact .sum (stripBlanks ['5', '/', '(', '1', '/', '(', '1', '-', '1', ')', ')'])
        (.binary .div (.number 5) (.paren (.binary .div (.number 1) Expr.oneLessOne))) ∧
      Expr.oneLessOne.Rounds (.zero false) ∧
      evaluate ['5', '/', '(', '1', '/', '(', '1', '-', '1', ')', ')'] = .ok ['0'] := by
  have hone : Derives Spelling.exact .factor ['1'] (.number 1) := derives_digit rfl
  have hfive : Derives Spelling.exact .factor ['5'] (.number 5) := derives_digit rfl
  refine ⟨by decide, ?_, Expr.rounds_oneLessOne, by decide +kernel⟩
  have hquotient := Derives.product (o := .div) rfl (.factor hone) derives_oneLessOne
  exact .term (.product (o := .div) (v := ['5']) rfl (.factor hfive) (.paren (.term hquotient)))

end Calculator
