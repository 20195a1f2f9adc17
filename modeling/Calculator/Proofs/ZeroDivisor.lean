import Mathlib
import Calculator.Proofs.Evaluate

/-!
# Literals of zero as divisors

The guard looks for the two characters `/0`. In a text of the grammar they are a division sign and the beginning of a literal
(`Lexemes.exists_dividesIn`), so the guard sees every literal of zero but those that begin with the point, and it sees no
difference between zero and `0.5` (`evaluate_zeroDivisor_iff`).
-/

namespace Calculator

open Text

/-! ## What follows an operator -/

/-- The symbol of an operator is a lexeme by itself, wherever it stands. -/
theorem Lexeme.eq_of_symbol_mem {w : List Char} {t : Token} (h : Lexeme w t) {o : BinOp} (ho : o.symbol ∈ w) :
    w = [o.symbol] := by
  cases ht : t.isNumber with
  | true =>
    have hnum := Literal.all_isNumeral (h.isLiteral_of_isNumber ht) _ ho
    cases o <;> exact absurd hnum (by decide)
  | false =>
    obtain ⟨c, rfl, -⟩ := h.exists_ofChar? ht
    rw [List.mem_singleton.1 ho]

/-- What follows the symbol of an operator in a row of lexemes is a row of lexemes. -/
theorem Lexemes.exists_of_flatten_eq {ws : List (List Char)} {ts : List Token} (h : Lexemes ws ts) {o : BinOp}
    {u r : List Char} (hs : ws.flatten = u ++ o.symbol :: r) : ∃ ws' ts', Lexemes ws' ts' ∧ ws'.flatten = r := by
  induction h generalizing u with
  | nil => simp at hs
  | @cons w t ws ts hw hws _ ih =>
    rw [List.flatten_cons, List.append_eq_append_iff] at hs
    rcases hs with ⟨v, -, hrest⟩ | ⟨v, hlexeme, hrest⟩
    · exact ih hrest
    · cases v with
      | nil => exact ih (u := []) hrest.symm
      | cons c v =>
        obtain ⟨rfl, hr⟩ := List.cons.inj hrest
        -- the symbol is in the first lexeme, so it is all of it
        have hone := hw.eq_of_symbol_mem (o := o) (by rw [hlexeme]; simp)
        have hlength := congrArg List.length (hlexeme.symm.trans hone)
        rw [List.length_append, List.length_cons, List.length_singleton] at hlength
        obtain rfl : v = [] := List.length_eq_zero_iff.1 (by omega)
        exact ⟨ws, ts, hws, hr.symm⟩

/-- A row of lexemes that begins with a character of a literal begins with a literal. -/
theorem Lexemes.exists_literal {ws : List (List Char)} {ts : List Token} (h : Lexemes ws ts) {c : Char} {r : List Char}
    (hc : Literal.isNumeral c = true) (hs : ws.flatten = c :: r) :
    ∃ w v, c :: r = w ++ v ∧ Literal.isLiteral w = true ∧ ∀ a ∈ v.head?, Literal.isNumeral a = false := by
  cases h with
  | nil => cases hs
  | @cons w t ws ts hw hws hnext =>
    cases ht : t.isNumber with
    | true => exact ⟨w, ws.flatten, hs.symm, hw.isLiteral_of_isNumber ht, hws.head?_isNumeral (hnext ht)⟩
    | false =>
      obtain ⟨a, rfl, ha⟩ := hw.exists_ofChar? ht
      obtain rfl : a = c := (List.cons.inj hs).1
      rw [Token.isNumeral_of_ofChar? ha] at hc
      cases hc

/-- A row of lexemes with the characters `/0` in it divides by a literal that begins with a zero. -/
theorem Lexemes.exists_dividesIn {ws : List (List Char)} {ts : List Token} (h : Lexemes ws ts)
    (hz : ['/', '0'] <:+: ws.flatten) : ∃ w, Literal.DividesIn w ws.flatten ∧ w.head? = some '0' := by
  obtain ⟨u, r, hs⟩ := hz
  rw [List.append_assoc] at hs
  obtain ⟨ws', ts', hws', hrest⟩ := h.exists_of_flatten_eq (o := .div) (r := '0' :: r) hs.symm
  obtain ⟨w, v, hwv, hw, hv⟩ := hws'.exists_literal rfl hrest
  refine ⟨w, ⟨u, v, ?_, hw, hv⟩, ?_⟩
  · rw [← hwv]
    exact hs.symm
  · obtain ⟨a, w, rfl⟩ := List.exists_cons_of_ne_nil (Literal.ne_nil hw)
    rw [(List.cons.inj hwv).1]
    rfl

namespace Literal

variable {w s : List Char}

/-- A literal of zero begins with the point or with a zero. -/
theorem IsZero.head? (h : IsZero w) (hw : isLiteral w = true) : w.head? = some '.' ∨ w.head? = some '0' := by
  obtain ⟨c, w, rfl⟩ := List.exists_cons_of_ne_nil (ne_nil hw)
  rcases Bool.or_eq_true_iff.1 (all_isNumeral hw c List.mem_cons_self) with hc | hc
  · exact Or.inr (congrArg some (h c List.mem_cons_self hc))
  · exact Or.inl (congrArg some (beq_iff_eq.1 hc))

/-- A literal is a number of one factor. -/
theorem derives (w : List Char) (hw : isLiteral w = true) : Derives Spelling.exact .factor w (.number (toRat w)) :=
  .number ⟨hw, rfl⟩

/-- A literal that begins with a zero gives the text the characters `/0`. -/
theorem DividesIn.isInfix (h : DividesIn w s) (hw : w.head? = some '0') : ['/', '0'] <:+: s := by
  obtain ⟨u, v, rfl, -, -⟩ := h
  obtain ⟨w, rfl⟩ := List.head?_eq_some_iff.1 hw
  exact ⟨u, w ++ v, by simp⟩

end Literal

/-- Only the guard refuses a text of the grammar as a division by zero. -/
theorem isInfix_of_evaluate {s : List Char} {e : Expr ℚ} (he : Derives Spelling.exact .sum (stripBlanks s) e)
    (h : evaluate s = .error .zeroDivisor) : ['/', '0'] <:+: stripBlanks s := by
  by_contra hz
  rw [evaluate_of_derives hz he] at h
  cases hfin : e.rounded.isFinite with
  | true =>
    rw [display_eq hfin] at h
    cases h
  | false =>
    rw [display_of_not_isFinite hfin] at h
    cases h

/-- A text of the grammar that divides by a literal of zero is refused as a division by zero, if the literal does not begin with
its point. It is refused so exactly if it divides by a literal that begins with a zero, whatever the literal denotes. -/
theorem evaluate_zeroDivisor_iff {s : List Char} {e : Expr ℚ} (he : Derives Spelling.exact .sum (stripBlanks s) e) :
    (∀ w, Literal.DividesIn w (stripBlanks s) → Literal.IsZero w → w.head? ≠ some '.' → evaluate s = .error .zeroDivisor) ∧
      (evaluate s = .error .zeroDivisor ↔ ∃ w, Literal.DividesIn w (stripBlanks s) ∧ w.head? = some '0') := by
  have hguard : ∀ w, Literal.DividesIn w (stripBlanks s) → w.head? = some '0' → evaluate s = .error .zeroDivisor :=
    fun w hw hhead => evaluate_of_validate_error (Guard.validate_of_zeroDivisor (hw.isInfix hhead))
  refine ⟨fun w hw hzero hpoint => hguard w hw ?_, fun h => ?_, fun ⟨w, hw, hhead⟩ => hguard w hw hhead⟩
  · obtain ⟨-, -, -, hliteral, -⟩ := hw
    exact (hzero.head? hliteral).resolve_left hpoint
  · obtain ⟨ws, ts, hs, hws, -⟩ := he.text_of_exact.exists_lexemes
    have hz := isInfix_of_evaluate he h
    rw [hs] at hz ⊢
    exact hws.exists_dividesIn hz

/-- A zero with a point, in parentheses and after a blank. -/
theorem evaluate_zeroDivisor_parenthesized :
    (∃ e, Derives Spelling.exact .sum (stripBlanks "1+(6/ 0.0)*2".toList) e) ∧
      Literal.DividesIn "0.0".toList (stripBlanks "1+(6/ 0.0)*2".toList) ∧ Literal.IsZero "0.0".toList ∧
      "0.0".toList.head? ≠ some '.' ∧ evaluate "1+(6/ 0.0)*2".toList = .error .zeroDivisor := by
  have hstrip : stripBlanks "1+(6/ 0.0)*2".toList = "1+(6/0.0)*2".toList := by decide
  have hquotient := Derives.product (o := .div) rfl (.factor (Literal.derives ['6'] rfl)) (Literal.derives ['0', '.', '0'] rfl)
  have hproduct := Derives.product (o := .mul) rfl (.factor (.paren (.term hquotient))) (Literal.derives ['2'] rfl)
  obtain ⟨e, he⟩ : ∃ e, Derives Spelling.exact .sum "1+(6/0.0)*2".toList e :=
    ⟨_, .sum (o := .add) rfl (.term (.factor (Literal.derives ['1'] rfl))) hproduct⟩
  have hdivides : Literal.DividesIn "0.0".toList "1+(6/0.0)*2".toList :=
    ⟨['1', '+', '(', '6'], [')', '*', '2'], rfl, rfl, by rintro c ⟨⟩; rfl⟩
  rw [← hstrip] at he hdivides
  have hzero : Literal.IsZero "0.0".toList := by simp [Literal.IsZero]
  exact ⟨⟨e, he⟩, hdivides, hzero, by decide, (evaluate_zeroDivisor_iff he).1 _ hdivides hzero (by decide)⟩

/-- A zero that begins with its point is not seen by the guard: the quotient is an infinity, and refused as such. -/
theorem evaluate_zeroDivisor_counterexample :
    (∃ e, Derives Spelling.exact .sum (stripBlanks "5/.0".toList) e) ∧
      Literal.DividesIn ".0".toList (stripBlanks "5/.0".toList) ∧ Literal.IsZero ".0".toList ∧
      evaluate "5/.0".toList = .error .notFinite := by
  have hstrip : stripBlanks "5/.0".toList = "5/.0".toList := by decide
  have hquotient := Derives.product (o := .div) rfl (.factor (Literal.derives ['5'] rfl)) (Literal.derives ['.', '0'] rfl)
  rw [hstrip]
  exact ⟨⟨_, .term hquotient⟩, ⟨['5'], [], rfl, rfl, by simp⟩, by simp [Literal.IsZero], by decide +kernel⟩

end Calculator
