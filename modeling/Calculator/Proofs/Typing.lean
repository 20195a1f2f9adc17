import Mathlib
import Calculator.Expr.Signed
import Calculator.State
import Calculator.Proofs.Lexer

/-!
# What is written when a signed expression is typed

A text that is typed is written as it is, but for minus signs of operands. So the text of a signed expression becomes the
text of an expression of the grammar, and the tree of that expression is the rewritten one (`addAll_of_derives`). While it is
typed, what is written since the last open parenthesis is a sum with its operator and a term with its operator, as far as
they are there (`Waits`).
-/

namespace Calculator

open State

/-! ## The end of a text -/

theorem isOperator_symbol (o : BinOp) : isOperator o.symbol = true := by
  rw [isOperator, BinOp.ofChar?_symbol]
  rfl

/-- The delimiters are the characters that are tokens by themselves. -/
theorem State.isDelimiter_eq (c : Char) : isDelimiter c = (Token.ofChar? c).isSome := by
  unfold isDelimiter isOperator Token.ofChar?
  by_cases hl : c = '('
  · simp [hl]
  · by_cases hr : c = ')'
    · simp [hr]
    · simp [hl, hr, beq_eq_false_iff_ne.2 hl, beq_eq_false_iff_ne.2 hr]

/-- A character of a literal is no delimiter. -/
theorem State.isDelimiter_of_isNumeral {c : Char} (h : Literal.isNumeral c = true) : isDelimiter c = false := by
  rw [isDelimiter_eq, Token.ofChar?_of_isNumeral h]
  rfl

theorem State.expectsOperand_append_symbol (s : List Char) (o : BinOp) : expectsOperand (s ++ [o.symbol]) = true := by
  simp [expectsOperand, endsWithOperator, isOperator_symbol]

theorem State.expectsOperand_append_lparen (s : List Char) : expectsOperand (s ++ ['(']) = true := by
  simp [expectsOperand]

theorem State.expectsOperand_append_rparen (s : List Char) : expectsOperand (s ++ [')']) = false := by
  have hop : isOperator ')' = false := rfl
  simp [expectsOperand, endsWithOperator, hop]

/-- After a character that is no delimiter no operand may come. -/
theorem State.expectsOperand_append_of_isDelimiter (s : List Char) {c : Char} (h : isDelimiter c = false) :
    expectsOperand (s ++ [c]) = false := by
  simp only [isDelimiter, Bool.or_eq_false_iff, beq_eq_false_iff_ne] at h
  obtain ⟨⟨hop, hl⟩, -⟩ := h
  simp [expectsOperand, endsWithOperator, hop, hl]

/-- Where an operand may come no number is begun. -/
theorem State.lastNumber_eq_nil {s : List Char} (h : expectsOperand s = true) : lastNumber s = [] := by
  rcases List.eq_nil_or_concat s with rfl | ⟨v, c, rfl⟩
  · rfl
  · have hc : isDelimiter c = true := by
      cases hd : isDelimiter c with
      | true => rfl
      | false =>
        rw [List.concat_eq_append, expectsOperand_append_of_isDelimiter v hd] at h
        cases h
    simp [lastNumber, hc]

/-- A run of digits and points goes on with the number before it. -/
theorem State.lastNumber_append (s : List Char) {w : List Char} (h : ∀ c ∈ w, Literal.isNumeral c = true) :
    lastNumber (s ++ w) = lastNumber s ++ w := by
  have hrev : ∀ c ∈ w.reverse, (!isDelimiter c) = true := by
    intro c hc
    rw [isDelimiter_of_isNumeral (h c (List.mem_reverse.1 hc))]
    rfl
  unfold lastNumber
  rw [List.reverse_append, List.takeWhile_append_of_pos hrev, List.reverse_append, List.reverse_reverse]

/-! ## What each key of an expression writes -/

theorem State.extend_lparen (s : List Char) : extend s '(' = s ++ ['('] := rfl

theorem State.extend_rparen (s : List Char) : extend s ')' = s ++ [')'] := rfl

/-- Where no operand may come an operator is appended. -/
theorem State.extend_symbol {s : List Char} (h : expectsOperand s = false) (o : BinOp) :
    extend s o.symbol = s ++ [o.symbol] := by
  have hs := h
  simp only [expectsOperand, Bool.or_eq_false_iff] at hs
  have hdot : o.symbol ≠ '.' := by cases o <;> decide
  unfold extend
  rw [if_neg hdot, if_pos (isOperator_symbol o), h, hs.1.1, hs.1.2]
  simp

/-- Where an operand may come a minus sign is written as a subtraction from zero. -/
theorem State.extend_minus {s : List Char} (h : expectsOperand s = true) : extend s '-' = s ++ ['0', '-'] := by
  unfold extend
  rw [if_neg (by decide), if_pos (by decide), h]
  rfl

/-- A digit is appended, and so is the first point of a number. -/
theorem State.extend_numeral {s : List Char} {c : Char} (hc : Literal.isNumeral c = true)
    (hs : c = '.' → '.' ∉ lastNumber s) : extend s c = s ++ [c] := by
  have hd := isDelimiter_of_isNumeral hc
  simp only [isDelimiter, Bool.or_eq_false_iff] at hd
  unfold extend
  by_cases hdot : c = '.'
  · rw [if_pos hdot, if_neg (hs hdot), hdot]
  · rw [if_neg hdot, if_neg (by rw [hd.1.1]; exact Bool.false_ne_true)]

/-- The rest of a literal is written as it is after its beginning: the number before each of its characters is what was typed
of it, and that has no point if the character is one. -/
theorem State.foldl_extend_numerals {s u w : List Char} (hs : expectsOperand s = true)
    (hall : ∀ c ∈ u ++ w, Literal.isNumeral c = true) (hcount : (u ++ w).count '.' ≤ 1) :
    w.foldl extend (s ++ u) = s ++ u ++ w := by
  induction w generalizing u with
  | nil => simp
  | cons c w ih =>
    have hu : ∀ a ∈ u, Literal.isNumeral a = true := fun a ha => hall a (List.mem_append_left _ ha)
    have hc : Literal.isNumeral c = true := hall c (by simp)
    have hpoint : c = '.' → '.' ∉ lastNumber (s ++ u) := by
      rintro rfl hmem
      rw [lastNumber_append s hu, lastNumber_eq_nil hs, List.nil_append] at hmem
      have hpos := List.count_pos_iff.2 hmem
      rw [List.count_append, List.count_cons_self] at hcount
      omega
    rw [List.append_cons] at hall hcount
    rw [List.foldl_cons, extend_numeral hc hpoint, List.append_assoc, ih hall hcount]
    simp

/-- Where an operand may come, a literal is written as it is. -/
theorem State.foldl_extend_literal {s w : List Char} (hs : expectsOperand s = true) (hw : Literal.isLiteral w = true) :
    w.foldl extend s = s ++ w := by
  have hcount : w.count '.' ≤ 1 := by
    simp only [Literal.isLiteral, Bool.and_eq_true, decide_eq_true_eq] at hw
    exact hw.2
  have h := foldl_extend_numerals (u := []) hs (Literal.all_isNumeral hw) hcount
  rwa [List.append_nil] at h

/-! ## Sums and terms that wait for their last operand -/

/-- The text of a left operand of a level and of an operator that binds as the level does, or no text when there is none. -/
inductive Waits : Level → Option (Expr ℚ × BinOp) → List Char → Prop where
  | nothing {l : Level} : Waits l none []
  | operand {l : Level} {w : List Char} {e : Expr ℚ} {o : BinOp} :
      Derives Spelling.exact l w e → o.precedence = l.binding → Waits l (some (e, o)) (w ++ [o.symbol])

/-- A factor completes a term. -/
theorem Waits.append_factor {t : Option (Expr ℚ × BinOp)} {v w : List Char} {e : Expr ℚ} (ht : Waits .term t v)
    (h : Derives Spelling.exact .factor w e) : Derives Spelling.exact .term (v ++ w) (e.after t) := by
  cases ht with
  | nothing => exact .factor h
  | operand hl ho =>
    rw [List.append_assoc]
    exact .product ho hl h

/-- A term completes a sum. -/
theorem Waits.append_term {s : Option (Expr ℚ × BinOp)} {u w : List Char} {e : Expr ℚ} (hs : Waits .sum s u)
    (h : Derives Spelling.exact .term w e) : Derives Spelling.exact .sum (u ++ w) (e.after s) := by
  cases hs with
  | nothing => exact .term h
  | operand hl ho =>
    rw [List.append_assoc]
    exact .sum ho hl h

/-- What waits for an operand ends where one may come. -/
theorem Waits.expectsOperand {l : Level} {p : Option (Expr ℚ × BinOp)} {b u : List Char} (h : Waits l p u)
    (hb : expectsOperand b = true) : State.expectsOperand (b ++ u) = true := by
  cases h with
  | nothing => rwa [List.append_nil]
  | operand _ _ =>
    rw [← List.append_assoc]
    exact expectsOperand_append_symbol _ _

/-- After an expression no operand may come. -/
theorem expectsOperand_of_derives {l : Level} {w : List Char} {e : Expr ℚ} (h : Derives Spelling.exact l w e) :
    ∀ b : List Char, expectsOperand (b ++ w) = false := by
  refine h.word_induction ?_ ?_ ?_
  · intro w x hw b
    rcases List.eq_nil_or_concat w with rfl | ⟨v, c, rfl⟩
    · exact absurd rfl (Literal.ne_nil hw.1)
    · have hc : Literal.isNumeral c = true := Literal.all_isNumeral hw.1 c (by simp)
      rw [List.concat_eq_append, ← List.append_assoc]
      exact expectsOperand_append_of_isDelimiter _ (isDelimiter_of_isNumeral hc)
  · intro w e _ _ b
    rw [← List.cons_append, ← List.append_assoc]
    exact expectsOperand_append_rparen _
  · intro v w l r o _ ihw b
    rw [List.append_cons, ← List.append_assoc]
    exact ihw _

/-! ## Typing a signed expression -/

/-- A literal of one character that is not the point denotes that digit. -/
theorem Literal.toRat_singleton {c : Char} (h : c ≠ '.') : toRat [c] = digit c := by
  have hc : (c != '.') = true := bne_iff_ne.2 h
  have hwhole : whole [c] = [c] := List.takeWhile_cons_of_pos hc
  have hfraction : fraction [c] = [] := by simp [fraction, hc]
  rw [toRat, hwhole, hfraction]
  simp [wholeNumber, fractionNumber]

/-- A digit is a number of one factor. -/
theorem derives_digit {c : Char} (h : c.isDigit = true) : Derives Spelling.exact .factor [c] (.number (Literal.digit c)) := by
  have hdot : c ≠ '.' := by
    rintro rfl
    cases h
  exact .number ⟨by simp [Literal.isLiteral, Literal.isNumeral, h, hdot], (Literal.toRat_singleton hdot).symm⟩

theorem derives_zero : Derives Spelling.exact .factor ['0'] (.number 0) := by
  have hzero : Literal.digit '0' = 0 := by simp [Literal.digit]
  exact hzero ▸ derives_digit rfl

/-- A signed expression that is typed after a sum and a term that wait for their operands makes them a sum that waits, and a
term. -/
theorem Signed.Derives.foldl_extend {l : Level} {w : List Char} {e : Signed} (h : Signed.Derives l w e)
    {s t : Option (Expr ℚ × BinOp)} {b u v : List Char} (hb : expectsOperand b = true) (hs : Waits .sum s u)
    (ht : Waits .term t v) :
    ∃ u' v', w.foldl extend (b ++ u ++ v) = b ++ u' ++ v' ∧ Waits .sum (e.appendTo s t).1 u' ∧
      Calculator.Derives Spelling.exact .term v' (e.appendTo s t).2 := by
  induction h generalizing s t b u v with
  | @number w hw =>
    refine ⟨u, v ++ w, ?_, hs, ht.append_factor (.number ⟨hw, rfl⟩)⟩
    rw [State.foldl_extend_literal (ht.expectsOperand (hs.expectsOperand hb)) hw, List.append_assoc _ v w]
  | @paren w e _ ih =>
    obtain ⟨u', v', hfold, hs', ht'⟩ :=
      ih (expectsOperand_append_lparen (b ++ u ++ v)) Waits.nothing Waits.nothing
    refine ⟨u, v ++ ('(' :: (u' ++ v' ++ [')'])), ?_, hs, ht.append_factor (.paren (hs'.append_term ht'))⟩
    rw [List.append_nil, List.append_nil] at hfold
    rw [List.foldl_cons, extend_lparen, List.foldl_append, hfold, List.foldl_cons, List.foldl_nil, extend_rparen]
    simp
  | @neg w e _ ih =>
    have hzero := hs.append_term (ht.append_factor derives_zero)
    obtain ⟨u', v', hfold, hs', ht'⟩ := ih hb (Waits.operand (o := .sub) hzero rfl) Waits.nothing
    refine ⟨u', v', ?_, hs', ht'⟩
    rw [List.foldl_cons, extend_minus (ht.expectsOperand (hs.expectsOperand hb)), ← hfold]
    simp [BinOp.symbol]
  | factor _ ih => exact ih hb hs ht
  | @product w₁ w₂ l r o ho _ _ ihl ihr =>
    obtain ⟨u', v', hfold, hs', ht'⟩ := ihl hb hs ht
    obtain ⟨u'', v'', hfold', hs'', ht''⟩ := ihr hb hs' (Waits.operand ht' ho)
    rw [appendTo_of_product ho]
    refine ⟨u'', v'', ?_, hs'', ht''⟩
    rw [List.foldl_append, hfold, List.foldl_cons, extend_symbol (expectsOperand_of_derives ht' _), ← hfold']
    simp
  | term _ ih => exact ih hb hs ht
  | @sum w₁ w₂ l r o ho _ _ ihl ihr =>
    obtain ⟨u', v', hfold, hs', ht'⟩ := ihl hb hs ht
    obtain ⟨u'', v'', hfold', hs'', ht''⟩ := ihr hb (Waits.operand (hs'.append_term ht') ho) Waits.nothing
    rw [appendTo_of_sum ho]
    refine ⟨u'', v'', ?_, hs'', ht''⟩
    rw [List.foldl_append, hfold, List.foldl_cons, extend_symbol (expectsOperand_of_derives ht' _), ← hfold']
    simp

/-- The text of a signed expression, typed into a calculator that was just switched on, is written as an expression of the
grammar, and its tree is the rewritten one. -/
theorem addAll_of_derives {w : List Char} {e : Signed} (h : Signed.Derives .sum w e) :
    Derives Spelling.exact .sum (State.initial.addAll w).expression e.rewritten := by
  obtain ⟨u, v, hfold, hs, ht⟩ := h.foldl_extend (b := []) rfl Waits.nothing Waits.nothing
  have hexpr : (State.initial.addAll w).expression = u ++ v := by
    rw [addAll_expression]
    exact hfold
  rw [hexpr]
  exact hs.append_term ht

end Calculator
