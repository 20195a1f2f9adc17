import Mathlib
import Calculator.Proofs.PlainLiteral

/-!
# Printed tokens read back

The tokens of a text are printed with a space between two of them. Without the blanks the print has the same tokens, unless one
of them is an infinity (`tokenize_spacedText`): the print of a number is a literal of that number (`lexeme_positionalText`), and
two literals do not become one because no two numbers are neighbours.
-/

namespace Calculator

open Text

namespace Decimal

variable {d : Decimal}

/-! ## The positional layout as a literal -/

theorem Normal.isLiteral_positional (h : d.Normal) : Literal.isLiteral d.positional = true := by
  obtain ⟨w, f, heq, hw, -, hf, -⟩ := h.exists_positional_eq
  exact IsPlain.isLiteral ⟨w, f, heq, hw, hf⟩

theorem Normal.toRat_positional (h : d.Normal) : Literal.toRat d.positional = d.toRat := by
  have hread := readUnsigned?_positional h.isDigit h.ne_nil
  rw [readUnsigned?_literal h.isLiteral_positional, Option.some.injEq] at hread
  exact hread

end Decimal

/-! ## The print of a number -/

/-- A finite double without a minus sign is printed as a literal that is read as this double, however small or large it is. -/
theorem lexeme_positionalText (a : Magnitude) :
    Lexeme (Binary64.finite false a).positionalText (.number (.finite false a)) := by
  by_cases ha : a.mant = 0
  · have hzero : Literal.value ['0'] = .finite false a := by
      rw [Literal.value_eq_nearest, Literal.toRat_digits (by simp), Binary64.finite_eq_zero ha]
      exact Binary64.nearest_zero
    have htext : (Binary64.finite false a).positionalText = ['0'] := if_pos ha
    rw [htext, ← hzero]
    exact .literal (by decide)
  · obtain ⟨c, place, hshort, hback⟩ := Magnitude.exists_shortest_eq ha
    have hc := Magnitude.ne_zero_of_readsBack ha hback
    have hnormal := Decimal.normal_ofScaled hc place
    have hvalue : Literal.value (Decimal.ofScaled c place).positional = .finite false a := by
      rw [Literal.value_eq_nearest, hnormal.toRat_positional, Decimal.toRat_ofScaled]
      exact Magnitude.nearest_of_readsBack hback false hc
    have htext : (Binary64.finite false a).positionalText = (Decimal.ofScaled c place).positional := by
      rw [← hshort]
      exact if_neg ha
    rw [htext, ← hvalue]
    exact .literal hnormal.isLiteral_positional

/-- A literal is read as a finite double without a minus sign, or as the positive infinity. -/
theorem Literal.value_outcome (w : List Char) : (∃ a, value w = .finite false a) ∨ value w = .infinite false := by
  cases hround : Magnitude.ofRatio? (coefficient w * Magnitude.unitsInOne) (tenPow (fraction w).length) with
  | none => exact Or.inr (Binary64.ofRatio_of_none false hround)
  | some a => exact Or.inl ⟨a, Binary64.ofRatio_of_some false hround⟩

/-- A token of a text is printed as a lexeme of this token, unless it is an infinity. -/
theorem Lexeme.text {w : List Char} {t : Token} (h : Lexeme w t) (hfin : ∀ neg, t ≠ .number (.infinite neg)) :
    Lexeme t.text t := by
  cases h with
  | literal _ =>
    rcases Literal.value_outcome w with ⟨a, ha⟩ | hinf
    · rw [ha]
      exact lexeme_positionalText a
    · exact absurd (congrArg Token.number hinf) (hfin false)
  | op o => exact .op o
  | lparen => exact .lparen
  | rparen => exact .rparen

/-! ## The print of all tokens -/

/-- There is no blank in a lexeme. -/
theorem Lexeme.stripBlanks {w : List Char} {t : Token} (h : Lexeme w t) : stripBlanks w = w := by
  cases h with
  | literal hw => exact stripBlanks_of_derives (.number ⟨hw, rfl⟩)
  | op o => cases o <;> rfl
  | lparen => rfl
  | rparen => rfl

/-- Texts without blanks that are written with a space between two of them are put together when the blanks are removed. -/
theorem Text.stripBlanks_intercalate (ws : List (List Char)) (h : ∀ w ∈ ws, stripBlanks w = w) :
    stripBlanks (List.intercalate [' '] ws) = ws.flatten := by
  induction ws with
  | nil => rfl
  | cons w ws ih =>
    have hw : stripBlanks w = w := h w List.mem_cons_self
    have hws := ih fun v hv => h v (List.mem_cons_of_mem w hv)
    cases ws with
    | nil => rw [List.intercalate_singleton, List.flatten_singleton, hw]
    | cons v ws =>
      have hspace : stripBlanks [' '] = [] := rfl
      rw [List.intercalate_cons_cons, stripBlanks_append, stripBlanks_append, hw, hspace, List.append_nil, hws]
      rfl

/-- Lexemes can be exchanged one by one for others of their tokens. -/
theorem Lexemes.map_text {ws : List (List Char)} {ts : List Token} (h : Lexemes ws ts)
    (hfin : ∀ neg, Token.number (.infinite neg) ∉ ts) : Lexemes (ts.map Token.text) ts := by
  induction h with
  | nil => exact .nil
  | @cons w t ws ts hw _ hnext ih =>
    have hhead : ∀ neg, t ≠ .number (.infinite neg) := fun neg heq => hfin neg (heq ▸ List.mem_cons_self)
    exact .cons (hw.text hhead) (ih fun neg hmem => hfin neg (List.mem_cons_of_mem t hmem)) hnext

theorem Lexemes.exists_lexeme {ws : List (List Char)} {ts : List Token} (h : Lexemes ws ts) :
    ∀ w ∈ ws, ∃ t, Lexeme w t := by
  induction h with
  | nil => simp
  | @cons w t ws ts hw _ _ ih =>
    intro v hv
    rcases List.mem_cons.1 hv with rfl | hv
    · exact ⟨t, hw⟩
    · exact ih v hv

/-- The tokens of a text are read again from their print: without its blanks it has the same tokens, with the same doubles. Only
an infinity has no literal that is printed for it. -/
theorem tokenize_spacedText {s : List Char} {ts : List Token} (h : tokenize s = .ok ts)
    (hfin : ∀ neg, Token.number (.infinite neg) ∉ ts) :
    tokenize (Text.stripBlanks (Token.spacedText ts)) = .ok ts := by
  obtain ⟨ws, hws, -⟩ := lexemes_of_tokenize s h
  have hprint := hws.map_text hfin
  have hplain : ∀ w ∈ ts.map Token.text, Text.stripBlanks w = w := by
    intro w hw
    obtain ⟨t, ht⟩ := hprint.exists_lexeme w hw
    exact ht.stripBlanks
  rw [Token.spacedText, stripBlanks_intercalate _ hplain]
  exact tokenize_of_lexemes hprint

/-- Tokens with a factor that is smaller than a millionth. -/
def Token.smallFactor : List Token :=
  [.lparen, .number (Literal.value "7.5".toList), .op .sub, .number (Literal.value "0.1".toList), .rparen, .op .mul,
    .number (Literal.value "0.0000001".toList)]

/-- None of their literals is written as it is printed, and no exponent is printed. -/
theorem tokenize_spacedText_smallFactor :
    tokenize "(007.50-.1)*.00000010".toList = .ok Token.smallFactor ∧
      (∀ neg, Token.number (.infinite neg) ∉ Token.smallFactor) ∧
      Token.spacedText Token.smallFactor = "( 7.5 - 0.1 ) * 0.0000001".toList ∧
      tokenize (Text.stripBlanks (Token.spacedText Token.smallFactor)) = .ok Token.smallFactor := by
  have hvalue : tokenize "(007.50-.1)*.00000010".toList = .ok Token.smallFactor := by decide +kernel
  have hfin : ∀ neg, Token.number (.infinite neg) ∉ Token.smallFactor := by decide +kernel
  exact ⟨hvalue, hfin, by decide +kernel, tokenize_spacedText hvalue hfin⟩

end Calculator
