import Mathlib
import Calculator.Proofs.Balanced
import Calculator.Proofs.Evaluate

/-!
# Outer parentheses

A text whose parentheses are balanced is evaluated in a pair of parentheses as it is without them, to the same value or with the
same error (`evaluate_parenthesized`). The guards find the same in both. In parentheses the text has no tree but its own with one
more node: an operator outside of the added pair would have a word before it that closes the added parenthesis
(`Derives.exists_paren`).
-/

namespace Calculator

open Text

/-! ## The text in parentheses -/

theorem Text.stripBlanks_parenthesized (s : List Char) :
    stripBlanks ('(' :: (s ++ [')'])) = '(' :: (stripBlanks s ++ [')']) := by
  have hopen : stripBlanks ['('] = ['('] := rfl
  have hclose : stripBlanks [')'] = [')'] := rfl
  rw [← List.singleton_append, stripBlanks_append, stripBlanks_append, hopen, hclose, List.singleton_append]

/-- A parenthesis is no blank. -/
theorem Text.parens_stripBlanks (s : List Char) : parens (stripBlanks s) = parens s := by
  rw [parens, stripBlanks, List.filter_filter, parens]
  refine List.filter_congr fun c _ => ?_
  by_cases hl : c = '('
  · subst hl
    decide
  · by_cases hr : c = ')'
    · subst hr
      decide
    · simp [hl, hr]

namespace Guard

theorem hasZeroDivisor_append_rparen (s : List Char) : hasZeroDivisor (s ++ [')']) = hasZeroDivisor s := by
  induction s with
  | nil => rfl
  | cons c s ih =>
    have hhead : ((s ++ [')']).head? == some '0') = (s.head? == some '0') := by cases s <;> rfl
    rw [List.cons_append, hasZeroDivisor, hasZeroDivisor, hhead, ih]

/-- No division by zero begins or ends with the parentheses. -/
theorem hasZeroDivisor_parenthesized (s : List Char) : hasZeroDivisor ('(' :: (s ++ [')'])) = hasZeroDivisor s := by
  rw [hasZeroDivisor, hasZeroDivisor_append_rparen]
  rfl

theorem closesFrom_parenthesized {s : List Char} (h : closesFrom 0 s = true) : closesFrom 0 ('(' :: (s ++ [')'])) = true := by
  have hs := (closesFrom_zero_iff s).1 h
  rw [closesFrom_lparen (Int.le_refl 0), closesFrom_append_of_balanced hs _ (by decide)]
  rfl

end Guard

/-! ## The trees of the text in parentheses -/

/-- A word of the grammar in front of an operator closes the parenthesis that it begins with. That of a balanced text in
parentheses is closed at the end only. -/
theorem Derives.append_op_ne_parenthesized {ν : Type} {f : List Char → ν} {l : Level} {v w p : List Char} {e : Expr ν}
    (h : Derives (Spelling.literals f) l v e) (o : BinOp) (hp : Guard.closesFrom 0 p = true) :
    v ++ o.symbol :: w ≠ '(' :: (p ++ [')']) := by
  intro heq
  obtain ⟨c, v, rfl, -⟩ := Guard.exists_cons_of_derives h
  rw [List.cons_append] at heq
  obtain ⟨rfl, hrest⟩ := List.cons_eq_cons.1 heq
  have hclosed : Guard.closesFrom 1 v = true := by
    have hword := Guard.closesFrom_append_of_derives h 0 (Int.le_refl 0) []
    rwa [List.append_nil, Guard.closesFrom_lparen (Int.le_refl 0)] at hword
  have hprefix : v <+: p := by
    refine List.prefix_of_prefix_length_le ⟨_, hrest⟩ (List.prefix_append p [')']) ?_
    have hlength := congrArg List.length hrest
    simp only [List.length_append, List.length_cons, List.length_nil] at hlength
    omega
  have hbalance := ((Guard.closesFrom_iff v (by decide)).1 hclosed).2
  have hdepth := ((Guard.closesFrom_iff p (Int.le_refl 0)).1 hp).1 v hprefix
  omega

/-- So the whole is one factor. -/
theorem Derives.exists_paren {ν : Type} {f : List Char → ν} {l : Level} {w : List Char} {e : Expr ν}
    (h : Derives (Spelling.literals f) l w e) : ∀ {p}, w = '(' :: (p ++ [')']) → Guard.closesFrom 0 p = true →
      ∃ e', Derives (Spelling.literals f) .sum p e' ∧ e = .paren e' := by
  induction h with
  | @number w x hw =>
    intro p heq _
    have hnum := Literal.all_isNumeral hw.1 '(' (by rw [heq]; exact List.mem_cons_self)
    cases hnum
  | @paren w e hw _ =>
    intro p heq _
    obtain rfl : w = p := List.append_cancel_right (List.cons_eq_cons.1 heq).2
    exact ⟨e, hw, rfl⟩
  | factor _ ih => exact ih
  | @product v w l r o _ hv _ _ _ =>
    intro p heq hp
    exact absurd heq (hv.append_op_ne_parenthesized o hp)
  | term _ ih => exact ih
  | @sum v w l r o _ hv _ _ _ =>
    intro p heq hp
    exact absurd heq (hv.append_op_ne_parenthesized o hp)

/-! ## Evaluation in parentheses -/

/-- A text with balanced parentheses that is not of the grammar is malformed, whichever stage finds it. -/
theorem evaluate_of_closesFrom {s : List Char} (hz : ¬['/', '0'] <:+: stripBlanks s)
    (hc : Guard.closesFrom 0 (stripBlanks s) = true) (hd : ¬∃ e, Derives Spelling.exact .sum (stripBlanks s) e) :
    evaluate s = .error .malformed := by
  have hb : ¬Unbalanced (stripBlanks s) := by
    rw [← Guard.closesFrom_zero_eq_false_iff, hc]
    decide
  by_cases hf : Foreign (stripBlanks s)
  · exact evaluate_of_validate_error (Guard.validate_of_foreign hz hf)
  · rcases Guard.validate_of_balanced hz hf hb with hv | hv
    · exact evaluate_of_validate_error hv
    · exact evaluate_of_not_derives hv hd

/-- A pair of parentheses around a text whose parentheses are balanced, whatever else it consists of, changes neither its value
nor its error. -/
theorem evaluate_parenthesized {s : List Char} (h : Guard.checkParens s = .ok ()) :
    evaluate ('(' :: (s ++ [')'])) = evaluate s := by
  have hc : Guard.closesFrom 0 (stripBlanks s) = true := by
    rw [Guard.closesFrom_zero_iff, parens_stripBlanks]
    exact (Guard.checkParens_eq_ok_iff s).1 h
  have hstrip := stripBlanks_parenthesized s
  have hc' : Guard.closesFrom 0 (stripBlanks ('(' :: (s ++ [')']))) = true := by
    rw [hstrip]
    exact Guard.closesFrom_parenthesized hc
  have hzero : ['/', '0'] <:+: stripBlanks ('(' :: (s ++ [')'])) ↔ ['/', '0'] <:+: stripBlanks s := by
    rw [hstrip, ← Guard.hasZeroDivisor_iff, ← Guard.hasZeroDivisor_iff, Guard.hasZeroDivisor_parenthesized]
  by_cases hz : ['/', '0'] <:+: stripBlanks s
  · rw [evaluate_of_validate_error (Guard.validate_of_zeroDivisor hz),
      evaluate_of_validate_error (Guard.validate_of_zeroDivisor (hzero.2 hz))]
  have hz' : ¬['/', '0'] <:+: stripBlanks ('(' :: (s ++ [')'])) := mt hzero.1 hz
  by_cases hd : ∃ e, Derives Spelling.exact .sum (stripBlanks s) e
  · obtain ⟨e, he⟩ := hd
    have he' : Derives Spelling.exact .sum (stripBlanks ('(' :: (s ++ [')']))) (.paren e) := by
      rw [hstrip]
      exact .term (.factor (.paren he))
    rw [evaluate_of_derives hz he, evaluate_of_derives hz' he']
    rfl
  · have hd' : ¬∃ e, Derives Spelling.exact .sum (stripBlanks ('(' :: (s ++ [')']))) e := by
      rintro ⟨e, he⟩
      rw [hstrip] at he
      obtain ⟨e', he', -⟩ := he.exists_paren rfl hc
      exact hd ⟨e', he'⟩
    rw [evaluate_of_closesFrom hz hc hd, evaluate_of_closesFrom hz' hc' hd']

/-- The guards refuse a text that begins with an empty pair of parentheses, and a later stage one that has it inside; a division
by zero is refused by the guards in both, whatever blanks it has. -/
theorem evaluate_parenthesized_empty :
    Guard.checkParens "()*2".toList = .ok () ∧ evaluate "(()*2)".toList = .error .malformed ∧
      Guard.checkParens "1 / 0".toList = .ok () ∧ evaluate "(1 / 0)".toList = .error .zeroDivisor := by
  have hempty : Guard.checkParens "()*2".toList = .ok () := by decide
  have hdivision : Guard.checkParens "1 / 0".toList = .ok () := by decide
  have hrefused : evaluate "()*2".toList = .error .malformed := by cbv
  have hdivided : evaluate "1 / 0".toList = .error .zeroDivisor := by cbv
  exact ⟨hempty, (evaluate_parenthesized hempty).trans hrefused, hdivision, (evaluate_parenthesized hdivision).trans hdivided⟩

end Calculator
