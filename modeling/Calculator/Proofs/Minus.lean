import Mathlib
import Calculator.Proofs.Typing

/-!
# When a typed minus sign keeps its meaning

A minus sign of an operand is written as a subtraction from zero without parentheses. In front, after an open parenthesis and
after a plus sign this has the value that was meant. After the three other operators it need not: they take the zero for
their right operand. So the operators that may stand before the minus sign of an operand, if every exact value is to be kept,
are the plus sign alone (`addAll_value_iff`).
-/

namespace Calculator

namespace Signed

/-! ## Texts whose minus signs of operands follow no operator but the plus sign -/

/-- Among the operators only the plus sign has a minus sign behind it. -/
def OnlyAfterPlus (w : List Char) : Prop := ∀ o : BinOp, [o.symbol, '-'] <:+: w → o = .add

theorem OnlyAfterPlus.of_infix {v w : List Char} (h : OnlyAfterPlus w) (hv : v <:+: w) : OnlyAfterPlus v :=
  fun o ho => h o (ho.trans hv)

/-- Behind an operator, a text that begins with a minus sign tells that the operator is the plus sign. -/
theorem OnlyAfterPlus.eq_add {u v w : List Char} {o : BinOp} (h : OnlyAfterPlus w) (hw : w = u ++ o.symbol :: v)
    (hv : v.head? = some '-') : o = .add := by
  obtain ⟨v', rfl⟩ := List.head?_eq_some_iff.1 hv
  exact h o ⟨u, v', by rw [hw]; simp⟩

/-! ## The rewritten tree of such a text -/

/-- After any sum, the expression leaves that sum and a term of its own value. -/
def IsTerm (e : Signed) : Prop := ∃ x : Expr ℚ, x.exactValue? = e.exactValue? ∧ ∀ s, e.appendTo s none = (s, x)

/-- After any sum and term, the expression becomes the last factor of the term. -/
def IsFactor (e : Signed) : Prop := ∃ x : Expr ℚ, x.exactValue? = e.exactValue? ∧ ∀ s t, e.appendTo s t = (s, x.after t)

/-- After any sum, the expression adds a zero to the sum, and subtracts a term. -/
def IsNegated (e : Signed) : Prop :=
  ∃ x : Expr ℚ, x.exactValue?.map (- ·) = e.exactValue? ∧
    ∀ s, e.appendTo s none = (some ((Expr.number 0).after s, .sub), x)

/-- The value of a level is kept: that of a sum is the value of the rewritten tree, and a term or a factor is one after any
sum, unless it begins with a minus sign, when it is subtracted. -/
def Kept (w : List Char) (e : Signed) : Level → Prop
  | .factor => IsFactor e ∨ w.head? = some '-' ∧ IsNegated e
  | .term => IsTerm e ∨ w.head? = some '-' ∧ IsNegated e
  | .sum => e.rewritten.exactValue? = e.exactValue?

theorem IsFactor.isTerm {e : Signed} (h : IsFactor e) : IsTerm e := by
  obtain ⟨x, hx, happ⟩ := h
  exact ⟨x, hx, fun s => happ s none⟩

/-- A negated factor is subtracted from zero. -/
theorem IsFactor.neg {e : Signed} (h : IsFactor e) : IsNegated (.neg e) := by
  obtain ⟨x, hx, happ⟩ := h
  refine ⟨x, by rw [hx]; rfl, fun s => ?_⟩
  exact happ _ none

/-- Parentheses make a factor of every expression whose value is kept. -/
theorem IsFactor.paren {e : Signed} (h : e.rewritten.exactValue? = e.exactValue?) : IsFactor (.paren e) :=
  ⟨.paren e.rewritten, h, fun _ _ => rfl⟩

/-- Multiplying or dividing a term by a factor. -/
theorem IsTerm.product {l r : Signed} {o : BinOp} (ho : o.precedence = 2) (hl : IsTerm l) (hr : IsFactor r) :
    IsTerm (.binary o l r) := by
  obtain ⟨x, hx, hxapp⟩ := hl
  obtain ⟨y, hy, hyapp⟩ := hr
  refine ⟨.binary o x y, ?_, fun s => ?_⟩
  · simp only [Expr.exactValue?, exactValue?, hx, hy]
  · rw [appendTo_of_product ho, hxapp, hyapp]
    rfl

/-- A product or quotient of opposites is the opposite. -/
theorem exactResult?_neg {o : BinOp} (ho : o.precedence = 2) (a b : ℚ) :
    (o.exactResult? a b).map (- ·) = o.exactResult? (-a) b := by
  cases o with
  | add => cases ho
  | sub => cases ho
  | mul => simp [BinOp.exactResult?]
  | div =>
    by_cases hb : b = 0
    · simp [BinOp.exactResult?, hb]
    · simp [BinOp.exactResult?, hb, neg_div]

/-- Multiplying or dividing a subtracted term by a factor. -/
theorem IsNegated.product {l r : Signed} {o : BinOp} (ho : o.precedence = 2) (hl : IsNegated l) (hr : IsFactor r) :
    IsNegated (.binary o l r) := by
  obtain ⟨x, hx, hxapp⟩ := hl
  obtain ⟨y, hy, hyapp⟩ := hr
  refine ⟨.binary o x y, ?_, fun s => ?_⟩
  · simp only [Expr.exactValue?, exactValue?, ← hx, hy]
    cases x.exactValue? with
    | none => rfl
    | some a =>
      cases r.exactValue? with
      | none => rfl
      | some b => exact exactResult?_neg ho a b
  · rw [appendTo_of_product ho, hxapp, hyapp]
    rfl

/-- Adding or subtracting a term. -/
theorem exactValue?_rewritten_sum {l r : Signed} {o : BinOp} (ho : o.precedence = 1)
    (hl : l.rewritten.exactValue? = l.exactValue?) (hr : IsTerm r) :
    (Signed.binary o l r).rewritten.exactValue? = (Signed.binary o l r).exactValue? := by
  obtain ⟨y, hy, hyapp⟩ := hr
  have htree : (Signed.binary o l r).rewritten = .binary o l.rewritten y := by
    rw [rewritten, appendTo_of_sum ho, hyapp]
    rfl
  simp only [htree, Expr.exactValue?, exactValue?, hl, hy]

/-- Adding a subtracted term: the zero in between changes nothing. -/
theorem exactValue?_rewritten_add {l r : Signed} (hl : l.rewritten.exactValue? = l.exactValue?) (hr : IsNegated r) :
    (Signed.binary .add l r).rewritten.exactValue? = (Signed.binary .add l r).exactValue? := by
  obtain ⟨y, hy, hyapp⟩ := hr
  have htree : (Signed.binary .add l r).rewritten = .binary .sub (.binary .add l.rewritten (.number 0)) y := by
    rw [rewritten, appendTo_of_sum rfl, hyapp]
    rfl
  simp only [htree, Expr.exactValue?, exactValue?, hl, ← hy]
  cases l.exactValue? with
  | none => rfl
  | some a =>
    cases y.exactValue? with
    | none => rfl
    | some b => simp [BinOp.exactResult?, sub_eq_add_neg]

theorem IsTerm.rewritten {e : Signed} (h : IsTerm e) : e.rewritten.exactValue? = e.exactValue? := by
  obtain ⟨x, hx, happ⟩ := h
  rw [Signed.rewritten, happ none]
  exact hx

theorem IsNegated.rewritten {e : Signed} (h : IsNegated e) : e.rewritten.exactValue? = e.exactValue? := by
  obtain ⟨x, hx, happ⟩ := h
  rw [Signed.rewritten, happ none, ← hx]
  cases hv : x.exactValue? with
  | none => simp [Expr.after, Expr.exactValue?, hv]
  | some b => simp [Expr.after, Expr.exactValue?, hv, BinOp.exactResult?]

/-- Where minus signs of operands follow no operator but the plus sign, every level keeps its value. -/
theorem Derives.kept {l : Level} {w : List Char} {e : Signed} (h : Derives l w e) (hw : OnlyAfterPlus w) : Kept w e l := by
  induction h with
  | @number w hlit => exact Or.inl ⟨.number (Literal.toRat w), rfl, fun _ _ => rfl⟩
  | @paren w e _ ih =>
    have hinner : OnlyAfterPlus w := hw.of_infix ⟨['('], [')'], by simp⟩
    exact Or.inl (.paren (ih hinner))
  | @neg w e _ ih =>
    refine Or.inr ⟨rfl, ?_⟩
    rcases ih (hw.of_infix (List.infix_cons (List.infix_refl w))) with hf | ⟨hminus, -⟩
    · exact hf.neg
    · -- the outer sign is the operator before the inner one
      exact absurd (hw.eq_add (u := []) (o := .sub) rfl hminus) (by decide)
  | factor _ ih =>
    rcases ih hw with hf | hn
    · exact Or.inl hf.isTerm
    · exact Or.inr hn
  | @product v w l r o ho _ _ ihl ihr =>
    have hr : IsFactor r := by
      rcases ihr (hw.of_infix ⟨v ++ [o.symbol], [], by simp⟩) with hr | ⟨hminus, -⟩
      · exact hr
      · rw [hw.eq_add rfl hminus] at ho
        cases ho
    rcases ihl (hw.of_infix ⟨[], o.symbol :: w, by simp⟩) with hl | ⟨hminus, hl⟩
    · exact Or.inl (hl.product ho hr)
    · obtain ⟨v', rfl⟩ := List.head?_eq_some_iff.1 hminus
      exact Or.inr ⟨rfl, hl.product ho hr⟩
  | term _ ih =>
    rcases ih hw with ht | ⟨-, hn⟩
    · exact ht.rewritten
    · exact hn.rewritten
  | @sum v w l r o ho _ _ ihl ihr =>
    have hl := ihl (hw.of_infix ⟨[], o.symbol :: w, by simp⟩)
    rcases ihr (hw.of_infix ⟨v ++ [o.symbol], [], by simp⟩) with hr | ⟨hminus, hr⟩
    · exact exactValue?_rewritten_sum ho hl hr
    · rw [hw.eq_add rfl hminus]
      exact exactValue?_rewritten_add hl hr

/-- The tree is kept in value by the rewriting. -/
theorem Derives.exactValue?_rewritten {w : List Char} {e : Signed} (h : Derives .sum w e) (hw : OnlyAfterPlus w) :
    e.rewritten.exactValue? = e.exactValue? := h.kept hw

/-! ## The other operators before a minus sign -/

/-- Two and minus three, with an operator between them. -/
def twoMinusThree (o : BinOp) : Signed := .binary o (.number 2) (.neg (.number 3))

theorem derives_twoMinusThree (o : BinOp) : Derives .sum ['2', o.symbol, '-', '3'] (twoMinusThree o) := by
  have h2 : Literal.toRat ['2'] = 2 := by
    rw [Literal.toRat_singleton (by decide)]
    simp [Literal.digit]
  have h3 : Literal.toRat ['3'] = 3 := by
    rw [Literal.toRat_singleton (by decide)]
    simp [Literal.digit]
  have hl : Derives .factor ['2'] (.number 2) := h2 ▸ .number (by decide)
  have hr : Derives .factor ['-', '3'] (.neg (.number 3)) := .neg (h3 ▸ .number (by decide))
  have ho : o.precedence = 1 ∨ o.precedence = 2 := by cases o <;> simp [BinOp.precedence]
  rcases ho with ho | ho
  · exact .sum ho (.term (.factor hl)) (.factor hr)
  · exact .term (.product ho (.factor hl) hr)

/-- The only operator with a minus sign behind it is the one in the middle. -/
theorem eq_of_infix_twoMinusThree {o p : BinOp} (h : [p.symbol, '-'] <:+: ['2', o.symbol, '-', '3']) : p = o := by
  revert h
  cases o <;> cases p <;> decide

/-- The value that is meant. -/
theorem exactValue?_twoMinusThree (o : BinOp) : (twoMinusThree o).exactValue? = o.exactResult? 2 (-3) := rfl

/-- Every operator takes the zero for its right operand. -/
theorem rewritten_twoMinusThree (o : BinOp) :
    (twoMinusThree o).rewritten = .binary .sub (.binary o (.number 2) (.number 0)) (.number 3) := by
  cases o <;> rfl

theorem exactValue?_rewritten_twoMinusThree (o : BinOp) :
    (twoMinusThree o).rewritten.exactValue? = (o.exactResult? 2 0).map (· - 3) := by
  rw [rewritten_twoMinusThree]
  cases o <;> simp [Expr.exactValue?, BinOp.exactResult?]

/-- Every operator but the plus sign has a result that is meant, and is written with another one or with none. -/
theorem exists_exactValue?_ne {o : BinOp} (ho : o ≠ .add) :
    ∃ q, (twoMinusThree o).exactValue? = some q ∧ (twoMinusThree o).rewritten.exactValue? ≠ some q := by
  rw [exactValue?_twoMinusThree, exactValue?_rewritten_twoMinusThree]
  cases o with
  | add => exact absurd rfl ho
  | sub => exact ⟨2 - -3, rfl, by norm_num [BinOp.exactResult?]⟩
  | mul => exact ⟨2 * -3, rfl, by norm_num [BinOp.exactResult?]⟩
  | div => exact ⟨2 / -3, by simp [BinOp.exactResult?], by simp [BinOp.exactResult?]⟩

end Signed

/-! ## The value of what is written -/

/-- The expression of the calculator is one of the grammar, and has an exact value. -/
def State.Denotes (s : State) (q : ℚ) : Prop :=
  ∃ e, Derives Spelling.exact .sum s.expression e ∧ e.exactValue? = some q

/-- A signed expression that is typed denotes the value of the rewritten tree, and nothing else. -/
theorem denotes_addAll_iff {w : List Char} {e : Signed} (h : Signed.Derives .sum w e) (q : ℚ) :
    (State.initial.addAll w).Denotes q ↔ e.rewritten.exactValue? = some q := by
  have hw := addAll_of_derives h
  constructor
  · rintro ⟨e', he', hq⟩
    rw [hw.unique (Spelling.literals_lawful _) he']
    exact hq
  · exact fun hq => ⟨_, hw, hq⟩

/-- When a typed expression keeps its exact value. For every signed expression, what is written denotes the value of the
rewritten tree, so the value is kept when the two trees agree. And given the operators behind which a minus sign of an
operand may stand, all expressions of that kind keep their values exactly if these operators are none but the plus sign. -/
theorem addAll_value_iff (allowed : BinOp → Prop) :
    (∀ w e, Signed.Derives .sum w e → ∀ q, (State.initial.addAll w).Denotes q ↔ e.rewritten.exactValue? = some q) ∧
    ((∀ w e q, Signed.Derives .sum w e → (∀ o, [o.symbol, '-'] <:+: w → allowed o) → e.exactValue? = some q →
        (State.initial.addAll w).Denotes q) ↔
      ∀ o, allowed o → o = .add) := by
  refine ⟨fun w e h q => denotes_addAll_iff h q, ?_, ?_⟩
  · intro hkeeps o ho
    by_contra hne
    obtain ⟨q, hq, hwritten⟩ := Signed.exists_exactValue?_ne hne
    have hderives := Signed.derives_twoMinusThree o
    have hdenotes := hkeeps _ _ q hderives (fun p hp => Signed.eq_of_infix_twoMinusThree hp ▸ ho) hq
    exact hwritten ((denotes_addAll_iff hderives q).1 hdenotes)
  · intro hplus w e q h hw hq
    refine (denotes_addAll_iff h q).2 ?_
    rw [h.exactValue?_rewritten fun o ho => hplus o (hw o ho), hq]

/-- Two times minus three is minus six; typed, it is written as two times zero minus three, which denotes minus three and not
minus six. -/
theorem addAll_value_counterexample :
    ∃ e, Signed.Derives .sum ['2', '*', '-', '3'] e ∧ e.exactValue? = some (-6) ∧
      (State.initial.addAll ['2', '*', '-', '3']).expression = ['2', '*', '0', '-', '3'] ∧
      (State.initial.addAll ['2', '*', '-', '3']).Denotes (-3) ∧
      ¬(State.initial.addAll ['2', '*', '-', '3']).Denotes (-6) := by
  have hderives : Signed.Derives .sum ['2', '*', '-', '3'] (Signed.twoMinusThree .mul) := Signed.derives_twoMinusThree .mul
  have hvalue : (Signed.twoMinusThree .mul).exactValue? = some (-6) := by
    rw [Signed.exactValue?_twoMinusThree]
    norm_num [BinOp.exactResult?]
  have hwritten : (Signed.twoMinusThree .mul).rewritten.exactValue? = some (-3) := by
    rw [Signed.exactValue?_rewritten_twoMinusThree]
    norm_num [BinOp.exactResult?]
  refine ⟨_, hderives, hvalue, by decide, (denotes_addAll_iff hderives _).2 hwritten, ?_⟩
  rw [denotes_addAll_iff hderives, hwritten]
  norm_num

end Calculator
