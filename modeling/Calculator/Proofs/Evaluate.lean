import Mathlib
import Calculator.Evaluate
import Calculator.Proofs.Guard
import Calculator.Proofs.Postfix
import Calculator.Proofs.Rounding

/-!
# Evaluation and the grammar

What the evaluation of a text gives, in terms of the text without its blanks and of nothing inside the evaluator: the text
shown for a value, when there is one (`evaluate_eq_ok_iff`), and otherwise which error (`evaluate_eq_error_iff`). A text that
passes the guards is displayed by the value of its tree when it has one, and is malformed when it has none.
-/

namespace Calculator

open Text

namespace Guard

/-! ## The first guard that fails -/

theorem validate_of_zeroDivisor {s : List Char} (h : ['/', '0'] <:+: s) : validate s = .error .zeroDivisor := by
  rw [validate, if_pos ((hasZeroDivisor_iff s).2 h)]

/-- The characters are looked at after the literal divisions by zero. -/
theorem validate_of_foreign {s : List Char} (hz : ¬['/', '0'] <:+: s) (h : Foreign s) : validate s = .error .malformed := by
  have hc : (s.isEmpty || !s.all isExpressionChar) = true := by
    rcases h with rfl | ⟨c, hc, hbad⟩
    · rfl
    · have hall : s.all isExpressionChar = false :=
        List.all_eq_false.2 ⟨c, hc, fun hchar => hbad ((isExpressionChar_iff c).1 hchar)⟩
      rw [hall, Bool.not_false, Bool.or_true]
  rw [validate, if_neg (fun hd => hz ((hasZeroDivisor_iff s).1 hd)), if_pos hc]

theorem chars_of_not_foreign {s : List Char} (h : ¬Foreign s) : (s.isEmpty || !s.all isExpressionChar) = false := by
  have hne : s ≠ [] := fun h0 => h (Or.inl h0)
  have hall : s.all isExpressionChar = true := by
    refine List.all_eq_true.2 fun c hc => ?_
    by_contra hbad
    exact h (Or.inr ⟨c, hc, fun hmem => hbad ((isExpressionChar_iff c).2 hmem)⟩)
  rw [hall, Bool.not_true, Bool.or_false]
  exact List.isEmpty_eq_false_iff.2 hne

/-- The parentheses are counted after the characters were looked at. -/
theorem validate_of_unbalanced {s : List Char} (hz : ¬['/', '0'] <:+: s) (hf : ¬Foreign s) (h : Unbalanced s) :
    validate s = .error .unbalanced := by
  rw [validate, if_neg (fun hd => hz ((hasZeroDivisor_iff s).1 hd)), if_neg (by rw [chars_of_not_foreign hf]; decide),
    if_pos (by rw [(closesFrom_zero_eq_false_iff s).2 h]; rfl)]

/-- What passes the first three guards is at worst refused for an empty pair of parentheses in front. -/
theorem validate_of_balanced {s : List Char} (hz : ¬['/', '0'] <:+: s) (hf : ¬Foreign s) (hb : ¬Unbalanced s) :
    validate s = .error .malformed ∨ validate s = .ok () := by
  have hc : closesFrom 0 s = true := by
    rw [← Bool.not_eq_false, closesFrom_zero_eq_false_iff]
    exact hb
  rw [validate, if_neg (fun hd => hz ((hasZeroDivisor_iff s).1 hd)), if_neg (by rw [chars_of_not_foreign hf]; decide),
    if_neg (by rw [hc]; decide)]
  split
  · exact Or.inl rfl
  · exact Or.inr rfl

/-- The parentheses of a text that passes the guards are balanced. -/
theorem closesFrom_of_validate {s : List Char} (h : validate s = .ok ()) : closesFrom 0 s = true := by
  by_contra hc
  rw [Bool.not_eq_true] at hc
  rw [validate] at h
  split at h
  · cases h
  · split at h
    · cases h
    · rw [if_pos (by rw [hc]; rfl)] at h
      cases h

end Guard

/-- A text of the grammar has the characters of expressions, and its parentheses are balanced. -/
theorem not_foreign_of_derives {p : List Char} {e : Expr ℚ} (h : Derives Spelling.exact .sum p e) : ¬Foreign p := by
  rintro (rfl | ⟨c, hc, hbad⟩)
  · obtain ⟨c, s, hs, -⟩ := Guard.exists_cons_of_derives h
    cases hs
  · exact hbad ((Guard.isExpressionChar_iff c).1 (Guard.all_isExpressionChar_of_derives h c hc))

theorem not_unbalanced_of_derives {p : List Char} {e : Expr ℚ} (h : Derives Spelling.exact .sum p e) : ¬Unbalanced p := by
  have hc := Guard.closesFrom_append_of_derives h 0 (Int.le_refl 0) []
  rw [List.append_nil] at hc
  rw [← Guard.closesFrom_zero_eq_false_iff, hc]
  decide

/-! ## The stages after the guards -/

/-- The tokens of a text with balanced parentheses are converted, or they are malformed: the conversion finds no parenthesis
that the guards have not found. -/
theorem toPostfix_of_closesFrom {p : List Char} {ts : List Token} (hc : Guard.closesFrom 0 p = true)
    (ht : tokenize p = .ok ts) : toPostfix ts = .error .malformed ∨ ∃ r, toPostfix ts = .ok r := by
  obtain ⟨ws, hws, rfl⟩ := lexemes_of_tokenize p ht
  have hscan := toPostfix_scan ts
  have hout : Scan.outcome ts = .error .malformed ∨ Scan.outcome ts = .ok () := by
    unfold Scan.outcome
    rcases Scan.run_of_closesFrom (d := 0) hws true hc with hr | ⟨expect, hr⟩
    · rw [Scan.start, hr]
      exact Or.inl rfl
    · rw [Scan.start, hr]
      cases expect with
      | true => exact Or.inl rfl
      | false => exact Or.inr rfl
  rw [← hscan] at hout
  cases hp : toPostfix ts with
  | ok r => exact Or.inr ⟨r, rfl⟩
  | error e =>
    rw [hp] at hout
    rcases hout with h | h
    · exact Or.inl (congrArg Except.error (Except.error.inj h))
    · cases h

/-- What is converted is evaluated: the stack never lacks an operand and never keeps one. -/
theorem evalPostfix_of_toPostfix {p : List Char} {ts r : List Token} (ht : tokenize p = .ok ts) (hr : toPostfix ts = .ok r) :
    ∃ e, Derives Spelling.exact .sum p e ∧ evalPostfix r = .ok e.rounded := by
  obtain ⟨e, he, rfl⟩ := exists_derives_of_toPostfix hr
  obtain ⟨e', he', hv⟩ := (derives_text_iff.2 ⟨ts, ht, he⟩).exists_exact
  exact ⟨e', he', by rw [Expr.evalPostfix_toPostfix, hv]⟩

/-! ## Evaluation as a whole -/

theorem evaluate_of_validate_error {s : List Char} {x : EvalError} (h : Guard.validate (stripBlanks s) = .error x) :
    evaluate s = .error x := by
  unfold evaluate
  simp only [h]
  rfl

/-- The stages of a text that passes the guards. -/
theorem evaluate_of_validate {s : List Char} (h : Guard.validate (stripBlanks s) = .ok ()) :
    evaluate s = tokenize (stripBlanks s) >>= fun ts => toPostfix ts >>= fun r => evalPostfix r >>= Binary64.display := by
  unfold evaluate
  simp only [h]
  rfl

theorem ok_bind {ε α β : Type} (a : α) (f : α → Except ε β) : (Except.ok a >>= f) = f a := rfl

/-- A text of the grammar is displayed by its value. -/
theorem evaluate_of_derives {s : List Char} {e : Expr ℚ} (hz : ¬['/', '0'] <:+: stripBlanks s)
    (h : Derives Spelling.exact .sum (stripBlanks s) e) : evaluate s = e.rounded.display := by
  have hd : Guard.hasZeroDivisor (stripBlanks s) = false := by
    rw [← Bool.not_eq_true, Guard.hasZeroDivisor_iff]
    exact hz
  obtain ⟨ts, ht, hts⟩ := derives_text_iff.1 h.text_of_exact
  rw [evaluate_of_validate (Guard.validate_of_derives h hd), ht, ok_bind, toPostfix_of_derives hts, ok_bind,
    Expr.evalPostfix_toPostfix, ok_bind]
  rfl

theorem Text.stripBlanks_append (s t : List Char) : stripBlanks (s ++ t) = stripBlanks s ++ stripBlanks t :=
  List.filter_append s t

/-- The characters of the grammar are no blanks. -/
theorem stripBlanks_of_derives {l : Level} {p : List Char} {e : Expr ℚ} (h : Derives Spelling.exact l p e) :
    stripBlanks p = p := by
  have hblank : (alphabet.all fun c => !isBlank c) = true := by decide
  refine List.filter_eq_self.2 fun c hc => ?_
  exact List.all_eq_true.1 hblank c ((Guard.isExpressionChar_iff c).1 (Guard.all_isExpressionChar_of_derives h c hc))

/-- So a text of the grammar itself is displayed by its value, if nothing is divided in it. -/
theorem evaluate_of_derives_self {p : List Char} {e : Expr ℚ} (hslash : '/' ∉ p) (h : Derives Spelling.exact .sum p e) :
    evaluate p = e.rounded.display := by
  have hstrip := stripBlanks_of_derives h
  refine evaluate_of_derives ?_ (by rwa [hstrip])
  rw [hstrip]
  exact fun hz => hslash (hz.subset (by simp))

/-- A text that passes the guards and is not of the grammar is malformed. -/
theorem evaluate_of_not_derives {s : List Char} (hv : Guard.validate (stripBlanks s) = .ok ())
    (h : ¬∃ e, Derives Spelling.exact .sum (stripBlanks s) e) : evaluate s = .error .malformed := by
  rw [evaluate_of_validate hv]
  cases ht : tokenize (stripBlanks s) with
  | error x =>
    rw [tokenize_error _ ht]
    rfl
  | ok ts =>
    rw [ok_bind]
    rcases toPostfix_of_closesFrom (Guard.closesFrom_of_validate hv) ht with hp | ⟨r, hr⟩
    · rw [hp]
      rfl
    · obtain ⟨e, he, -⟩ := evalPostfix_of_toPostfix ht hr
      exact absurd ⟨e, he⟩ h

/-- A finite double is displayed by the text of its ten decimals. -/
theorem display_eq {x : Binary64} (h : x.isFinite = true) : x.display = .ok x.rounded.text := by
  unfold Binary64.display
  rw [if_pos h]

theorem display_of_isFinite {x : Binary64} (h : x.isFinite = true) : ∃ t, x.display = .ok t := ⟨_, display_eq h⟩

theorem display_of_not_isFinite {x : Binary64} (h : x.isFinite = false) : x.display = .error .notFinite := by
  unfold Binary64.display
  rw [if_neg (by rw [h]; decide)]

theorem isFinite_of_display {x : Binary64} {t : List Char} (h : x.display = .ok t) : x.isFinite = true := by
  cases hfin : x.isFinite with
  | true => rfl
  | false =>
    rw [display_of_not_isFinite hfin] at h
    cases h

/-- The five outcomes, in the order in which they are looked for. -/
theorem evaluate_outcome (s : List Char) :
    (['/', '0'] <:+: stripBlanks s ∧ evaluate s = .error .zeroDivisor) ∨
    (¬['/', '0'] <:+: stripBlanks s ∧ Foreign (stripBlanks s) ∧ evaluate s = .error .malformed) ∨
    (¬['/', '0'] <:+: stripBlanks s ∧ ¬Foreign (stripBlanks s) ∧ Unbalanced (stripBlanks s) ∧
      evaluate s = .error .unbalanced) ∨
    (¬['/', '0'] <:+: stripBlanks s ∧ ¬Foreign (stripBlanks s) ∧ ¬Unbalanced (stripBlanks s) ∧
      (¬∃ e, Derives Spelling.exact .sum (stripBlanks s) e) ∧ evaluate s = .error .malformed) ∨
    (¬['/', '0'] <:+: stripBlanks s ∧ ¬Foreign (stripBlanks s) ∧ ¬Unbalanced (stripBlanks s) ∧
      ∃ e, Derives Spelling.exact .sum (stripBlanks s) e ∧ evaluate s = e.rounded.display) := by
  by_cases hz : ['/', '0'] <:+: stripBlanks s
  · exact Or.inl ⟨hz, evaluate_of_validate_error (Guard.validate_of_zeroDivisor hz)⟩
  right
  by_cases hf : Foreign (stripBlanks s)
  · exact Or.inl ⟨hz, hf, evaluate_of_validate_error (Guard.validate_of_foreign hz hf)⟩
  right
  by_cases hb : Unbalanced (stripBlanks s)
  · exact Or.inl ⟨hz, hf, hb, evaluate_of_validate_error (Guard.validate_of_unbalanced hz hf hb)⟩
  right
  by_cases hd : ∃ e, Derives Spelling.exact .sum (stripBlanks s) e
  · obtain ⟨e, he⟩ := hd
    exact Or.inr ⟨hz, hf, hb, e, he, evaluate_of_derives hz he⟩
  · refine Or.inl ⟨hz, hf, hb, hd, ?_⟩
    rcases Guard.validate_of_balanced hz hf hb with hv | hv
    · exact evaluate_of_validate_error hv
    · exact evaluate_of_not_derives hv hd

/-- The values of a text of the grammar are the one value of its one tree. -/
theorem exists_rounds_iff {p : List Char} {e : Expr ℚ} (he : Derives Spelling.exact .sum p e) (P : Binary64 → Prop) :
    (∃ e' x, Derives Spelling.exact .sum p e' ∧ e'.Rounds x ∧ P x) ↔ P e.rounded := by
  constructor
  · rintro ⟨e', x, he', hx, hP⟩
    rw [he.unique (Spelling.literals_lawful _) he']
    rwa [(e'.rounds_iff x).1 hx] at hP
  · exact fun hP => ⟨e, e.rounded, he, (e.rounds_iff _).2 rfl, hP⟩

/-- Evaluation succeeds on the texts of the grammar that contain no literal division by zero and have a finite value, and
shows that value. A text has only one tree, and a tree has only one value: the literals and the results of all operations are
rounded correctly, from the leaves up. -/
theorem evaluate_eq_ok_iff (s t : List Char) :
    (evaluate s = .ok t ↔
      ¬['/', '0'] <:+: stripBlanks s ∧
        ∃ e x, Derives Spelling.exact .sum (stripBlanks s) e ∧ e.Rounds x ∧ x.isFinite = true ∧ x.display = .ok t) ∧
      {e | Derives Spelling.exact .sum (stripBlanks s) e}.Subsingleton ∧ ∀ e : Expr ℚ, ∃! x, e.Rounds x := by
  refine ⟨⟨fun h => ?_, ?_⟩, Derives.subsingleton (Spelling.literals_lawful _) _ _, fun e => ?_⟩
  · rcases evaluate_outcome s with ⟨-, hev⟩ | ⟨-, -, hev⟩ | ⟨-, -, -, hev⟩ | ⟨-, -, -, -, hev⟩ | ⟨hz, -, -, e, he, hev⟩
    · rw [hev] at h
      cases h
    · rw [hev] at h
      cases h
    · rw [hev] at h
      cases h
    · rw [hev] at h
      cases h
    · rw [hev] at h
      refine ⟨hz, e, e.rounded, he, (e.rounds_iff _).2 rfl, ?_, h⟩
      by_contra hfin
      rw [display_of_not_isFinite (Bool.eq_false_iff.2 hfin)] at h
      cases h
  · rintro ⟨hz, e, x, he, hx, -, hd⟩
    rw [evaluate_of_derives hz he, ← (e.rounds_iff x).1 hx, hd]
  · exact ⟨e.rounded, (e.rounds_iff _).2 rfl, fun x hx => (e.rounds_iff x).1 hx⟩

/-- After the guards the conversion finds no fault with the parentheses. -/
theorem toPostfix_ne_unbalanced (p : List Char) :
    ¬∃ ts, Guard.validate p = .ok () ∧ tokenize p = .ok ts ∧ toPostfix ts = .error .unbalanced := by
  rintro ⟨ts, hv, ht, hp⟩
  rcases toPostfix_of_closesFrom (Guard.closesFrom_of_validate hv) ht with h | ⟨r, h⟩
  · rw [h] at hp
    cases hp
  · rw [h] at hp
    cases hp

/-- The stack machine has no fault on what the conversion gives. -/
theorem evalPostfix_ne_error (p : List Char) :
    ¬∃ ts r x, tokenize p = .ok ts ∧ toPostfix ts = .ok r ∧ evalPostfix r = .error x := by
  rintro ⟨ts, r, x, ht, hr, hx⟩
  obtain ⟨e, -, hv⟩ := evalPostfix_of_toPostfix ht hr
  rw [hv] at hx
  cases hx

/-- Which error an evaluation gives. The literal division by zero comes first, then the characters, the parentheses, the
grammar and the size of the value. The stack machine never fails, and the parentheses are never refused after the guards. -/
theorem evaluate_eq_error_iff (s : List Char) :
    (evaluate s = .error .zeroDivisor ↔ ['/', '0'] <:+: stripBlanks s) ∧
    (evaluate s = .error .unbalanced ↔
      ¬['/', '0'] <:+: stripBlanks s ∧ ¬Foreign (stripBlanks s) ∧ Unbalanced (stripBlanks s)) ∧
    (evaluate s = .error .malformed ↔
      ¬['/', '0'] <:+: stripBlanks s ∧
        (Foreign (stripBlanks s) ∨
          ¬Unbalanced (stripBlanks s) ∧ ¬∃ e, Derives Spelling.exact .sum (stripBlanks s) e)) ∧
    (evaluate s = .error .notFinite ↔
      ¬['/', '0'] <:+: stripBlanks s ∧
        ∃ e x, Derives Spelling.exact .sum (stripBlanks s) e ∧ e.Rounds x ∧ x.isFinite = false) ∧
    evaluate s ≠ .error .stackFault ∧
    (¬∃ ts, Guard.validate (stripBlanks s) = .ok () ∧ tokenize (stripBlanks s) = .ok ts ∧
      toPostfix ts = .error .unbalanced) ∧
    ¬∃ ts r x, tokenize (stripBlanks s) = .ok ts ∧ toPostfix ts = .ok r ∧ evalPostfix r = .error x := by
  have hparens := toPostfix_ne_unbalanced (stripBlanks s)
  have hstack := evalPostfix_ne_error (stripBlanks s)
  rcases evaluate_outcome s with ⟨hz, hev⟩ | ⟨hz, hf, hev⟩ | ⟨hz, hf, hb, hev⟩ | ⟨hz, hf, hb, hd, hev⟩ |
    ⟨hz, hf, hb, e, he, hev⟩
  · refine ⟨?_, ?_, ?_, ?_, ?_, hparens, hstack⟩ <;> simp [hev, hz]
  · have hd : ¬∃ e x, Derives Spelling.exact .sum (stripBlanks s) e ∧ e.Rounds x ∧ x.isFinite = false :=
      fun ⟨_, _, he, _⟩ => not_foreign_of_derives he hf
    refine ⟨?_, ?_, ?_, ?_, ?_, hparens, hstack⟩ <;> simp only [hev, hz, hf, hd] <;> simp
  · have hd : ¬∃ e x, Derives Spelling.exact .sum (stripBlanks s) e ∧ e.Rounds x ∧ x.isFinite = false :=
      fun ⟨_, _, he, _⟩ => not_unbalanced_of_derives he hb
    refine ⟨?_, ?_, ?_, ?_, ?_, hparens, hstack⟩ <;> simp only [hev, hz, hf, hb, hd] <;> simp
  · have hd' : ¬∃ e x, Derives Spelling.exact .sum (stripBlanks s) e ∧ e.Rounds x ∧ x.isFinite = false :=
      fun ⟨e, _, he, _⟩ => hd ⟨e, he⟩
    refine ⟨?_, ?_, ?_, ?_, ?_, hparens, hstack⟩ <;> simp only [hev, hz, hf, hb, hd, hd'] <;> simp
  · have hd : ∃ e, Derives Spelling.exact .sum (stripBlanks s) e := ⟨e, he⟩
    have hvalue := exists_rounds_iff he (·.isFinite = false)
    cases hfin : e.rounded.isFinite with
    | true =>
      obtain ⟨t, ht⟩ := display_of_isFinite hfin
      refine ⟨?_, ?_, ?_, ?_, ?_, hparens, hstack⟩ <;>
        simp only [hev, ht, hz, hf, hb, hd, hvalue, hfin] <;> simp
    | false =>
      refine ⟨?_, ?_, ?_, ?_, ?_, hparens, hstack⟩ <;>
        simp only [hev, display_of_not_isFinite hfin, hz, hf, hb, hd, hvalue, hfin] <;> simp

end Calculator
