import Mathlib
import Calculator.Guard
import Calculator.Proofs.Lexer
import Calculator.Proofs.Scan

/-!
# What the guards let through

Each guard in terms of the text: the substring it looks for, and the balance of the parentheses as counts over the beginnings
of the text. A text of the grammar passes every guard but the one for a literal division by zero
(`Guard.validate_of_derives`), and the tokens of a text with balanced parentheses are never refused for their parentheses
(`Scan.run_of_closesFrom`).
-/

namespace Calculator

/-- Some beginning of a text closes a parenthesis that is not open, or the text does not close all that it opens. -/
def Text.Unbalanced (s : List Char) : Prop :=
  (∃ u, u <+: s ∧ u.count '(' < u.count ')') ∨ s.count '(' ≠ s.count ')'

/-- The characters of expressions. -/
def Text.alphabet : List Char :=
  ['0', '1', '2', '3', '4', '5', '6', '7', '8', '9', '+', '-', '*', '/', '(', ')', '.']

/-- A text that is no expression for its characters: it is empty, or has a character that no expression has. -/
def Text.Foreign (s : List Char) : Prop := s = [] ∨ ∃ c ∈ s, c ∉ Text.alphabet

namespace Guard

/-! ## The guards one by one -/

theorem mem_alphabet_of_isDigit {c : Char} (h : c.isDigit = true) : c ∈ Text.alphabet := by
  have hc : Char.ofNat c.toNat = c := Char.ofNat_toNat c
  simp only [Char.isDigit, Bool.and_eq_true, decide_eq_true_eq, ge_iff_le, UInt32.le_iff_toNat_le] at h
  obtain ⟨hlo, hhi⟩ := h
  rw [← hc]
  change 48 ≤ c.toNat at hlo
  change c.toNat ≤ 57 at hhi
  generalize c.toNat = n at *
  interval_cases n <;> decide

/-- The second guard accepts the characters of the alphabet. -/
theorem isExpressionChar_iff (c : Char) : isExpressionChar c = true ↔ c ∈ Text.alphabet := by
  constructor
  · intro h
    simp only [isExpressionChar, isOperator, Bool.or_eq_true, beq_iff_eq] at h
    rcases h with (((h | h) | rfl) | rfl) | rfl
    · exact mem_alphabet_of_isDigit h
    · obtain ⟨o, ho⟩ := Option.isSome_iff_exists.1 h
      rw [BinOp.eq_symbol_of_ofChar? ho]
      cases o <;> decide
    · decide
    · decide
    · decide
  · have hall : Text.alphabet.all isExpressionChar = true := by decide
    exact List.all_eq_true.1 hall c

/-- The first guard looks for the characters `/0` in a row. -/
theorem hasZeroDivisor_iff (s : List Char) : hasZeroDivisor s = true ↔ ['/', '0'] <:+: s := by
  induction s with
  | nil => simp [hasZeroDivisor]
  | cons c s ih =>
    have hhead : (c == '/' && s.head? == some '0') = true ↔ ['/', '0'] <+: c :: s := by
      cases s with
      | nil => simp
      | cons a s =>
        simp only [List.head?_cons, Bool.and_eq_true, beq_iff_eq, Option.some.injEq, List.cons_prefix_cons, List.nil_prefix,
          and_true]
        exact ⟨fun h => ⟨h.1.symm, h.2.symm⟩, fun h => ⟨h.1.symm, h.2.symm⟩⟩
    rw [hasZeroDivisor, Bool.or_eq_true, hhead, ih, List.infix_cons_iff]

/-- The parentheses that a text opens less those that it closes. -/
def balance (s : List Char) : Int := (s.count '(' : Int) - s.count ')'

theorem balance_cons (c : Char) (s : List Char) : balance (c :: s) = weight c + balance s := by
  unfold balance weight
  split
  · subst c
    simp
    omega
  · split
    · subst c
      simp
      omega
    · rename_i h1 h2
      rw [List.count_cons_of_ne h1, List.count_cons_of_ne h2, zero_add]

/-- With `d` parentheses open, a text closes them all when no beginning of it closes more than are open and the whole of it
leaves none open. -/
theorem closesFrom_iff (s : List Char) {d : Int} (hd : 0 ≤ d) :
    closesFrom d s = true ↔ (∀ u, u <+: s → 0 ≤ d + balance u) ∧ d + balance s = 0 := by
  induction s generalizing d with
  | nil =>
    rw [closesFrom, beq_iff_eq]
    constructor
    · rintro rfl
      exact ⟨fun u hu => by rw [List.prefix_nil.1 hu]; decide, rfl⟩
    · intro h
      simpa [balance] using h.2
  | cons c s ih =>
    rw [closesFrom, Bool.and_eq_true, decide_eq_true_eq, balance_cons, ← Int.add_assoc]
    constructor
    · rintro ⟨hc, hs⟩
      obtain ⟨hpre, hsum⟩ := (ih hc).1 hs
      refine ⟨fun u hu => ?_, hsum⟩
      rcases List.prefix_cons_iff.1 hu with rfl | ⟨v, rfl, hv⟩
      · simpa [balance] using hd
      · rw [balance_cons, ← Int.add_assoc]
        exact hpre v hv
    · rintro ⟨hpre, hsum⟩
      have hc : 0 ≤ d + weight c := by
        have h := hpre [c] (by simp [List.cons_prefix_cons])
        rwa [balance_cons, ← Int.add_assoc, show balance [] = 0 from rfl, Int.add_zero] at h
      refine ⟨hc, (ih hc).2 ⟨fun v hv => ?_, hsum⟩⟩
      have h := hpre (c :: v) (List.cons_prefix_cons.2 ⟨rfl, hv⟩)
      rwa [balance_cons, ← Int.add_assoc] at h

/-- The guard of the parentheses counts them. -/
theorem closesFrom_zero_eq_false_iff (s : List Char) : closesFrom 0 s = false ↔ Text.Unbalanced s := by
  rw [← Bool.not_eq_true, closesFrom_iff s (Int.le_refl 0)]
  unfold Text.Unbalanced balance
  constructor
  · intro h
    by_cases htotal : s.count '(' = s.count ')'
    · left
      by_contra hno
      refine h ⟨fun u hu => ?_, by omega⟩
      have hle : ¬u.count '(' < u.count ')' := fun hlt => hno ⟨u, hu, hlt⟩
      omega
    · exact Or.inr htotal
  · rintro (⟨u, hu, hlt⟩ | hne) ⟨hpre, hsum⟩
    · have h := hpre u hu
      omega
    · omega

/-! ## Texts of the grammar -/

variable {ν : Type} {f : List Char → ν} {l : Level} {w : List Char} {e : Expr ν}

theorem weight_symbol (o : BinOp) : weight o.symbol = 0 := by
  cases o <;> rfl

theorem weight_of_isNumeral {c : Char} (h : Literal.isNumeral c = true) : weight c = 0 := by
  have hm := Literal.not_mark_of_isNumeral Literal.value h
  have hl : c ≠ '(' := fun hc => hm (Or.inl hc)
  have hr : c ≠ ')' := fun hc => hm (Or.inr (Or.inl hc))
  unfold weight
  rw [if_neg hl, if_neg hr]

theorem isExpressionChar_symbol (o : BinOp) : isExpressionChar o.symbol = true := by
  cases o <;> decide

theorem isExpressionChar_of_isNumeral {c : Char} (h : Literal.isNumeral c = true) : isExpressionChar c = true := by
  unfold Literal.isNumeral at h
  unfold isExpressionChar
  rcases Bool.or_eq_true_iff.1 h with h | h <;> simp [h]

/-- A character without weight does not change how many parentheses are open. -/
theorem closesFrom_cons_of_weight {c : Char} (hc : weight c = 0) {d : Int} (hd : 0 ≤ d) (s : List Char) :
    closesFrom d (c :: s) = closesFrom d s := by
  rw [closesFrom, hc, Int.add_zero, decide_eq_true hd, Bool.true_and]

theorem closesFrom_literal_append {v : List Char} (hv : Literal.isLiteral v = true) {d : Int} (hd : 0 ≤ d)
    (s : List Char) : closesFrom d (v ++ s) = closesFrom d s := by
  have hall := Literal.all_isNumeral hv
  clear hv
  induction v with
  | nil => rfl
  | cons c v ih =>
    rw [List.cons_append, closesFrom_cons_of_weight (weight_of_isNumeral (hall c List.mem_cons_self)) hd]
    exact ih fun a ha => hall a (List.mem_cons_of_mem c ha)

theorem closesFrom_lparen {d : Int} (hd : 0 ≤ d) (s : List Char) : closesFrom d ('(' :: s) = closesFrom (d + 1) s := by
  have h : (0 : Int) ≤ d + weight '(' := Int.le_trans hd (Int.le_add_of_nonneg_right (by decide))
  rw [closesFrom, decide_eq_true h, Bool.true_and]
  rfl

theorem closesFrom_rparen {d : Int} (hd : 0 ≤ d) (s : List Char) :
    closesFrom (d + 1) (')' :: s) = closesFrom d s := by
  have h : d + 1 + weight ')' = d := Int.add_neg_cancel_right d 1
  rw [closesFrom, h, decide_eq_true hd, Bool.true_and]

theorem closesFrom_zero_rparen (s : List Char) : closesFrom 0 (')' :: s) = false := rfl

/-- A word of the grammar closes all the parentheses that it opens and no other ones. -/
theorem closesFrom_append_of_derives (h : Derives (Spelling.literals f) l w e) :
    ∀ d : Int, 0 ≤ d → ∀ s, closesFrom d (w ++ s) = closesFrom d s := by
  refine h.word_induction ?_ ?_ ?_
  · intro w x hw d hd s
    exact closesFrom_literal_append hw.1 hd s
  · intro w e _ ih d hd s
    change closesFrom d ('(' :: (w ++ [')'] ++ s)) = _
    rw [closesFrom_lparen hd, List.append_assoc, ih _ (Int.le_add_one hd), List.singleton_append, closesFrom_rparen hd]
  · intro v w _ _ o ihv ihw d hd s
    change closesFrom d (v ++ o.symbol :: w ++ s) = _
    rw [List.append_assoc, ihv d hd, List.cons_append, closesFrom_cons_of_weight (weight_symbol o) hd, ihw d hd]

theorem all_isExpressionChar_of_derives (h : Derives (Spelling.literals f) l w e) : ∀ c ∈ w, isExpressionChar c = true := by
  refine h.word_induction ?_ ?_ ?_
  · intro w x hw c hc
    exact isExpressionChar_of_isNumeral (Literal.all_isNumeral hw.1 c hc)
  · intro w e _ ih c hc
    rcases List.mem_cons.1 hc with rfl | hc
    · exact (by decide : isExpressionChar '(' = true)
    · rcases List.mem_append.1 hc with hc | hc
      · exact ih c hc
      · rw [List.mem_singleton.1 hc]
        exact (by decide : isExpressionChar ')' = true)
  · intro v w _ _ o ihv ihw c hc
    rcases List.mem_append.1 hc with hc | hc
    · exact ihv c hc
    · rcases List.mem_cons.1 hc with rfl | hc
      · exact isExpressionChar_symbol o
      · exact ihw c hc

/-- A word of the grammar begins with a character of a literal or an open parenthesis. -/
theorem exists_cons_of_derives (h : Derives (Spelling.literals f) l w e) :
    ∃ c s, w = c :: s ∧ (Literal.isNumeral c = true ∨ c = '(') := by
  induction h with
  | @number w x hw =>
    obtain ⟨c, s, rfl⟩ := List.exists_cons_of_ne_nil (Literal.ne_nil hw.1)
    exact ⟨c, s, rfl, Or.inl (Literal.all_isNumeral hw.1 c List.mem_cons_self)⟩
  | paren => exact ⟨'(', _, rfl, Or.inr rfl⟩
  | factor _ ih => exact ih
  | product _ _ _ ihv _ =>
    obtain ⟨c, s, rfl, hc⟩ := ihv
    exact ⟨c, _, List.cons_append, hc⟩
  | term _ ih => exact ih
  | sum _ _ _ ihv _ =>
    obtain ⟨c, s, rfl, hc⟩ := ihv
    exact ⟨c, _, List.cons_append, hc⟩

/-- A text whose first two characters are not an empty pair of parentheses passes the last guard. -/
theorem opensEmpty_eq_false {c a : Char} (h : c ≠ '(' ∨ a ≠ ')') (s : List Char) : opensEmpty (c :: a :: s) = false := by
  unfold opensEmpty
  split
  · simp_all
  · simp_all
  · rfl

/-- No word of the grammar begins with an empty pair of parentheses, whatever comes after it. -/
theorem opensEmpty_of_derives (h : Derives (Spelling.literals f) l w e) : ∀ s, opensEmpty (w ++ s) = false := by
  induction h with
  | @number w x hw =>
    intro s
    obtain ⟨c, v, rfl⟩ := List.exists_cons_of_ne_nil (Literal.ne_nil hw.1)
    have hc : c ≠ '(' := by
      rintro rfl
      exact absurd (Literal.all_isNumeral hw.1 '(' List.mem_cons_self) (by decide)
    rw [List.cons_append]
    cases hvs : v ++ s with
    | nil => simp [opensEmpty]
    | cons a r => exact opensEmpty_eq_false (Or.inl hc) r
  | @paren w e hw ih =>
    intro s
    obtain ⟨c, v, rfl, hc⟩ := exists_cons_of_derives hw
    have hr : c ≠ ')' := by
      rintro rfl
      revert hc
      decide
    exact opensEmpty_eq_false (Or.inr hr) _
  | factor _ ih => exact ih
  | product _ _ _ ihv _ => intro s; rw [List.append_assoc]; exact ihv _
  | term _ ih => exact ih
  | sum _ _ _ ihv _ => intro s; rw [List.append_assoc]; exact ihv _

/-- A text of the grammar passes all guards, unless it contains a literal division by zero. -/
theorem validate_of_derives (h : Derives (Spelling.literals f) l w e) (hz : hasZeroDivisor w = false) :
    validate w = .ok () := by
  obtain ⟨c, s, rfl, -⟩ := exists_cons_of_derives h
  have hall : (c :: s).all isExpressionChar = true := List.all_eq_true.2 (all_isExpressionChar_of_derives h)
  have hclose : closesFrom 0 (c :: s) = true := by
    have hc := closesFrom_append_of_derives h 0 (Int.le_refl 0) []
    rwa [List.append_nil] at hc
  have hempty : opensEmpty (c :: s) = false := by
    have ho := opensEmpty_of_derives h []
    rwa [List.append_nil] at ho
  simp [validate, hz, hall, hclose, hempty]

end Guard

/-! ## Balanced parentheses and the scan -/

/-- The tokens of a text that closes `d` parentheses are not refused for their parentheses: what refuses them, if anything,
is a token in a wrong place, and the end comes with no parenthesis open. -/
theorem Scan.run_of_closesFrom {ws : List (List Char)} {ts : List Token} (h : Lexemes ws ts) :
    ∀ {d : Nat} (expect : Bool), Guard.closesFrom d ws.flatten = true →
      Scan.run ts ⟨expect, d⟩ = .error .malformed ∨ ∃ expect', Scan.run ts ⟨expect, d⟩ = .ok ⟨expect', 0⟩ := by
  induction h with
  | nil =>
    intro d expect hc
    have hd : d = 0 := by simpa [Guard.closesFrom] using hc
    exact Or.inr ⟨expect, by rw [hd]; rfl⟩
  | @cons w t ws ts hw _ _ ih =>
    intro d expect hc
    rw [List.flatten_cons] at hc
    cases hw with
    | literal hw =>
      rw [Guard.closesFrom_literal_append hw (Int.natCast_nonneg d)] at hc
      cases expect with
      | true => exact ih false hc
      | false => exact Or.inl rfl
    | op o =>
      rw [List.singleton_append, Guard.closesFrom_cons_of_weight (Guard.weight_symbol o) (Int.natCast_nonneg d)] at hc
      cases expect with
      | true => exact Or.inl rfl
      | false => exact ih true hc
    | lparen =>
      rw [List.singleton_append, Guard.closesFrom_lparen (Int.natCast_nonneg d), ← Nat.cast_succ] at hc
      cases expect with
      | true => exact ih true hc
      | false => exact Or.inl rfl
    | rparen =>
      cases expect with
      | true => exact Or.inl rfl
      | false =>
        cases d with
        | zero =>
          rw [List.singleton_append, Nat.cast_zero, Guard.closesFrom_zero_rparen] at hc
          cases hc
        | succ d =>
          rw [List.singleton_append, Nat.cast_succ, Guard.closesFrom_rparen (Int.natCast_nonneg d)] at hc
          exact ih false hc

end Calculator
