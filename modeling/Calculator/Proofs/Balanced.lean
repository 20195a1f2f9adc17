import Mathlib
import Calculator.Guard.Word
import Calculator.Proofs.Guard
import Calculator.Text.Balanced

/-!
# Balanced words and the count of open parentheses

The check of the parentheses accepts a text exactly if its parentheses, in their order, are a word of the grammar of matching
parentheses (`checkParens_iff_balanced`). From the grammar to the count, a balanced word changes no count
(`closesFrom_append_of_balanced`). From the count to the grammar, what closes `d` parentheses is `d + 1` balanced words with a
closing parenthesis after each of them but the last (`Closes`), and each character in front keeps this form. A count never
exceeds the number of characters that were read, so a word of 64 bits holds it (`checkWord?_eq`).
-/

namespace Calculator

namespace Text

/-! ## What closes some parentheses -/

/-- Balanced words, each but the last with a closing parenthesis after it. There are `d` of these parentheses. -/
inductive Closes : ℕ → List Char → Prop where
  | last {u : List Char} : Balanced u → Closes 0 u
  | next {d : ℕ} {u v : List Char} : Balanced u → Closes d v → Closes (d + 1) (u ++ ')' :: v)

/-- A parenthesis opened in front is closed by the first of them. -/
theorem Closes.lparen {d : ℕ} {w : List Char} (h : Closes (d + 1) w) : Closes d ('(' :: w) := by
  cases h with
  | @next _ u v hu hv =>
    cases hv with
    | last hv => exact .last (.wrap hu hv)
    | @next d u' v hu' hv =>
      have heq : '(' :: (u ++ ')' :: (u' ++ ')' :: v)) = '(' :: (u ++ ')' :: u') ++ ')' :: v := by simp
      rw [heq]
      exact .next (.wrap hu hu') hv

/-- One closed in front has an empty word before it. -/
theorem Closes.rparen {d : ℕ} {w : List Char} (h : Closes d w) : Closes (d + 1) (')' :: w) := .next .nil h

/-! ## The parentheses of a text -/

theorem parens_lparen (s : List Char) : parens ('(' :: s) = '(' :: parens s := rfl

theorem parens_rparen (s : List Char) : parens (')' :: s) = ')' :: parens s := rfl

theorem parens_append (s t : List Char) : parens (s ++ t) = parens s ++ parens t := List.filter_append s t

/-- A text is empty, or begins with a parenthesis or with a character that the check passes over. -/
@[elab_as_elim]
theorem parens_induction {motive : List Char → Prop} (nil : motive [])
    (lparen : ∀ s, motive s → motive ('(' :: s)) (rparen : ∀ s, motive s → motive (')' :: s))
    (other : ∀ c s, Guard.weight c = 0 → parens (c :: s) = parens s → motive s → motive (c :: s)) (s : List Char) :
    motive s := by
  induction s with
  | nil => exact nil
  | cons c s ih =>
    by_cases hl : c = '('
    · rw [hl]
      exact lparen s ih
    · by_cases hr : c = ')'
      · rw [hr]
        exact rparen s ih
      · refine other c s (by rw [Guard.weight, if_neg hl, if_neg hr]) ?_ ih
        rw [parens, List.filter_cons_of_neg (by simp [hl, hr]), parens]

end Text

namespace Guard

open Text

/-! ## From the count to the grammar -/

/-- What closes `d` parentheses has `d` closing parentheses that are not opened in it, with balanced words around them. -/
theorem closes_of_closesFrom (s : List Char) : ∀ d : ℕ, closesFrom d s = true → Closes d (parens s) := by
  induction s using parens_induction with
  | nil =>
    intro d h
    obtain rfl : d = 0 := by simpa [closesFrom] using h
    exact .last .nil
  | lparen s ih =>
    intro d h
    rw [closesFrom_lparen (Int.natCast_nonneg d)] at h
    exact (ih (d + 1) h).lparen
  | rparen s ih =>
    intro d h
    cases d with
    | zero =>
      rw [Nat.cast_zero, closesFrom_zero_rparen] at h
      cases h
    | succ d =>
      rw [Nat.cast_succ, closesFrom_rparen (Int.natCast_nonneg d)] at h
      exact (ih d h).rparen
  | other c s hc hparens ih =>
    intro d h
    rw [closesFrom_cons_of_weight hc (Int.natCast_nonneg d)] at h
    rw [hparens]
    exact ih d h

/-! ## From the grammar to the count -/

/-- Only the parentheses count. -/
theorem closesFrom_parens (s : List Char) : ∀ {d : ℤ}, 0 ≤ d → closesFrom d (parens s) = closesFrom d s := by
  induction s using parens_induction with
  | nil => exact fun _ => rfl
  | lparen s ih =>
    intro d hd
    rw [parens_lparen, closesFrom_lparen hd, closesFrom_lparen hd]
    exact ih (Int.le_add_one hd)
  | rparen s ih =>
    intro d hd
    rcases hd.eq_or_lt with rfl | hpos
    · rfl
    · obtain ⟨e, rfl⟩ : ∃ e, d = e + 1 := ⟨d - 1, (sub_add_cancel d 1).symm⟩
      have he : 0 ≤ e := Int.lt_add_one_iff.1 hpos
      rw [parens_rparen, closesFrom_rparen he, closesFrom_rparen he]
      exact ih he
  | other c s hc hparens ih =>
    intro d hd
    rw [hparens, closesFrom_cons_of_weight hc hd]
    exact ih hd

/-- A balanced word in front of a text changes no count. -/
theorem closesFrom_balanced_append {w : List Char} (h : Balanced w) (t : List Char) :
    ∀ {d : ℤ}, 0 ≤ d → closesFrom d (w ++ t) = closesFrom d t := by
  induction h generalizing t with
  | nil => exact fun _ => rfl
  | @wrap u v _ _ ihu ihv =>
    intro d hd
    rw [List.cons_append, List.append_assoc, List.cons_append, closesFrom_lparen hd, ihu _ (Int.le_add_one hd),
      closesFrom_rparen hd, ihv t hd]

/-- Nor does a text whose parentheses are balanced. -/
theorem closesFrom_append_of_balanced {s : List Char} (h : Balanced (parens s)) (t : List Char) {d : ℤ} (hd : 0 ≤ d) :
    closesFrom d (s ++ t) = closesFrom d t := by
  rw [← closesFrom_parens (s ++ t) hd, parens_append, closesFrom_balanced_append h _ hd, closesFrom_parens t hd]

/-- The count accepts exactly the texts whose parentheses are balanced. -/
theorem closesFrom_zero_iff (s : List Char) : closesFrom 0 s = true ↔ Balanced (parens s) := by
  constructor
  · intro h
    have hcloses := closes_of_closesFrom s 0 h
    cases hcloses with
    | last hs => exact hs
  · intro h
    have hcount := closesFrom_append_of_balanced h [] (Int.le_refl 0)
    rwa [List.append_nil] at hcount

theorem checkParens_eq_ok_iff (s : List Char) : checkParens s = .ok () ↔ Balanced (parens s) := by
  rw [← closesFrom_zero_iff, checkParens]
  cases closesFrom 0 s <;> simp

theorem checkParens_eq_error_iff (s : List Char) : checkParens s = .error .unbalanced ↔ ¬Balanced (parens s) := by
  rw [← closesFrom_zero_iff, checkParens]
  cases closesFrom 0 s <;> simp

/-! ## Counting in a word -/

theorem abs_weight_le (c : Char) : -1 ≤ weight c ∧ weight c ≤ 1 := by
  unfold weight
  split
  · decide
  · split <;> decide

/-- A count that is not negative and below the greatest one is followed by one that the word holds. -/
theorem exists_countWord? {depth : Int64} (hlow : 0 ≤ depth.toInt) (hhigh : depth.toInt + 1 < 2 ^ 63) (c : Char) :
    ∃ next, countWord? depth c = some next ∧ next.toInt = depth.toInt + weight c := by
  obtain ⟨hwlow, hwhigh⟩ := abs_weight_le c
  have hweight : (Int64.ofInt (weight c)).toInt = weight c := Int64.toInt_ofInt_of_le (by omega) (by omega)
  have hsum : (depth + Int64.ofInt (weight c)).toInt = depth.toInt + weight c := by
    rw [Int64.toInt_add, hweight]
    exact Int.bmod_eq_of_le (by omega) (by omega)
  exact ⟨_, if_pos hsum, hsum⟩

/-- While a text is read, the count is at most what it was before it and the number of characters that were read. So the word holds
every count, and the outcome is that of counting without a bound. -/
theorem checkWord?_eq (s : List Char) (depth : Int64) (hlow : 0 ≤ depth.toInt) (hhigh : depth.toInt + s.length < 2 ^ 63) :
    checkWord? depth s = some (if closesFrom depth.toInt s then .ok () else .error .unbalanced) := by
  induction s generalizing depth with
  | nil =>
    have hzero : depth = 0 ↔ depth.toInt = 0 := by rw [← Int64.toInt_inj, Int64.toInt_zero]
    simp only [checkWord?, closesFrom, beq_iff_eq, hzero]
  | cons c s ih =>
    rw [List.length_cons, Nat.cast_succ] at hhigh
    obtain ⟨next, hnext, hvalue⟩ := exists_countWord? hlow (by omega) c
    have hweight := abs_weight_le c
    have hneg : next < 0 ↔ ¬0 ≤ depth.toInt + weight c := by rw [Int64.lt_iff_toInt_lt, Int64.toInt_zero, hvalue, not_le]
    rw [checkWord?, hnext, closesFrom]
    by_cases hclosed : 0 ≤ depth.toInt + weight c
    · have hrest := ih next (by omega) (by omega)
      rw [hvalue] at hrest
      simpa [hneg, hclosed] using hrest
    · simp [hneg, hclosed]

end Guard

/-- The check of the parentheses accepts exactly the texts whose parentheses, whatever stands between them, are a balanced word,
and refuses all others as unbalanced. In a text of fewer than `2 ^ 63` characters no number of open parentheses leaves a word of
64 bits with a sign. -/
theorem checkParens_iff_balanced (s : List Char) :
    (Guard.checkParens s = .ok () ↔ Text.Balanced (Text.parens s)) ∧
      (Guard.checkParens s = .error .unbalanced ↔ ¬Text.Balanced (Text.parens s)) ∧
      (s.length < 2 ^ 63 → Guard.checkWord? 0 s = some (Guard.checkParens s)) := by
  refine ⟨Guard.checkParens_eq_ok_iff s, Guard.checkParens_eq_error_iff s, fun hlength => ?_⟩
  have hword := Guard.checkWord?_eq s 0 (by rw [Int64.toInt_zero]) (by rw [Int64.toInt_zero]; omega)
  rwa [Int64.toInt_zero] at hword

/-- Only the parentheses are looked at: the other characters of this text are no expression. -/
theorem checkParens_iff_balanced_letters :
    "(a(b)+)/(0 )".toList.length < 2 ^ 63 ∧ Text.Balanced (Text.parens "(a(b)+)/(0 )".toList) ∧
      Guard.checkWord? 0 "(a(b)+)/(0 )".toList = some (.ok ()) ∧ ¬Text.Balanced (Text.parens "(a(b)+)/(0 (".toList) := by
  have hclosed : Guard.checkParens "(a(b)+)/(0 )".toList = .ok () := by decide
  have hopen : Guard.checkParens "(a(b)+)/(0 (".toList = .error .unbalanced := by decide
  have hlength : "(a(b)+)/(0 )".toList.length < 2 ^ 63 := by decide
  obtain ⟨hgood, -, hword⟩ := checkParens_iff_balanced "(a(b)+)/(0 )".toList
  obtain ⟨-, hbad, -⟩ := checkParens_iff_balanced "(a(b)+)/(0 (".toList
  exact ⟨hlength, hgood.1 hclosed, (hword hlength).trans (congrArg some hclosed), hbad.1 hopen⟩

end Calculator
