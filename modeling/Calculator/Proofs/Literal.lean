import Mathlib
import Calculator.Binary64.Bits
import Calculator.Proofs.Lexer
import Calculator.Proofs.Precision

/-!
# The values of literals

A literal is read as the double nearest to the rational it denotes, whatever its length (`tokenize_literal`). So only that
rational matters: zeros in front, zeros at the end of a fraction and a point without digits on one side change nothing, and a
greater rational is not read as a smaller double.
-/

namespace Calculator

namespace Literal

variable {u v w : List Char}

/-! ## Zeros and points without a value -/

@[simp] theorem digit_zero : digit '0' = 0 := by simp [digit]

theorem wholeNumber_zeros_append (n : ℕ) (v : List Char) :
    wholeNumber (List.replicate n '0' ++ v) = wholeNumber v := by
  induction n with
  | zero => rfl
  | succ n ih => rw [List.replicate_succ, List.cons_append, wholeNumber, ih, digit_zero, zero_mul, zero_add]

theorem fractionNumber_append_zeros (n : ℕ) (v : List Char) :
    fractionNumber (v ++ List.replicate n '0') = fractionNumber v := by
  induction v with
  | nil =>
    induction n with
    | zero => rfl
    | succ n ih =>
      rw [List.nil_append, fractionNumber] at ih ⊢
      rw [List.replicate_succ, fractionNumber, ih, digit_zero, zero_add, zero_div]
  | cons c v ih => rw [List.cons_append, fractionNumber, ih, fractionNumber]

/-- Zeros in front of a text are in front of its first point. -/
theorem toRat_zeros_append (n : ℕ) (w : List Char) : toRat (List.replicate n '0' ++ w) = toRat w := by
  have hzeros : ∀ c ∈ List.replicate n '0', (c != '.') = true := by
    intro c hc
    rw [List.eq_of_mem_replicate hc]
    rfl
  have hwhole : whole (List.replicate n '0' ++ w) = List.replicate n '0' ++ whole w :=
    List.takeWhile_append_of_pos hzeros
  have hfraction : fraction (List.replicate n '0' ++ w) = fraction w := by
    rw [fraction, List.dropWhile_append_of_pos hzeros, fraction]
  rw [toRat, hwhole, hfraction, wholeNumber_zeros_append, toRat]

/-- A text with a point is divided by its first one. -/
theorem whole_append_point (hu : '.' ∉ u) (v : List Char) : whole (u ++ '.' :: v) = u := by
  have hpoint : ∀ c ∈ u, (c != '.') = true := fun c hc => bne_iff_ne.2 fun h => hu (h ▸ hc)
  rw [whole, List.takeWhile_append_of_pos hpoint, List.takeWhile_cons_of_neg (by simp), List.append_nil]

theorem fraction_append_point (hu : '.' ∉ u) (v : List Char) : fraction (u ++ '.' :: v) = v := by
  have hpoint : ∀ c ∈ u, (c != '.') = true := fun c hc => bne_iff_ne.2 fun h => hu (h ▸ hc)
  rw [fraction, List.dropWhile_append_of_pos hpoint, List.dropWhile_cons_of_neg (by simp), List.drop_one, List.tail_cons]

theorem toRat_append_point (hu : '.' ∉ u) (v : List Char) :
    toRat (u ++ '.' :: v) = wholeNumber u + fractionNumber v := by
  rw [toRat, whole_append_point hu, fraction_append_point hu]

/-- A text without a point is whole. -/
theorem whole_of_not_mem (hw : '.' ∉ w) : whole w = w :=
  List.takeWhile_eq_self_iff.2 fun _ hc => bne_iff_ne.2 fun h => hw (h ▸ hc)

theorem fraction_of_not_mem (hw : '.' ∉ w) : fraction w = [] := by
  have hpoint : ∀ c ∈ w, (c != '.') = true := fun c hc => bne_iff_ne.2 fun h => hw (h ▸ hc)
  rw [fraction, List.dropWhile_eq_nil_iff.2 hpoint, List.drop_nil]

theorem toRat_of_not_mem (hw : '.' ∉ w) : toRat w = wholeNumber w := by
  rw [toRat, whole_of_not_mem hw, fraction_of_not_mem hw, fractionNumber, add_zero]

/-- Zeros after a point do not count at the end. -/
theorem toRat_append_zeros (hw : '.' ∈ w) (n : ℕ) : toRat (w ++ List.replicate n '0') = toRat w := by
  obtain ⟨u, v, rfl, hu⟩ := List.eq_append_cons_of_mem hw
  rw [List.append_assoc, List.cons_append, toRat_append_point hu, toRat_append_point hu, fractionNumber_append_zeros]

/-- A point after a whole number does not count. -/
theorem toRat_append_singleton_point (hw : '.' ∉ w) : toRat (w ++ ['.']) = toRat w := by
  rw [toRat_append_point hw, toRat_of_not_mem hw, fractionNumber, add_zero]

/-! ## Literals again -/

theorem isLiteral_iff (w : List Char) :
    isLiteral w = true ↔ (∀ c ∈ w, isNumeral c = true) ∧ (∃ c ∈ w, c.isDigit = true) ∧ w.count '.' ≤ 1 := by
  simp [isLiteral, and_assoc]

theorem isLiteral_zeros_append (hw : isLiteral w = true) (n : ℕ) : isLiteral (List.replicate n '0' ++ w) = true := by
  obtain ⟨hall, ⟨c, hc, hdigit⟩, hcount⟩ := (isLiteral_iff w).1 hw
  refine (isLiteral_iff _).2 ⟨fun a ha => ?_, ⟨c, List.mem_append_right _ hc, hdigit⟩, ?_⟩
  · rcases List.mem_append.1 ha with ha | ha
    · rw [List.eq_of_mem_replicate ha]
      rfl
    · exact hall a ha
  · simpa [List.count_replicate] using hcount

theorem isLiteral_append_zeros (hw : isLiteral w = true) (n : ℕ) : isLiteral (w ++ List.replicate n '0') = true := by
  have h := isLiteral_zeros_append hw n
  rw [isLiteral_iff] at h ⊢
  simpa [or_comm, and_comm, add_comm] using h

theorem isLiteral_append_point (hw : isLiteral w = true) (hpoint : '.' ∉ w) : isLiteral (w ++ ['.']) = true := by
  obtain ⟨hall, ⟨c, hc, hdigit⟩, -⟩ := (isLiteral_iff w).1 hw
  refine (isLiteral_iff _).2 ⟨fun a ha => ?_, ⟨c, List.mem_append_left _ hc, hdigit⟩, ?_⟩
  · rcases List.mem_append.1 ha with ha | ha
    · exact hall a ha
    · rw [List.mem_singleton.1 ha]
      rfl
  · rw [List.count_append, List.count_eq_zero.2 hpoint]
    rfl

/-! ## Reading a literal -/

/-- A literal by itself is one number. -/
theorem tokenize_eq (hw : isLiteral w = true) : tokenize w = .ok [.number (value w)] := by
  have h := tokenize_literal_append (s := []) hw (by simp)
  rw [List.append_nil, tokenize] at h
  exact h

/-- Literals that denote the same rational are read as the same double. -/
theorem tokenize_of_toRat_eq (hv : isLiteral v = true) (h : toRat v = toRat w) : tokenize v = .ok [.number (value w)] := by
  rw [tokenize_eq hv, value_eq_nearest v, value_eq_nearest w, h]

theorem toRat_nonneg (w : List Char) : 0 ≤ toRat w := by
  rw [toRat_eq]
  positivity

/-- A literal is never read as a negative number, and as an infinity only from the bound on. -/
theorem value_eq_infinite_iff (w : List Char) : value w = .infinite false ↔ Binary64.overflowBound ≤ toRat w := by
  have hnonneg := toRat_nonneg w
  rw [value_eq_nearest]
  constructor
  · intro h
    rw [← abs_of_nonneg hnonneg, ← Binary64.isFinite_nearest_eq_false_iff, h]
    rfl
  · intro h
    rw [← abs_of_nonneg hnonneg] at h
    rw [Binary64.nearest_eq_infinite h, decide_eq_false (not_lt.2 hnonneg)]

/-- A literal that is read as a zero is read as the positive one. -/
theorem neg_eq_false_of_value_eq_zero {neg : Bool} (h : value w = .zero neg) : neg = false := by
  have hnear := (Binary64.isNearest_iff (value w) (toRat w)).2 (value_eq_nearest w)
  rw [h] at hnear
  rw [hnear.2.1]
  exact decide_eq_false (not_lt.2 (toRat_nonneg w))

end Literal

/-- A literal is read as the double nearest to the rational it denotes, a tie going to the even significand: as the positive
zero when that rational rounds to a zero, and as the positive infinity exactly from `2 ^ 1024 - 2 ^ 970` on. It is read so in
front of every text that does not go on with it. Zeros in front, zeros at the end of a fraction and a point at the end do not
change the double, nor does any other writing of the same rational, and a literal of a greater rational is not read as a
smaller double. -/
theorem tokenize_literal {w : List Char} (hw : Literal.isLiteral w = true) :
    ∃ x, tokenize w = .ok [.number x] ∧ x.IsNearest (Literal.toRat w) ∧ (∀ neg, x = .zero neg → neg = false) ∧
      (x = .infinite false ↔ Binary64.overflowBound ≤ Literal.toRat w) ∧
      (∀ s, (∀ c ∈ s.head?, Literal.isNumeral c = false) → tokenize (w ++ s) = (tokenize s).map (.number x :: ·)) ∧
      (∀ n, tokenize (List.replicate n '0' ++ w) = .ok [.number x]) ∧
      ('.' ∈ w → ∀ n, tokenize (w ++ List.replicate n '0') = .ok [.number x]) ∧
      ('.' ∉ w → tokenize (w ++ ['.']) = .ok [.number x]) ∧
      (∀ v, Literal.isLiteral v = true → Literal.toRat v = Literal.toRat w → tokenize v = .ok [.number x]) ∧
      ∀ v, Literal.isLiteral v = true → Literal.toRat w ≤ Literal.toRat v →
        ∃ y, tokenize v = .ok [.number y] ∧ x.le y = true := by
  refine ⟨Literal.value w, Literal.tokenize_eq hw, ?_, fun neg => Literal.neg_eq_false_of_value_eq_zero,
    Literal.value_eq_infinite_iff w, fun s hs => tokenize_literal_append hw hs, fun n => ?_, fun hpoint n => ?_,
    fun hpoint => ?_, fun v hv heq => Literal.tokenize_of_toRat_eq hv heq, fun v hv hle => ?_⟩
  · exact (Binary64.isNearest_iff _ _).2 (Literal.value_eq_nearest w)
  · exact Literal.tokenize_of_toRat_eq (Literal.isLiteral_zeros_append hw n) (Literal.toRat_zeros_append n w)
  · exact Literal.tokenize_of_toRat_eq (Literal.isLiteral_append_zeros hw n) (Literal.toRat_append_zeros hpoint n)
  · exact Literal.tokenize_of_toRat_eq (Literal.isLiteral_append_point hw hpoint)
      (Literal.toRat_append_singleton_point hpoint)
  · refine ⟨Literal.value v, Literal.tokenize_eq hv, ?_⟩
    rw [Literal.value_eq_nearest w, Literal.value_eq_nearest v]
    exact Binary64.nearest_le_nearest hle

/-- The literal of `2 ^ 53 + 1`, which is in the middle of two doubles. -/
def Literal.halfway : List Char :=
  ['9', '0', '0', '7', '1', '9', '9', '2', '5', '4', '7', '4', '0', '9', '9', '3']

/-- It is read as the double below, whose significand is even. -/
theorem tokenize_literal_halfway :
    Literal.isLiteral Literal.halfway = true ∧
      ∃ x, tokenize Literal.halfway = .ok [.number x] ∧ x.IsNearest (Literal.toRat Literal.halfway) ∧
        x.toBits = 0x4340000000000000 := by
  have hw : Literal.isLiteral Literal.halfway = true := by decide
  obtain ⟨x, hx, hnear, -⟩ := tokenize_literal hw
  have hvalue : x = Literal.value Literal.halfway := by
    rw [Literal.value_eq_nearest]
    exact (Binary64.isNearest_iff _ _).1 hnear
  exact ⟨hw, x, hx, hnear, by rw [hvalue]; decide +kernel⟩

end Calculator
