import Mathlib
import Calculator.Grammar

/-!
# The grammar is unambiguous

A word is derived in at most one way, over every alphabet whose letters tell operators, parentheses and the letters of
numbers apart (`Spelling.Lawful`). Both kinds of operators group to the left, so a derivation is read from the right: the
last operator of a sum that is not in parentheses is the one before its longest final term (`Derives.unique_suffix`).
-/

namespace Calculator

/-! ## Spellings that tell their words apart -/

/-- The letters that no number is written with. -/
def Spelling.Mark {α ν : Type} (S : Spelling α ν) (a : α) : Prop := a = S.lparen ∨ a = S.rparen ∨ ∃ o, a = S.op o

/-- The letters of a spelling tell its words apart: operators and parentheses are different letters, and a number is a word
of other letters with one value. -/
structure Spelling.Lawful {α ν : Type} (S : Spelling α ν) : Prop where
  op_injective : ∀ o p, S.op o = S.op p → o = p
  op_ne_lparen : ∀ o, S.op o ≠ S.lparen
  op_ne_rparen : ∀ o, S.op o ≠ S.rparen
  lparen_ne_rparen : S.lparen ≠ S.rparen
  number_ne_nil : ∀ w x, S.number w x → w ≠ []
  number_plain : ∀ w x, S.number w x → ∀ a ∈ w, ¬S.Mark a
  number_unique : ∀ w x y, S.number w x → S.number w y → x = y

theorem Spelling.mark_op {α ν : Type} (S : Spelling α ν) (o : BinOp) : S.Mark (S.op o) := Or.inr (Or.inr ⟨o, rfl⟩)

theorem Spelling.mark_lparen {α ν : Type} (S : Spelling α ν) : S.Mark S.lparen := Or.inl rfl

theorem Spelling.mark_rparen {α ν : Type} (S : Spelling α ν) : S.Mark S.rparen := Or.inr (Or.inl rfl)

/-- Over tokens, every word is told by its constructor. -/
theorem Spelling.tokens_lawful : Spelling.tokens.Lawful where
  op_injective o p h := by cases h; rfl
  op_ne_lparen o h := by cases h
  op_ne_rparen o h := by cases h
  lparen_ne_rparen h := by cases h
  number_ne_nil w x h := by rw [h]; simp
  number_plain w x h a ha := by
    rw [h, List.mem_singleton] at ha
    subst ha
    rintro (h | h | ⟨o, h⟩) <;> cases h
  number_unique w x y hx hy := by
    have h := hx.symm.trans hy
    simpa using h

theorem BinOp.symbol_injective (o p : BinOp) (h : o.symbol = p.symbol) : o = p := by
  revert h
  cases o <;> cases p <;> decide

theorem Literal.isNumeral_symbol (o : BinOp) : Literal.isNumeral o.symbol = false := by
  cases o <;> decide

/-- A character of a literal is neither an operator nor a parenthesis. -/
theorem Literal.not_mark_of_isNumeral {ν : Type} (f : List Char → ν) {c : Char} (h : Literal.isNumeral c = true) :
    ¬(Spelling.literals f).Mark c := by
  rintro (hc | hc | ⟨o, hc⟩)
  · rw [hc] at h
    exact absurd h (by decide : ¬Literal.isNumeral '(' = true)
  · rw [hc] at h
    exact absurd h (by decide : ¬Literal.isNumeral ')' = true)
  · rw [hc] at h
    exact absurd ((Literal.isNumeral_symbol o).symm.trans h) Bool.false_ne_true

/-- Over characters, no literal contains an operator or a parenthesis. -/
theorem Spelling.literals_lawful {ν : Type} (f : List Char → ν) : (Spelling.literals f).Lawful where
  op_injective := BinOp.symbol_injective
  op_ne_lparen o := by cases o <;> simp [literals, BinOp.symbol]
  op_ne_rparen o := by cases o <;> simp [literals, BinOp.symbol]
  lparen_ne_rparen := by simp [literals]
  number_ne_nil w x h := by
    rintro rfl
    simp [literals, Literal.isLiteral] at h
  number_plain w x h a ha := by
    have hw := h.1
    simp only [Literal.isLiteral, Bool.and_eq_true, List.all_eq_true] at hw
    exact Literal.not_mark_of_isNumeral f (hw.1.1 a ha)
  number_unique w x y hx hy := hx.2.trans hy.2.symm

/-! ## Reading a derivation from the right -/

/-- How tightly the operators that a level still lets in bind at least. -/
def Level.binding : Level → Nat
  | .sum => 1
  | .term => 2
  | .factor => 3

/-- What may stand before a word of a level without being part of it: nothing, an open parenthesis, or an operator that binds
less tightly than the level. -/
def Spelling.Precedes {α ν : Type} (S : Spelling α ν) (l : Level) (u : List α) : Prop :=
  u = [] ∨ (∃ v, u = v ++ [S.lparen]) ∨ ∃ v o, o.precedence < l.binding ∧ u = v ++ [S.op o]

variable {α ν : Type} {S : Spelling α ν}

theorem Spelling.Precedes.mono {l l' : Level} (h : l.binding ≤ l'.binding) {u : List α} (hu : S.Precedes l u) :
    S.Precedes l' u := by
  rcases hu with hu | hu | ⟨v, o, ho, hu⟩
  · exact Or.inl hu
  · exact Or.inr (Or.inl hu)
  · exact Or.inr (Or.inr ⟨v, o, by omega, hu⟩)

theorem Spelling.precedes_lparen (l : Level) (u : List α) : S.Precedes l (u ++ [S.lparen]) := Or.inr (Or.inl ⟨u, rfl⟩)

theorem Spelling.precedes_op {l : Level} {o : BinOp} (h : o.precedence < l.binding) (u : List α) :
    S.Precedes l (u ++ [S.op o]) :=
  Or.inr (Or.inr ⟨u, o, h, rfl⟩)

/-- Before a word of a level there is no operator that the level lets in. -/
theorem Spelling.Lawful.not_precedes_op (hS : S.Lawful) {l : Level} {o : BinOp} (h : l.binding ≤ o.precedence)
    {u v : List α} (hu : S.Precedes l u) : u ≠ v ++ [S.op o] := by
  rintro rfl
  rcases hu with hu | ⟨v', hu⟩ | ⟨v', p, hp, hu⟩
  · simp at hu
  · exact hS.op_ne_lparen o (by simpa using congrArg List.getLast? hu)
  · have hop := hS.op_injective o p (by simpa using congrArg List.getLast? hu)
    subst hop
    omega

/-- A word that ends with an operator is told by the operator and the rest. -/
theorem Spelling.Lawful.append_op_inj (hS : S.Lawful) {u v : List α} {o p : BinOp}
    (h : u ++ [S.op o] = v ++ [S.op p]) : u = v ∧ o = p := by
  obtain ⟨huv, hop⟩ := List.append_inj' h rfl
  exact ⟨huv, hS.op_injective o p (by simpa using hop)⟩

/-- What stands before a word ends with a letter that is in no number. -/
theorem Spelling.Precedes.mark {l : Level} {u : List α} (hu : S.Precedes l u) : ∀ a ∈ u.getLast?, S.Mark a := by
  intro a ha
  rcases hu with rfl | ⟨v, rfl⟩ | ⟨v, o, -, rfl⟩
  · simp at ha
  · rw [List.getLast?_concat, Option.mem_some_iff] at ha
    exact ha ▸ S.mark_lparen
  · rw [List.getLast?_concat, Option.mem_some_iff] at ha
    exact ha ▸ S.mark_op o

/-- Two ways to cut a word into a part that ends with a mark and a part without marks are the same. -/
theorem eq_of_append_eq_append {P : α → Prop} {u u' w w' : List α} (h : u ++ w = u' ++ w') (hu : ∀ a ∈ u.getLast?, P a)
    (hu' : ∀ a ∈ u'.getLast?, P a) (hw : ∀ a ∈ w, ¬P a) (hw' : ∀ a ∈ w', ¬P a) : u = u' ∧ w = w' := by
  rcases List.append_eq_append_iff.1 h with ⟨v, rfl, rfl⟩ | ⟨v, rfl, rfl⟩
  · rcases List.eq_nil_or_concat v with rfl | ⟨v, a, rfl⟩
    · simp
    · exact absurd (hu' a (by simp)) (hw a (by simp))
  · rcases List.eq_nil_or_concat v with rfl | ⟨v, a, rfl⟩
    · simp
    · exact absurd (hu a (by simp)) (hw' a (by simp))

/-- A number does not end with a parenthesis. -/
theorem Spelling.Lawful.number_ne_append_rparen (hS : S.Lawful) {u v w : List α} {x : ν} (hw : S.number w x) :
    u ++ w ≠ v ++ [S.rparen] := by
  intro h
  rcases List.eq_nil_or_concat w with rfl | ⟨w, a, rfl⟩
  · exact hS.number_ne_nil _ _ hw rfl
  · have ha : a = S.rparen := by simpa using congrArg List.getLast? h
    exact hS.number_plain _ _ hw a (by simp) (ha ▸ S.mark_rparen)

/-- A text that ends with `w`, after what may precede a word of the level, ends with no other word of the level, and `w` has
no tree but `e`. -/
def Spelling.EndsOnce (S : Spelling α ν) (l : Level) (w : List α) (e : Expr ν) : Prop :=
  ∀ {u u' w' : List α} {e' : Expr ν}, Derives S l w' e' → S.Precedes l u → S.Precedes l u' → u ++ w = u' ++ w' →
    u = u' ∧ w = w' ∧ e = e'

/-- An operator ends what may precede its right operand. -/
theorem Spelling.precedes_append_op {k : Level} {o : BinOp} (ho : o.precedence < k.binding) (u v : List α) :
    S.Precedes k (u ++ (v ++ [S.op o])) := by
  rw [← List.append_assoc]
  exact S.precedes_op ho _

/-- A word of the level below is no operation of the level: what precedes the right operand of the operation ends with an
operator that the level lets in, so it does not precede a word of the level. -/
theorem Spelling.Lawful.append_ne_append_op (hS : S.Lawful) {l k : Level} {o : BinOp} (hl : l.binding ≤ o.precedence)
    (hk : o.precedence < k.binding) {u u' v w w' : List α}
    (hw : ∀ {t t' : List α}, S.Precedes k t → S.Precedes k t' → t ++ w = t' ++ w' → t = t') (hu : S.Precedes l u) :
    u ++ w ≠ u' ++ (v ++ S.op o :: w') := by
  intro h
  have hstart : u = u' ++ (v ++ [S.op o]) :=
    hw (hu.mono (by omega)) (S.precedes_append_op hk u' v) (by simpa using h)
  rw [← List.append_assoc] at hstart
  exact hS.not_precedes_op hl hu hstart

/-- Two operations of a level at the end of one text have the same right operand, so the same operator stands in front of it,
and before that the same left operand. -/
theorem Spelling.EndsOnce.binary (hS : S.Lawful) {l k : Level} {o o' : BinOp} (ho : o.precedence < k.binding)
    (ho' : o'.precedence < k.binding) {v w : List α} {a b : Expr ν} (hv : S.EndsOnce l v a) (hw : S.EndsOnce k w b)
    {u u' v' w' : List α} {a' b' : Expr ν} (hv' : Derives S l v' a') (hw' : Derives S k w' b') (hu : S.Precedes l u)
    (hu' : S.Precedes l u') (h : u ++ (v ++ S.op o :: w) = u' ++ (v' ++ S.op o' :: w')) :
    u = u' ∧ v ++ S.op o :: w = v' ++ S.op o' :: w' ∧ Expr.binary o a b = Expr.binary o' a' b' := by
  obtain ⟨hop, rfl, rfl⟩ :=
    hw hw' (S.precedes_append_op ho u v) (S.precedes_append_op ho' u' v') (by simpa using h)
  rw [← List.append_assoc, ← List.append_assoc] at hop
  obtain ⟨huv, rfl⟩ := hS.append_op_inj hop
  obtain ⟨rfl, rfl, rfl⟩ := hv hv' hu hu' huv
  exact ⟨rfl, rfl, rfl⟩

/-- A word of a level at the end of a text is told by the text, and so is its tree: no other word of the level ends there and
is preceded by what may stand before it. -/
theorem Derives.unique_suffix (hS : S.Lawful) {l : Level} {w : List α} {e : Expr ν} (h : Derives S l w e) :
    ∀ {u u' w' : List α} {e' : Expr ν}, Derives S l w' e' → S.Precedes l u → S.Precedes l u' → u ++ w = u' ++ w' →
      u = u' ∧ w = w' ∧ e = e' := by
  induction h with
  | @number w x hw =>
    intro u u' w' e' h' hu hu' heq
    cases h' with
    | @number _ y hw' =>
      obtain ⟨huu, rfl⟩ :=
        eq_of_append_eq_append heq hu.mark hu'.mark (hS.number_plain _ _ hw) (hS.number_plain _ _ hw')
      exact ⟨huu, rfl, by rw [hS.number_unique _ _ _ hw hw']⟩
    | @paren w' e' _ =>
      refine absurd heq ?_
      rw [← List.cons_append, ← List.append_assoc]
      exact hS.number_ne_append_rparen hw
  | @paren w e _ ih =>
    intro u u' w' e' h' hu hu' heq
    rw [← List.cons_append, ← List.append_assoc] at heq
    cases h' with
    | number hw' => exact absurd heq.symm (hS.number_ne_append_rparen hw')
    | @paren w' e' h' =>
      have heq' : (u ++ [S.lparen]) ++ w = (u' ++ [S.lparen]) ++ w' := by
        rw [← List.cons_append, ← List.append_assoc] at heq
        simpa using List.append_cancel_right heq
      obtain ⟨huu, rfl, rfl⟩ := ih h' (S.precedes_lparen _ u) (S.precedes_lparen _ u') heq'
      exact ⟨List.append_cancel_right huu, rfl, rfl⟩
  | factor _ ih =>
    intro u u' w' e' h' hu hu' heq
    cases h' with
    | factor h' => exact ih h' (hu.mono (by decide)) (hu'.mono (by decide)) heq
    | product ho _ hw' =>
      refine absurd heq (hS.append_ne_append_op (l := .term) (k := .factor) ho.ge (by rw [ho]; decide) ?_ hu)
      exact fun ht ht' h => (ih hw' ht ht' h).1
  | product ho _ _ ihv ihw =>
    intro u u' w' e' h' hu hu' heq
    cases h' with
    | factor h' =>
      refine absurd heq.symm (hS.append_ne_append_op (l := .term) (k := .factor) ho.ge (by rw [ho]; decide) ?_ hu')
      exact fun ht ht' h => (ihw h' ht' ht h.symm).1.symm
    | product ho' hv' hw' =>
      exact Spelling.EndsOnce.binary hS (by rw [ho]; decide) (by rw [ho']; decide) @ihv @ihw hv' hw' hu hu' heq
  | term _ ih =>
    intro u u' w' e' h' hu hu' heq
    cases h' with
    | term h' => exact ih h' (hu.mono (by decide)) (hu'.mono (by decide)) heq
    | sum ho _ hw' =>
      refine absurd heq (hS.append_ne_append_op (l := .sum) (k := .term) ho.ge (by rw [ho]; decide) ?_ hu)
      exact fun ht ht' h => (ih hw' ht ht' h).1
  | sum ho _ _ ihv ihw =>
    intro u u' w' e' h' hu hu' heq
    cases h' with
    | term h' =>
      refine absurd heq.symm (hS.append_ne_append_op (l := .sum) (k := .term) ho.ge (by rw [ho]; decide) ?_ hu')
      exact fun ht ht' h => (ihw h' ht' ht h.symm).1.symm
    | sum ho' hv' hw' =>
      exact Spelling.EndsOnce.binary hS (by rw [ho]; decide) (by rw [ho']; decide) @ihv @ihw hv' hw' hu hu' heq

/-- A word has at most one tree. -/
theorem Derives.unique (hS : S.Lawful) {l : Level} {w : List α} {e e' : Expr ν} (h : Derives S l w e)
    (h' : Derives S l w e') : e = e' :=
  (h.unique_suffix hS h' (Or.inl rfl) (Or.inl rfl) rfl).2.2

/-- The trees of a word, as a set, are at most one. -/
theorem Derives.subsingleton (hS : S.Lawful) (l : Level) (w : List α) : {e | Derives S l w e}.Subsingleton :=
  fun _ h _ h' => h.unique hS h'

/-- The tree of a word binds at least as tightly as the level lets its operators bind, and no parenthesis is missing in it.
-/
theorem Derives.grouped {l : Level} {w : List α} {e : Expr ν} (h : Derives S l w e) : l.binding ≤ e.binding ∧ e.Grouped := by
  induction h with
  | number _ => exact ⟨Nat.le_refl 3, trivial⟩
  | paren _ ih => exact ⟨Nat.le_refl 3, ih.2⟩
  | factor _ ih => exact ⟨Nat.le_trans (by decide) ih.1, ih.2⟩
  | product ho _ _ ihl ihr =>
    refine ⟨Nat.le_of_eq ho.symm, ?_, ?_, ihl.2, ihr.2⟩
    · rw [ho]
      exact ihl.1
    · rw [ho]
      exact ihr.1
  | term _ ih => exact ⟨Nat.le_trans (by decide) ih.1, ih.2⟩
  | sum ho _ _ ihl ihr =>
    refine ⟨Nat.le_of_eq ho.symm, ?_, ?_, ihl.2, ihr.2⟩
    · rw [ho]
      exact ihl.1
    · rw [ho]
      exact ihr.1

/-- Induction over the words of all levels, where the level does not matter. -/
@[elab_as_elim]
theorem Derives.word_induction {motive : List α → Expr ν → Prop} (number : ∀ w x, S.number w x → motive w (.number x))
    (paren : ∀ w e, Derives S .sum w e → motive w e → motive (S.lparen :: (w ++ [S.rparen])) (.paren e))
    (binary : ∀ v w l r o, motive v l → motive w r → motive (v ++ S.op o :: w) (.binary o l r))
    {l : Level} {w : List α} {e : Expr ν} (h : Derives S l w e) : motive w e := by
  induction h with
  | number hw => exact number _ _ hw
  | paren hw ih => exact paren _ _ hw ih
  | factor _ ih => exact ih
  | product _ _ _ ihl ihr => exact binary _ _ _ _ _ ihl ihr
  | term _ ih => exact ih
  | sum _ _ _ ihl ihr => exact binary _ _ _ _ _ ihl ihr

/-! ## Other readings of the literals -/

section
variable {μ : Type} {f : List Char → ν} {g : List Char → μ} {k : ν → μ}

/-- A derivation does not depend on how the literals are read; only the numbers of its tree do. -/
theorem Derives.map (hk : ∀ w, Literal.isLiteral w = true → g w = k (f w)) {l : Level} {w : List Char} {e : Expr ν}
    (h : Derives (Spelling.literals f) l w e) : Derives (Spelling.literals g) l w (e.map k) := by
  induction h with
  | number hw => exact .number ⟨hw.1, by rw [hw.2, hk _ hw.1]⟩
  | paren _ ih => exact .paren ih
  | factor _ ih => exact .factor ih
  | product ho _ _ ihl ihr => exact .product ho ihl ihr
  | term _ ih => exact .term ih
  | sum ho _ _ ihl ihr => exact .sum ho ihl ihr

/-- A tree over one reading of the literals comes from a tree over every finer one. -/
theorem Derives.exists_map (hk : ∀ w, Literal.isLiteral w = true → g w = k (f w)) {l : Level} {w : List Char} {e : Expr μ}
    (h : Derives (Spelling.literals g) l w e) : ∃ e', Derives (Spelling.literals f) l w e' ∧ e = e'.map k := by
  induction h with
  | @number w x hw => exact ⟨.number (f w), .number ⟨hw.1, rfl⟩, by rw [hw.2, hk _ hw.1, Expr.map]⟩
  | paren _ ih =>
    obtain ⟨e', h', rfl⟩ := ih
    exact ⟨.paren e', .paren h', rfl⟩
  | factor _ ih =>
    obtain ⟨e', h', rfl⟩ := ih
    exact ⟨e', .factor h', rfl⟩
  | product ho _ _ ihl ihr =>
    obtain ⟨l', hl', rfl⟩ := ihl
    obtain ⟨r', hr', rfl⟩ := ihr
    exact ⟨.binary _ l' r', .product ho hl' hr', rfl⟩
  | term _ ih =>
    obtain ⟨e', h', rfl⟩ := ih
    exact ⟨e', .term h', rfl⟩
  | sum ho _ _ ihl ihr =>
    obtain ⟨l', hl', rfl⟩ := ihl
    obtain ⟨r', hr', rfl⟩ := ihr
    exact ⟨.binary _ l' r', .sum ho hl' hr', rfl⟩

end

end Calculator
