import Mathlib
import Calculator.Postfix.Scan
import Calculator.Proofs.Grammar

/-!
# The scan without a stack and the grammar

A list of tokens that the scan accepts is a sum. While it is read, the tokens are a chain of parts, one for each open
parenthesis and one for what follows the last of them. All parts but the last end where an operand may come (`Lead`); the
last one does so too (`Opened`), or it is a sum (`Complete`). Every token keeps this form (`Scan.Reads.step`).
-/

namespace Calculator

/-! ## Texts that end where an operand may come -/

/-- The tokens are nothing, or a beginning of a sum up to an operator: with any factor after them they are a sum. -/
def Lead (u : List Token) : Prop :=
  ∀ w f, Derives Spelling.tokens .factor w f → ∃ e, Derives Spelling.tokens .sum (u ++ w) e

theorem lead_nil : Lead [] := fun _ f h => ⟨f, .term (.factor h)⟩

/-- After a sum, every operator opens a place for an operand: one that binds like a sum for a new term, one that binds like a
term for a new factor of its last term. -/
theorem lead_op {w : List Token} {e : Expr Binary64} (h : Derives Spelling.tokens .sum w e) (o : BinOp) :
    Lead (w ++ [.op o]) := by
  intro v f hv
  rw [List.append_assoc, List.singleton_append]
  have ho : o.precedence = 1 ∨ o.precedence = 2 := by cases o <;> simp [BinOp.precedence]
  rcases ho with ho | ho
  · exact ⟨_, .sum ho h (.factor hv)⟩
  · cases h with
    | term h => exact ⟨_, .term (.product ho h hv)⟩
    | @sum v' w' l r p hp hl hr =>
      refine ⟨.binary p l (.binary o r f), ?_⟩
      rw [List.append_assoc, List.cons_append]
      exact .sum hp hl (.product ho hr hv)

/-- Tokens with `d` open parentheses that end where an operand may come. -/
inductive Opened : Nat → List Token → Prop where
  | bottom {u : List Token} : Lead u → Opened 0 u
  | nested {d : Nat} {v u : List Token} : Opened d v → Lead u → Opened (d + 1) (v ++ .lparen :: u)

/-- Tokens with `d` open parentheses that end with a sum. -/
inductive Complete : Nat → List Token → Prop where
  | bottom {w : List Token} {e : Expr Binary64} : Derives Spelling.tokens .sum w e → Complete 0 w
  | nested {d : Nat} {v w : List Token} {e : Expr Binary64} :
      Opened d v → Derives Spelling.tokens .sum w e → Complete (d + 1) (v ++ .lparen :: w)

/-- A factor fills the place of an operand. -/
theorem Opened.append_factor {d : Nat} {v w : List Token} {f : Expr Binary64} (h : Opened d v)
    (hw : Derives Spelling.tokens .factor w f) : Complete d (v ++ w) := by
  cases h with
  | bottom hu =>
    obtain ⟨e, he⟩ := hu w f hw
    exact .bottom he
  | nested hv hu =>
    obtain ⟨e, he⟩ := hu w f hw
    rw [List.append_assoc, List.cons_append]
    exact .nested hv he

/-- A parenthesis in the place of an operand opens a part of its own. -/
theorem Opened.append_lparen {d : Nat} {v : List Token} (h : Opened d v) : Opened (d + 1) (v ++ [.lparen]) :=
  .nested h lead_nil

theorem Complete.append_op {d : Nat} {w : List Token} (h : Complete d w) (o : BinOp) : Opened d (w ++ [.op o]) := by
  cases h with
  | bottom h => exact .bottom (lead_op h o)
  | nested hv h =>
    rw [List.append_assoc, List.cons_append]
    exact .nested hv (lead_op h o)

/-- A parenthesis after a sum turns the last part into a factor of the part before it. -/
theorem Complete.append_rparen {d : Nat} {w : List Token} (h : Complete (d + 1) w) : Complete d (w ++ [.rparen]) := by
  cases h with
  | nested hv h =>
    rw [List.append_assoc, List.cons_append]
    exact hv.append_factor (.paren h)

/-! ## The invariant of the scan -/

/-- What a scan says about the tokens it has read. -/
def Scan.Reads (s : Scan) (w : List Token) : Prop :=
  if s.expectOperand then Opened s.depth w else Complete s.depth w

theorem Scan.reads_start : Scan.start.Reads [] := Opened.bottom lead_nil

/-- One token keeps what the scan says true. -/
theorem Scan.Reads.step {s s' : Scan} {w : List Token} {t : Token} (h : s.Reads w) (hs : s.step t = .ok s') :
    s'.Reads (w ++ [t]) := by
  obtain ⟨expect, d⟩ := s
  cases expect with
  | true =>
    have hw : Opened d w := h
    cases t with
    | number x =>
      obtain rfl : _ = s' := Except.ok.inj hs
      exact hw.append_factor (.number rfl)
    | lparen =>
      obtain rfl : _ = s' := Except.ok.inj hs
      exact hw.append_lparen
    | rparen => cases hs
    | op o => cases hs
  | false =>
    have hw : Complete d w := h
    cases t with
    | number x => cases hs
    | lparen => cases hs
    | rparen =>
      cases d with
      | zero => cases hs
      | succ d =>
        obtain rfl : _ = s' := Except.ok.inj hs
        exact hw.append_rparen
    | op o =>
      obtain rfl : _ = s' := Except.ok.inj hs
      exact hw.append_op o

/-- All tokens keep what the scan says true. -/
theorem Scan.Reads.run {ts : List Token} {s s' : Scan} {w : List Token} (h : s.Reads w) (hr : Scan.run ts s = .ok s') :
    s'.Reads (w ++ ts) := by
  induction ts generalizing s w with
  | nil =>
    obtain rfl : s = s' := Except.ok.inj hr
    rwa [List.append_nil]
  | cons t ts ih =>
    simp only [Scan.run] at hr
    cases hs : s.step t with
    | error e =>
      rw [hs] at hr
      cases hr
    | ok s₁ =>
      rw [hs] at hr
      rw [List.append_cons]
      exact ih (h.step hs) hr

/-- A list of tokens that is read up to its end with no operand expected and no parenthesis open is a sum. -/
theorem Scan.exists_derives {ts : List Token} (h : Scan.run ts Scan.start = .ok ⟨false, 0⟩) :
    ∃ e, Derives Spelling.tokens .sum ts e := by
  have hr : Complete 0 ts := Scan.reads_start.run h
  cases hr with
  | bottom he => exact ⟨_, he⟩

end Calculator
