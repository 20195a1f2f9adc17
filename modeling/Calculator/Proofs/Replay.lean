import Mathlib
import Calculator.Proofs.Canonical
import Calculator.Proofs.Composing

/-!
# Replaying the history

Every calculation in the history can be done again from its line alone (`history_replay`): the line is divided at its only sign
of equality, and its expression is one that is written as it is typed (`Entry.Replayable.pressAll`). Each key keeps this
(`State.Replayable.press`), since what is left when an operator at the end is dropped is neither empty nor ends with another one.
-/

namespace Calculator

/-! ## Lines of the history -/

/-- No displayed text has a sign of equality. -/
theorem Text.IsCanonical.equality_not_mem {t : List Char} (h : IsCanonical t) : '=' ∉ t := by
  have hdigit : ∀ c : Char, c.isDigit = true → c ≠ '=' := by
    rintro c hc rfl
    cases hc
  have hfraction : ∀ f, IsFraction f → '=' ∉ f := fun f hf hmem => absurd (hf.isNumeral _ hmem) (by decide)
  obtain ⟨sign, body, rfl, hsign, hbody⟩ := h
  rw [List.mem_append, not_or]
  constructor
  · rcases hsign with rfl | rfl <;> decide
  rcases hbody with ⟨w, f, rfl, hw, -, hf⟩ | ⟨c, f, e, rfl, hc, hf, he⟩
  · rw [List.mem_append, not_or]
    exact ⟨fun hmem => hdigit _ (hw.isDigit _ hmem) rfl, hfraction f hf⟩
  · rw [List.mem_cons, List.mem_append, not_or, not_or]
    refine ⟨(hdigit c hc.1).symm, hfraction f hf, ?_⟩
    cases he with
    | @signed s a v hs ha hv =>
      have hs' : '=' ≠ s := by rcases hs with rfl | rfl <;> decide
      simp only [List.mem_cons, not_or]
      exact ⟨by decide, hs', (hdigit a ha.1).symm, fun hmem => hdigit _ (hv _ hmem) rfl⟩

/-- A calculation that can be done again: its expression can be written, and is evaluated as it is. -/
structure Entry.Replayable (e : Entry) : Prop where
  composed : Text.Composed e.expression
  ne_nil : e.expression ≠ []
  complete : State.endsWithOperator e.expression = false
  evaluate : evaluate e.expression = .ok e.value

namespace Entry

variable {e : Entry}

/-- Its line is divided in one way. -/
theorem Replayable.eq_of_text_eq (h : e.Replayable) {u v : List Char} (heq : e.text = u ++ [' ', '=', ' '] ++ v) :
    u = e.expression ∧ v = e.value := by
  have hleft : '=' ∉ e.expression ++ [' '] := by
    intro hmem
    rcases List.mem_append.1 hmem with hmem | hmem
    · exact absurd (h.composed.chars _ hmem) (by decide)
    · exact absurd hmem (by decide)
  have hright : '=' ∉ ' ' :: e.value := by
    rw [List.mem_cons, not_or]
    exact ⟨by decide, (isCanonical_of_evaluate h.evaluate).equality_not_mem⟩
  have hsplit : e.expression ++ [' '] ++ '=' :: (' ' :: e.value) = u ++ [' '] ++ '=' :: (' ' :: v) := by
    simpa [Entry.text] using heq
  obtain ⟨hexpr, -, hvalue⟩ := (List.append_cons_inj_of_notMem hleft hright).1 hsplit
  exact ⟨(List.append_cancel_right hexpr).symm, (List.cons.inj hvalue).2.symm⟩

/-- Typed into a calculator that was just switched on and evaluated, it is the only calculation. -/
theorem Replayable.pressAll (h : e.Replayable) :
    State.initial.pressAll (e.expression.map .symbol ++ [.equals]) = ⟨[], e.value, [e], none⟩ := by
  have hwritten : (State.initial.addAll e.expression).expression = e.expression := by
    rw [State.addAll_expression]
    exact h.composed.foldl_extend
  have hevaluated : (State.initial.addAll e.expression).evaluated = e.expression := by
    rw [State.evaluated, hwritten, h.complete]
    rfl
  have hempty : (State.initial.addAll e.expression).expression.isEmpty = false := by
    rw [hwritten]
    exact List.isEmpty_eq_false_iff.2 h.ne_nil
  rw [State.pressAll_append, State.pressAll_map_symbol]
  change (State.initial.addAll e.expression).equals = _
  rw [State.equals_of_ok hempty (by rw [hevaluated]; exact h.evaluate), hevaluated, State.addAll_history]
  rfl

end Entry

namespace State

/-! ## What the keys keep -/

/-- What is evaluated of an expression that can be written: an operator at the end comes after an operand. -/
theorem composed_evaluated {s : State} (h : Text.Composed s.expression) (hne : s.expression ≠ []) :
    Text.Composed s.evaluated ∧ s.evaluated ≠ [] ∧ endsWithOperator s.evaluated = false := by
  rw [evaluated]
  cases hend : endsWithOperator s.expression with
  | false => exact ⟨h, hne, hend⟩
  | true =>
    obtain ⟨o, ho⟩ := (Text.endsWithOperator_iff _).1 hend
    obtain ⟨u, hu⟩ := List.getLast?_eq_some_iff.1 ho
    rw [hu] at h
    obtain ⟨hne', hend'⟩ := h.mayFollow.operator (isOperator_symbol o)
    rw [hu, if_pos rfl, List.dropLast_concat]
    exact ⟨h.of_append, hne', hend'⟩

/-- The expression can be written, and all calculations of the history can be done again. -/
structure Replayable (s : State) : Prop where
  composed : Text.Composed s.expression
  history : ∀ e ∈ s.history, e.Replayable

theorem replayable_initial : initial.Replayable where
  composed := Text.composed_nil
  history := by
    intro e he
    cases he

/-- Evaluation adds a calculation that can be done again, or none. -/
theorem Replayable.equals_history {s : State} (h : s.Replayable) : ∀ e ∈ s.equals.history, e.Replayable := by
  cases hempty : s.expression.isEmpty with
  | true =>
    rw [equals_of_isEmpty hempty]
    exact h.history
  | false =>
    cases hv : evaluate s.evaluated with
    | error x =>
      rw [equals_of_error hempty hv]
      exact h.history
    | ok v =>
      obtain ⟨hcomposed, hne, hend⟩ := composed_evaluated h.composed (List.isEmpty_eq_false_iff.1 hempty)
      rw [equals_of_ok hempty hv]
      intro e he
      rcases List.mem_cons.1 (List.mem_of_mem_take he) with rfl | he
      · exact ⟨hcomposed, hne, hend, hv⟩
      · exact h.history e he

/-- A key keeps it. -/
theorem Replayable.press {s : State} {k : Key} (h : s.Replayable) (hk : k.IsSent) : (s.press k).Replayable where
  composed := composed_press h.composed hk
  history := by
    cases k with
    | symbol c => exact h.history
    | clear => exact h.history
    | backspace => exact h.history
    | equals => exact h.equals_history

/-- So do all keys. -/
theorem Replayable.pressAll {s : State} {ks : List Key} (h : s.Replayable) (hk : ∀ k ∈ ks, k.IsSent) :
    (s.pressAll ks).Replayable := by
  induction ks generalizing s with
  | nil => exact h
  | cons k ks ih => exact ih (h.press (hk k List.mem_cons_self)) fun j hj => hk j (List.mem_cons_of_mem k hj)

end State

/-- After any keys of the keyboard and the pad, each line of the history is divided in one way into an expression, a sign of
equality between blanks and a value. The expression is not empty and does not end with an operator. Typed into a calculator
that was just switched on and evaluated, it gives the value as the result and the line as the whole history, and leaves neither
an expression nor an error. -/
theorem history_replay {ks : List Key} (hk : ∀ k ∈ ks, k.IsSent) :
    ∀ line ∈ (State.initial.pressAll ks).history.map Entry.text,
      ∃ e v, line = e ++ [' ', '=', ' '] ++ v ∧
        (∀ e' v', line = e' ++ [' ', '=', ' '] ++ v' → e' = e ∧ v' = v) ∧
        e ≠ [] ∧ (∀ o : BinOp, e.getLast? ≠ some o.symbol) ∧
        ∃ s, State.initial.pressAll (e.map .symbol ++ [.equals]) = s ∧ s.result = v ∧ s.expression = [] ∧ s.error = none ∧
          s.history.map Entry.text = [line] := by
  intro line hline
  obtain ⟨entry, hentry, rfl⟩ := List.mem_map.1 hline
  have h := (State.replayable_initial.pressAll hk).history entry hentry
  refine ⟨entry.expression, entry.value, rfl, fun e' v' => h.eq_of_text_eq, h.ne_nil, fun o ho => ?_, _, h.pressAll, rfl, rfl,
    rfl, rfl⟩
  have hend := (Text.endsWithOperator_iff _).2 ⟨o, ho⟩
  rw [h.complete] at hend
  cases hend

/-- A product and a second operator, which is dropped. -/
theorem history_replay_product :
    (∀ k ∈ [Key.symbol '2', .symbol '*', .symbol '3', .symbol '+', .equals], k.IsSent) ∧
      ∃ e v, "2*3 = 6".toList = e ++ [' ', '=', ' '] ++ v ∧
        (∀ e' v', "2*3 = 6".toList = e' ++ [' ', '=', ' '] ++ v' → e' = e ∧ v' = v) ∧
        e ≠ [] ∧ (∀ o : BinOp, e.getLast? ≠ some o.symbol) ∧
        ∃ s, State.initial.pressAll (e.map .symbol ++ [.equals]) = s ∧ s.result = v ∧ s.expression = [] ∧ s.error = none ∧
          s.history.map Entry.text = ["2*3 = 6".toList] := by
  have hk : ∀ k ∈ [Key.symbol '2', .symbol '*', .symbol '3', .symbol '+', .equals], k.IsSent := by
    intro k hk
    rw [Key.isSent_iff]
    rintro c rfl
    simp only [List.mem_cons, List.not_mem_nil, Key.symbol.injEq, reduceCtorEq, or_false] at hk
    rcases hk with rfl | rfl | rfl | rfl <;> decide
  exact ⟨hk, history_replay hk _ (by decide +kernel)⟩

end Calculator
