import Mathlib
import Calculator.State.Failure

/-!
# Failed evaluations

A press that fails sets the error and keeps all else, and nothing that the keys do depends on the error. So a run without its
failed presses ends like the whole run (`pressAll_withoutFailures`). The error itself is that of the expression until a
character is removed under it (`errorIsCurrent_pressAll_iff`): the backspace key is the only one that edits the expression
and keeps the error.
-/

namespace Calculator

namespace State

variable {s t : State}

/-! ## One press -/

/-- Whether a press fails depends on the expression alone. -/
theorem failure?_congr (h : s.expression = t.expression) (k : Key) : s.failure? k = t.failure? k := by
  cases k with
  | equals => rw [failure?, failure?, evaluated, evaluated, h]
  | _ => rfl

/-- The sign of equality does nothing, or takes the error off the screen, or fails and sets the error alone. -/
theorem equals_outcome (s : State) :
    (s.failure? .equals = none ∧ s.press .equals = s) ∨
      (s.failure? .equals = none ∧ (s.press .equals).error = none) ∨
      ∃ e, s.failure? .equals = some e ∧ s.expression ≠ [] ∧ s.press .equals = { s with error := some e } := by
  cases hempty : s.expression.isEmpty with
  | true => exact Or.inl ⟨by rw [failure?, if_pos hempty], equals_of_isEmpty hempty⟩
  | false =>
    right
    cases hv : evaluate s.evaluated with
    | ok v =>
      refine Or.inl ⟨?_, congrArg State.error (equals_of_ok hempty hv)⟩
      rw [failure?, hempty, hv]
      rfl
    | error e =>
      refine Or.inr ⟨e, ?_, List.isEmpty_eq_false_iff.1 hempty, equals_of_error hempty hv⟩
      rw [failure?, hempty, hv]
      rfl

/-- Only the sign of equality fails, where something is written. -/
theorem of_failure? {k : Key} {e : EvalError} (h : s.failure? k = some e) :
    k = .equals ∧ s.expression ≠ [] ∧ s.press k = { s with error := some e } := by
  cases k with
  | equals =>
    rcases s.equals_outcome with ⟨hnone, -⟩ | ⟨hnone, -⟩ | ⟨x, hx, hne, hpress⟩
    · rw [hnone] at h
      cases h
    · rw [hnone] at h
      cases h
    · obtain rfl : x = e := Option.some.inj (hx.symm.trans h)
      exact ⟨rfl, hne, hpress⟩
  | _ => cases h

/-- A press that does not fail takes the error off the screen, unless it is one of the backspace key, or one of the sign of
equality that does nothing. -/
theorem of_failure?_none {k : Key} (h : s.failure? k = none) :
    (s.press k).error = none ∨ k = .backspace ∨ k = .equals ∧ s.press k = s := by
  cases k with
  | symbol c => exact Or.inl rfl
  | clear => exact Or.inl rfl
  | backspace => exact Or.inr (Or.inl rfl)
  | equals =>
    rcases s.equals_outcome with ⟨-, hsame⟩ | ⟨-, herror⟩ | ⟨e, he, -⟩
    · exact Or.inr (Or.inr ⟨rfl, hsame⟩)
    · exact Or.inl herror
    · rw [h] at he
      cases he

/-! ## Runs without failed presses -/

/-- All but the error is the same. -/
structure SameButError (s t : State) : Prop where
  expression : s.expression = t.expression
  result : s.result = t.result
  history : s.history = t.history

theorem SameButError.refl (s : State) : s.SameButError s := ⟨rfl, rfl, rfl⟩

/-- What a key does to the rest does not depend on the error. -/
theorem SameButError.press (h : s.SameButError t) (k : Key) : (s.press k).SameButError (t.press k) := by
  obtain ⟨hexpr, hresult, hhistory⟩ := h
  cases k with
  | symbol c => exact ⟨congrArg (extend · c) hexpr, hresult, hhistory⟩
  | clear => exact ⟨rfl, rfl, hhistory⟩
  | backspace => exact ⟨congrArg List.dropLast hexpr, hresult, hhistory⟩
  | equals =>
    have heval : s.evaluated = t.evaluated := by rw [evaluated, evaluated, hexpr]
    change s.equals.SameButError t.equals
    cases hempty : t.expression.isEmpty with
    | true =>
      rw [equals_of_isEmpty hempty, equals_of_isEmpty (by rw [hexpr, hempty])]
      exact ⟨hexpr, hresult, hhistory⟩
    | false =>
      cases hv : evaluate t.evaluated with
      | ok v =>
        rw [equals_of_ok hempty hv, equals_of_ok (by rw [hexpr, hempty]) (by rw [heval, hv]), heval, hhistory]
        exact .refl _
      | error e =>
        rw [equals_of_error hempty hv, equals_of_error (by rw [hexpr, hempty]) (by rw [heval, hv])]
        exact ⟨hexpr, hresult, hhistory⟩

/-- A press that fails changes nothing else. -/
theorem SameButError.press_of_failure? (h : s.SameButError t) {k : Key} (hk : (s.failure? k).isSome = true) :
    (s.press k).SameButError t := by
  obtain ⟨e, he⟩ := Option.isSome_iff_exists.1 hk
  rw [(of_failure? he).2.2]
  exact ⟨h.expression, h.result, h.history⟩

/-- A run without the presses that fail in another one from the same state but for the error keeps up with it. -/
theorem SameButError.pressAll (h : s.SameButError t) (ks : List Key) :
    (s.pressAll ks).SameButError (t.pressAll (s.withoutFailures ks)) := by
  induction ks generalizing s t with
  | nil => exact h
  | cons k ks ih =>
    rw [withoutFailures]
    split
    · -- a press that is left out is made on one side only
      rename_i hk
      exact ih (h.press_of_failure? hk)
    · exact ih (h.press k)

/-- None of its own presses fails. -/
theorem SameButError.failure?_eq_none (h : s.SameButError t) {ks js : List Key} {k : Key}
    (hpre : js ++ [k] <+: s.withoutFailures ks) : (t.pressAll js).failure? k = none := by
  induction ks generalizing s t js with
  | nil => exact absurd (List.prefix_nil.1 hpre) (by simp)
  | cons i ks ih =>
    rw [withoutFailures] at hpre
    split at hpre
    · rename_i hi
      exact ih (h.press_of_failure? hi) hpre
    · rename_i hi
      -- the first press that is kept is the one asked for, or stands before it
      cases js with
      | nil =>
        obtain ⟨rfl, -⟩ := List.cons_prefix_cons.1 hpre
        rw [Option.not_isSome_iff_eq_none] at hi
        exact (failure?_congr h.expression k).symm.trans hi
      | cons j js =>
        obtain ⟨rfl, hrest⟩ := List.cons_prefix_cons.1 hpre
        exact ih (h.press j) hrest

/-! ## The expression of an error -/

/-- An error is current if the expression fails with it: then something is written, and the same error is set again. -/
theorem errorIsCurrent_iff_failure? : s.ErrorIsCurrent ↔ ∀ e, s.error = some e → s.failure? .equals = some e := by
  refine ⟨fun h e he => (h e he).2.1, fun h e he => ?_⟩
  obtain ⟨-, hne, hpress⟩ := of_failure? (h e he)
  refine ⟨hne, h e he, ?_⟩
  rw [hpress, ← he]

theorem errorIsCurrent_of_none (h : s.error = none) : s.ErrorIsCurrent := by
  intro e he
  rw [h] at he
  cases he

/-- A press that fails sets the error of the expression. -/
theorem errorIsCurrent_press {k : Key} {e : EvalError} (h : s.failure? k = some e) : (s.press k).ErrorIsCurrent := by
  obtain ⟨rfl, -, hpress⟩ := of_failure? h
  rw [hpress, errorIsCurrent_iff_failure?]
  intro x hx
  obtain rfl : e = x := Option.some.inj hx
  exact h

/-- Every press keeps the error current but one of the backspace key, which does so if the rest fails in the same way. -/
theorem ErrorIsCurrent.press (h : s.ErrorIsCurrent) {k : Key}
    (hk : k = .backspace → ∀ e, s.error = some e → s.backspace.failure? .equals = some e) : (s.press k).ErrorIsCurrent := by
  cases hfail : s.failure? k with
  | some e => exact errorIsCurrent_press hfail
  | none =>
    rcases of_failure?_none hfail with hnone | rfl | ⟨-, hsame⟩
    · exact errorIsCurrent_of_none hnone
    · exact errorIsCurrent_iff_failure?.2 (hk rfl)
    · rwa [hsame]

/-- Along a run the error is current if it is so after each press of the backspace key. -/
theorem ErrorIsCurrent.pressAll (h : s.ErrorIsCurrent) {ks : List Key}
    (hks : ∀ js e, js ++ [.backspace] <+: ks → (s.pressAll js).error = some e →
      (s.pressAll js).backspace.failure? .equals = some e) : (s.pressAll ks).ErrorIsCurrent := by
  induction ks using List.reverseRecOn with
  | nil => exact h
  | append_singleton ks k ih =>
    rw [pressAll_append]
    refine (ih fun js e hjs => hks js e (hjs.trans (List.prefix_append ks [k]))).press ?_
    rintro rfl e he
    exact hks ks e (List.prefix_refl _) he

/-- An error is that of the last evaluation that failed, and the expression is what is left of the one that was evaluated: after
it only the backspace key was pressed, and the sign of equality where nothing was written any more. -/
theorem exists_failure_of_error (h : s.error = none) {ks : List Key} {e : EvalError} (he : (s.pressAll ks).error = some e) :
    ∃ js rest, ks = js ++ .equals :: rest ∧ (∀ k ∈ rest, k = .backspace ∨ k = .equals) ∧
      (s.pressAll js).failure? .equals = some e ∧
      (s.pressAll ks).expression = (s.pressAll js).expression.rdrop (rest.count .backspace) := by
  induction ks using List.reverseRecOn generalizing e with
  | nil =>
    rw [show (s.pressAll []).error = none from h] at he
    cases he
  | append_singleton ks k ih =>
    have hrun : s.pressAll (ks ++ [k]) = (s.pressAll ks).press k := pressAll_append s ks [k]
    rw [hrun] at he ⊢
    cases hfail : (s.pressAll ks).failure? k with
    | some x =>
      obtain ⟨rfl, -, hpress⟩ := of_failure? hfail
      rw [hpress] at he ⊢
      obtain rfl : x = e := Option.some.inj he
      exact ⟨ks, [], rfl, by simp, hfail, (List.rdrop_zero _).symm⟩
    | none =>
      -- the error was there before, and the last key is one more of those pressed since
      rcases of_failure?_none hfail with hnone | rfl | ⟨rfl, hsame⟩
      · rw [hnone] at he
        cases he
      · obtain ⟨js, rest, rfl, hrest, hjs, hexpr⟩ := ih he
        refine ⟨js, rest ++ [.backspace], by simp, ?_, hjs, ?_⟩
        · simpa [or_imp, forall_and] using hrest
        · change (s.pressAll (js ++ .equals :: rest)).expression.dropLast = _
          rw [hexpr, List.count_append, List.count_singleton_self, List.rdrop, List.rdrop, List.dropLast_eq_take, List.take_take,
            List.length_take]
          congr 1
          omega
      · rw [hsame] at he ⊢
        obtain ⟨js, rest, rfl, hrest, hjs, hexpr⟩ := ih he
        refine ⟨js, rest ++ [.equals], by simp, ?_, hjs, ?_⟩
        · simpa [or_imp, forall_and] using hrest
        · rw [hexpr, List.count_append, List.count_singleton]
          rfl

end State

/-- Without the presses that fail in it, every run ends with the same expression, result and history, and none of the other
presses fails then. -/
theorem pressAll_withoutFailures (s : State) (ks : List Key) :
    (s.pressAll (s.withoutFailures ks)).expression = (s.pressAll ks).expression ∧
      (s.pressAll (s.withoutFailures ks)).result = (s.pressAll ks).result ∧
      (s.pressAll (s.withoutFailures ks)).history = (s.pressAll ks).history ∧
      ∀ js k, js ++ [k] <+: s.withoutFailures ks → (s.pressAll js).failure? k = none := by
  obtain ⟨hexpr, hresult, hhistory⟩ := (State.SameButError.refl s).pressAll ks
  exact ⟨hexpr.symm, hresult.symm, hhistory.symm, fun js k => (State.SameButError.refl s).failure?_eq_none⟩

/-- After any keys an error on screen is that of the last evaluation that failed, and the expression is what the backspace key
has left of the evaluated one. It is always that of the expression itself exactly if each press of the backspace key under an
error leaves an expression that fails in the same way. -/
theorem errorIsCurrent_pressAll_iff (ks : List Key) :
    (∀ e, (State.initial.pressAll ks).error = some e →
      ∃ js rest, ks = js ++ .equals :: rest ∧ (∀ k ∈ rest, k = .backspace ∨ k = .equals) ∧
        (State.initial.pressAll js).failure? .equals = some e ∧
        (State.initial.pressAll ks).expression = (State.initial.pressAll js).expression.rdrop (rest.count .backspace)) ∧
    ((∀ js, js <+: ks → (State.initial.pressAll js).ErrorIsCurrent) ↔
      ∀ js e, js ++ [.backspace] <+: ks → (State.initial.pressAll js).error = some e →
        (State.initial.pressAll js).backspace.failure? .equals = some e) := by
  refine ⟨fun e => State.exists_failure_of_error rfl, fun h js e hjs he => ?_, fun h js hjs => ?_⟩
  · have hcurrent := h _ hjs
    rw [State.pressAll_append] at hcurrent
    exact (hcurrent e he).2.1
  · refine State.ErrorIsCurrent.pressAll (State.errorIsCurrent_of_none rfl) fun is e his => ?_
    exact h is e (his.trans hjs)

/-- A division by zero that loses its divisor keeps its error, and has a value. A lone parenthesis that is removed leaves an error
without an expression, and the sign of equality does not take it off. -/
theorem errorIsCurrent_pressAll_counterexample :
    ¬(∀ ks, (State.initial.pressAll ks).ErrorIsCurrent) ∧
      (∃ s, State.initial.pressAll [.symbol '5', .symbol '/', .symbol '0', .equals, .backspace] = s ∧
        s = ⟨"5/".toList, State.noResult, [], some .zeroDivisor⟩ ∧ (s.press .equals).result = "5".toList) ∧
      ∃ s, State.initial.pressAll [.symbol '(', .equals, .backspace] = s ∧
        s = ⟨[], State.noResult, [], some .unbalanced⟩ ∧ s.press .equals = s := by
  have hparen : State.initial.pressAll [.symbol '(', .equals, .backspace] = ⟨[], State.noResult, [], some .unbalanced⟩ := by
    decide +kernel
  refine ⟨fun h => ?_, ⟨_, rfl, by decide +kernel, by decide +kernel⟩, _, rfl, hparen, ?_⟩
  · have hcurrent := h [.symbol '(', .equals, .backspace]
    rw [hparen] at hcurrent
    exact (hcurrent _ rfl).1 rfl
  · rw [hparen]
    rfl

end Calculator
