import Mathlib
import Calculator.State.Log

/-!
# The history and the log

The calculator keeps what its log says: the history is the ten newest calculations that succeeded, in their order, and the
result is the one that is due (`history_run`). An action keeps the agreement with the log (`State.Agrees.act`), so a run does.
-/

namespace Calculator

namespace State

/-- The calculator keeps what the marks say. -/
structure Agrees (s : State) (marks : List Mark) : Prop where
  history : s.history = (marks.filterMap Mark.entry?).take historyLimit
  result : s.result = Mark.result marks

theorem agrees_initial : initial.Agrees [] := ⟨rfl, rfl⟩

/-- Only the history and the result matter. -/
theorem Agrees.of_eq {s s' : State} {marks : List Mark} (h : s.Agrees marks) (hh : s'.history = s.history)
    (hr : s'.result = s.result) : s'.Agrees marks :=
  ⟨hh.trans h.history, hr.trans h.result⟩

/-- A new calculation is the newest one, and the oldest one is dropped when there are too many. -/
theorem Agrees.success {s : State} {marks : List Mark} (h : s.Agrees marks) (e : Entry) :
    Agrees ⟨[], e.value, (e :: s.history).take historyLimit, none⟩ (.success e :: marks) where
  history := by
    rw [h.history]
    simp [historyLimit, Mark.entry?, List.take_take]
  result := rfl

/-- An empty expression has no value. -/
theorem evaluate_evaluated_of_isEmpty {s : State} (h : s.expression.isEmpty = true) :
    evaluate s.evaluated = .error .malformed := by
  have hs : s.evaluated = [] := by simp [evaluated, List.isEmpty_iff.1 h]
  rw [hs]
  rfl

/-- An action leaves what the log says with its mark, if it has one. -/
theorem Agrees.act {s : State} {marks : List Mark} (h : s.Agrees marks) (a : Action) :
    (s.act a).Agrees ((s.mark? a).toList ++ marks) := by
  cases a with
  | write e => exact h.of_eq rfl rfl
  | key k =>
    cases k with
    | symbol c => exact h.of_eq rfl rfl
    | backspace => exact h.of_eq rfl rfl
    | clear => exact ⟨h.history, rfl⟩
    | equals =>
      change s.equals.Agrees _
      cases hempty : s.expression.isEmpty with
      | true =>
        rw [equals_of_isEmpty hempty, mark?, evaluate_evaluated_of_isEmpty hempty]
        exact h
      | false =>
        cases hv : evaluate s.evaluated with
        | ok v =>
          rw [equals_of_ok hempty hv, mark?, hv]
          exact h.success ⟨s.evaluated, v⟩
        | error e =>
          rw [equals_of_error hempty hv, mark?, hv]
          exact h.of_eq rfl rfl

/-- A run leaves what the log says. -/
theorem Agrees.run {s : State} {marks : List Mark} (h : s.Agrees marks) (as : List Action) :
    (s.run as).Agrees (s.log as ++ marks) := by
  induction as generalizing s marks with
  | nil => exact h
  | cons a as ih =>
    have hrest := ih (h.act a)
    rw [← List.append_assoc] at hrest
    exact hrest

end State

/-- After every run from a calculator that was just switched on, the lines of the history are the first ten of the
calculations that succeeded, the newest first, and the result is the value of the newest one, or zero when the calculator was
cleared after it or nothing succeeded. -/
theorem history_run (as : List Action) :
    (State.initial.run as).history.map Entry.text =
        (((State.initial.log as).filterMap Mark.entry?).map Entry.text).take 10 ∧
      (State.initial.run as).result = Mark.result (State.initial.log as) := by
  have h := State.agrees_initial.run as
  rw [List.append_nil] at h
  refine ⟨?_, h.result⟩
  rw [h.history, List.map_take]
  rfl

end Calculator
