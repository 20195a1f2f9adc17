import Mathlib
import Calculator.Expr

/-!
# Postfix programs and trees

The stack machine gives a value exactly for the postfix writings of trees, and that value is the tree's
(`evalPostfix_eq_ok_iff`). While a program runs, every number on the stack is the value of a tree, and the writings of these
trees in a row are the tokens that were read (`exists_trees_of_runPostfix`). A list of tokens is the writing of one tree at
most, since its last token is the root (`Expr.eq_of_append_toPostfix_eq`).
-/

namespace Calculator

namespace Expr

/-- Numbers at the leaves and operators at the inner nodes: no pair of parentheses has a node. -/
def Bare {ν : Type} : Expr ν → Prop
  | number _ => True
  | paren _ => False
  | binary _ l r => l.Bare ∧ r.Bare

/-- The postfix writings of some trees in a row, that of the last one first, as the numbers of a stack were pushed. -/
def writings : List (Expr Binary64) → List Token
  | [] => []
  | e :: es => writings es ++ e.toPostfix

/-! ## A writing has one tree -/

/-- A tree whose writing ends a list of tokens is told by the list, and so is what stands before the writing. -/
theorem eq_of_append_toPostfix_eq {e : Expr Binary64} (he : e.Bare) :
    ∀ {e' : Expr Binary64} {u u' : List Token}, e'.Bare → u ++ e.toPostfix = u' ++ e'.toPostfix → u = u' ∧ e = e' := by
  induction e with
  | number x =>
    intro e' u u' he' heq
    cases e' with
    | number y =>
      obtain ⟨huu, hxy⟩ := List.append_inj' heq rfl
      exact ⟨huu, by simpa [toPostfix] using hxy⟩
    | paren e' => exact he'.elim
    | binary o l r =>
      rw [toPostfix, toPostfix, ← List.append_assoc u'] at heq
      obtain ⟨-, hlast⟩ := List.append_inj' heq rfl
      simp at hlast
  | paren e _ => exact he.elim
  | binary o l r ihl ihr =>
    intro e' u u' he' heq
    cases e' with
    | number y =>
      rw [toPostfix, toPostfix, ← List.append_assoc u] at heq
      obtain ⟨-, hlast⟩ := List.append_inj' heq rfl
      simp at hlast
    | paren e' => exact he'.elim
    | binary o' l' r' =>
      rw [toPostfix, toPostfix, ← List.append_assoc u, ← List.append_assoc u'] at heq
      obtain ⟨hinit, hlast⟩ := List.append_inj' heq rfl
      rw [← List.append_assoc, ← List.append_assoc] at hinit
      obtain ⟨hleft, rfl⟩ := ihr he.2 he'.2 hinit
      obtain ⟨rfl, rfl⟩ := ihl he.1 he'.1 hleft
      obtain rfl : o = o' := by simpa using hlast
      exact ⟨rfl, rfl⟩

end Expr

/-! ## What is on the stack -/

/-- A run that begins with the values of some trees on the stack and does not fail ends with the values of some trees, and it
has read what their writings have more than those of the first ones. -/
theorem exists_trees_of_runPostfix {ts : List Token} :
    ∀ {es : List (Expr Binary64)} {st : List Binary64}, (∀ e ∈ es, e.Bare) → runPostfix ts (es.map Expr.value) = .ok st →
      ∃ es' : List (Expr Binary64), (∀ e ∈ es', e.Bare) ∧ st = es'.map Expr.value ∧ Expr.writings es' = Expr.writings es ++ ts := by
  induction ts with
  | nil =>
    intro es st hes h
    exact ⟨es, hes, (Except.ok.inj h).symm, (List.append_nil _).symm⟩
  | cons t ts ih =>
    intro es st hes h
    cases t with
    | number x =>
      have hpush : ∀ e ∈ Expr.number x :: es, e.Bare := by
        intro e he
        rcases List.mem_cons.1 he with rfl | he
        · trivial
        · exact hes e he
      have hrun : runPostfix ts ((Expr.number x :: es).map Expr.value) = .ok st := h
      obtain ⟨es', hes', hst, hread⟩ := ih hpush hrun
      exact ⟨es', hes', hst, by rw [hread, Expr.writings, List.append_assoc]; rfl⟩
    | op o =>
      match es with
      | [] => cases h
      | [_] => cases h
      | r :: l :: es =>
        -- the two upper trees become the operands of one
        have hpush : ∀ e ∈ Expr.binary o l r :: es, e.Bare := by
          intro e he
          rcases List.mem_cons.1 he with rfl | he
          · exact ⟨hes l (by simp), hes r (by simp)⟩
          · exact hes e (by simp [he])
        have hrun : runPostfix ts ((Expr.binary o l r :: es).map Expr.value) = .ok st := h
        obtain ⟨es', hes', hst, hread⟩ := ih hpush hrun
        exact ⟨es', hes', hst, by rw [hread]; simp [Expr.writings, Expr.toPostfix]⟩
    | lparen => cases h
    | rparen => cases h

/-- The machine has only one error. -/
theorem runPostfix_error {ts : List Token} {st : List Binary64} {x : EvalError} (h : runPostfix ts st = .error x) :
    x = .stackFault := by
  fun_induction runPostfix ts st with
  | case1 => cases h
  | case2 st y ts ih => exact ih h
  | case3 o ts b a st ih => exact ih h
  | case4 => exact (Except.error.inj h).symm

/-- A value is that of a tree of which the program is the writing. -/
theorem exists_tree_of_evalPostfix {ts : List Token} {v : Binary64} (h : evalPostfix ts = .ok v) :
    ∃ e : Expr Binary64, e.Bare ∧ ts = e.toPostfix ∧ v = e.value := by
  unfold evalPostfix at h
  cases hrun : runPostfix ts [] with
  | error x =>
    rw [hrun] at h
    cases h
  | ok st =>
    rw [hrun] at h
    have hrun' : runPostfix ts (([] : List (Expr Binary64)).map Expr.value) = .ok st := hrun
    obtain ⟨es, hes, rfl, hread⟩ := exists_trees_of_runPostfix (by simp) hrun'
    match es with
    | [] => cases h
    | [e] => exact ⟨e, hes e (by simp), hread.symm, (Except.ok.inj h).symm⟩
    | _ :: _ :: _ => cases h

theorem evalPostfix_error {ts : List Token} {x : EvalError} (h : evalPostfix ts = .error x) : x = .stackFault := by
  unfold evalPostfix at h
  cases hrun : runPostfix ts [] with
  | error y =>
    rw [hrun] at h
    obtain rfl := Except.error.inj h
    exact runPostfix_error hrun
  | ok st =>
    rw [hrun] at h
    match st with
    | [] => exact (Except.error.inj h).symm
    | [_] => cases h
    | _ :: _ :: _ => exact (Except.error.inj h).symm

/-- The stack machine accepts exactly the postfix writings: a program has the value `v` when it is the writing of a tree with
numbers at the leaves and operators at the inner nodes, and `v` is the value of that tree. There is one such tree at most, and
a program without one has the one error of the machine. -/
theorem evalPostfix_eq_ok_iff (ts : List Token) :
    (∀ v, evalPostfix ts = .ok v ↔ ∃ e : Expr Binary64, e.Bare ∧ ts = e.toPostfix ∧ v = e.value) ∧
      {e : Expr Binary64 | e.Bare ∧ ts = e.toPostfix}.Subsingleton ∧
      (evalPostfix ts = .error .stackFault ↔ ¬∃ e : Expr Binary64, e.Bare ∧ ts = e.toPostfix) := by
  refine ⟨fun v => ⟨exists_tree_of_evalPostfix, ?_⟩, ?_, ?_⟩
  · rintro ⟨e, -, rfl, rfl⟩
    exact e.evalPostfix_toPostfix
  · rintro e ⟨he, hw⟩ e' ⟨he', hw'⟩
    have heq : [] ++ e.toPostfix = [] ++ e'.toPostfix := congrArg ([] ++ ·) (hw.symm.trans hw')
    exact (Expr.eq_of_append_toPostfix_eq he he' heq).2
  · constructor
    · rintro h ⟨e, -, rfl⟩
      rw [e.evalPostfix_toPostfix] at h
      cases h
    · intro hno
      cases h : evalPostfix ts with
      | ok v =>
        obtain ⟨e, he, hw, -⟩ := exists_tree_of_evalPostfix h
        exact absurd ⟨e, he, hw⟩ hno
      | error x => rw [evalPostfix_error h]

end Calculator
