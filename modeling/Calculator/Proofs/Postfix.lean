import Mathlib
import Calculator.Proofs.Scan

/-!
# The conversion to postfix order and the grammar

The conversion succeeds on the sums of the grammar and on nothing else, and gives the postfix writing of the tree. Two facts
make it up. A word of a level that is read where an operand may come leaves its tree behind: in part as output, in part as
pending operators of that level or above (`Yard.Reads`). And the conversion accepts and refuses what the scan without a stack
does (`Yard.run_scan`, `Yard.finish_scan`), whose invariant gives the tree of what it accepts.
-/

namespace Calculator

namespace Yard

/-! ## Pending operators -/

/-- The output after some pending operators were moved to it, the last one first. -/
def flush (out : List Token) (qs : List BinOp) : List Token := (qs.map Token.op).reverse ++ out

theorem flush_cons (out : List Token) (q : BinOp) (qs : List BinOp) : flush out (q :: qs) = flush (.op q :: out) qs := by
  simp [flush]

theorem flush_concat (out : List Token) (qs : List BinOp) (q : BinOp) : flush out (qs ++ [q]) = .op q :: flush out qs := by
  simp [flush]

/-- The last pending item is no operator that binds as tightly as `n`. -/
def Below (n : Nat) : List Pending → Prop
  | .op p :: _ => p.precedence < n
  | _ => True

theorem Below.mono {n m : Nat} (h : n ≤ m) {ps : List Pending} (hp : Below n ps) : Below m ps := by
  match ps with
  | [] => trivial
  | .paren :: _ => trivial
  | .op p :: _ => exact Nat.lt_of_lt_of_le hp h

/-- An operator releases the operators that bind at least as tightly, and stops below them. -/
theorem release_flush {o : BinOp} {qs : List BinOp} {ps : List Pending} (hq : ∀ q ∈ qs, o.precedence ≤ q.precedence)
    (hp : Below o.precedence ps) (out : List Token) :
    release o out (qs.map .op ++ ps) = (flush out qs, ps) := by
  induction qs generalizing out with
  | nil =>
    match ps with
    | [] => rfl
    | .paren :: _ => rfl
    | .op p :: ps =>
      have hlt : ¬o.precedence ≤ p.precedence := Nat.not_le.2 hp
      simp only [List.map_nil, List.nil_append, release, if_neg hlt]
      rfl
  | cons q qs ih =>
    simp only [List.map_cons, List.cons_append, release, if_pos (hq q (by simp))]
    rw [ih (fun q hq' => hq q (by simp [hq'])), flush_cons]

theorem close?_flush (out : List Token) (qs : List BinOp) (ps : List Pending) :
    close? out (qs.map .op ++ .paren :: ps) = some (flush out qs, ps) := by
  induction qs generalizing out with
  | nil => rfl
  | cons q qs ih => exact (ih _).trans (by rw [flush_cons])

theorem drain?_flush (out : List Token) (qs : List BinOp) : drain? out (qs.map .op) = some (flush out qs) := by
  induction qs generalizing out with
  | nil => rfl
  | cons q qs ih => exact (ih _).trans (by rw [flush_cons])

/-! ## Reading a word of the grammar -/

/-- The word is read as the tree: from every state where an operand may come and no operator that binds as tightly as `n` is
on top, it leads to a state that has the postfix writing of the tree as new output, but for some operators that bind at least
as tightly as `n` and are pending. -/
def Reads (n : Nat) (w : List Token) (e : Expr Binary64) : Prop :=
  ∀ out ps, Below n ps → ∃ out' qs, run w ⟨out, ps, true⟩ = .ok ⟨out', qs.map .op ++ ps, false⟩ ∧
    (∀ q ∈ qs, n ≤ q.precedence) ∧ flush out' qs = e.toPostfix.reverse ++ out

theorem Reads.mono {n m : Nat} (h : n ≤ m) {w : List Token} {e : Expr Binary64} (hr : Reads m w e) : Reads n w e := by
  intro out ps hp
  obtain ⟨out', qs, hrun, hq, hout⟩ := hr out ps (hp.mono h)
  exact ⟨out', qs, hrun, fun q hq' => Nat.le_trans h (hq q hq'), hout⟩

theorem reads_number (n : Nat) (x : Binary64) : Reads n [.number x] (.number x) :=
  fun out _ _ => ⟨.number x :: out, [], rfl, by simp, rfl⟩

/-- Between parentheses nothing outside is on top, and the closing one releases all operators of the inside. -/
theorem reads_paren (n : Nat) {w : List Token} {e : Expr Binary64} (h : Reads 1 w e) :
    Reads n (.lparen :: (w ++ [.rparen])) (.paren e) := by
  intro out ps _
  obtain ⟨out', qs, hrun, -, hout⟩ := h out (.paren :: ps) trivial
  refine ⟨flush out' qs, [], ?_, by simp, hout⟩
  have hopen : run (.lparen :: (w ++ [.rparen])) ⟨out, ps, true⟩ = run (w ++ [.rparen]) ⟨out, .paren :: ps, true⟩ := rfl
  rw [hopen, run_append, hrun]
  change run [.rparen] _ = _
  simp only [run, step, close?_flush]
  rfl

/-- An operator releases what is pending of its left operand, and is pending itself below what is pending of its right one.
-/
theorem reads_binary {o : BinOp} {v w : List Token} {l r : Expr Binary64} (hl : Reads o.precedence v l)
    (hr : Reads (o.precedence + 1) w r) : Reads o.precedence (v ++ .op o :: w) (.binary o l r) := by
  intro out ps hp
  obtain ⟨out₁, qs₁, hrun₁, hq₁, hout₁⟩ := hl out ps hp
  obtain ⟨out₂, qs₂, hrun₂, hq₂, hout₂⟩ := hr (flush out₁ qs₁) (.op o :: ps) (Nat.lt_succ_self _)
  refine ⟨out₂, qs₂ ++ [o], ?_, ?_, ?_⟩
  · have hstep : step ⟨out₁, qs₁.map .op ++ ps, false⟩ (.op o) = .ok ⟨flush out₁ qs₁, .op o :: ps, true⟩ := by
      simp only [step, release_flush hq₁ hp]
      rfl
    have hop : run (.op o :: w) ⟨out₁, qs₁.map .op ++ ps, false⟩ = run w ⟨flush out₁ qs₁, .op o :: ps, true⟩ := by
      rw [run, hstep]
      rfl
    rw [run_append, hrun₁]
    simp only [List.map_append, List.append_assoc]
    exact hop.trans hrun₂
  · intro q hq
    rcases List.mem_append.1 hq with hq | hq
    · exact Nat.le_of_succ_le (hq₂ q hq)
    · rw [List.mem_singleton.1 hq]
  · rw [flush_concat, hout₂, hout₁]
    simp [Expr.toPostfix]

/-- Every word of a level is read as its tree. -/
theorem reads_of_derives {l : Level} {w : List Token} {e : Expr Binary64} (h : Derives Spelling.tokens l w e) :
    Reads l.binding w e := by
  induction h with
  | number hw =>
    obtain rfl := hw
    exact reads_number _ _
  | paren _ ih => exact reads_paren _ ih
  | factor _ ih => exact ih.mono (by decide)
  | @product _ _ _ _ o ho _ _ ihl ihr =>
    rw [show Level.term.binding = o.precedence from ho.symm]
    exact reads_binary (by rw [ho]; exact ihl) (by rw [ho]; exact ihr)
  | term _ ih => exact ih.mono (by decide)
  | @sum _ _ _ _ o ho _ _ ihl ihr =>
    rw [show Level.sum.binding = o.precedence from ho.symm]
    exact reads_binary (by rw [ho]; exact ihl) (by rw [ho]; exact ihr)

/-! ## What is seen without the stack -/

/-- What a scan knows of a conversion under way. -/
def scan (y : Yard) : Scan := ⟨y.expectOperand, y.pending.count .paren⟩

theorem count_release (o : BinOp) (out : List Token) (ps : List Pending) :
    (release o out ps).2.count .paren = ps.count .paren := by
  fun_induction release o out ps with
  | case1 out p ps h ih => simpa using ih
  | case2 => rfl
  | case3 => rfl

/-- A parenthesis can be closed when one is open, and there is one less afterwards. -/
theorem close?_eq (out : List Token) (ps : List Pending) :
    (close? out ps = none ∧ ps.count .paren = 0) ∨
      ∃ out' ps', close? out ps = some (out', ps') ∧ ps.count .paren = ps'.count .paren + 1 := by
  fun_induction close? out ps with
  | case1 => exact Or.inl ⟨rfl, rfl⟩
  | case2 out ps => exact Or.inr ⟨out, ps, rfl, by simp⟩
  | case3 out o ps ih => simpa using ih

theorem drain?_eq (out : List Token) (ps : List Pending) :
    (drain? out ps = none ∧ ps.count .paren ≠ 0) ∨ ∃ out', drain? out ps = some out' ∧ ps.count .paren = 0 := by
  fun_induction drain? out ps with
  | case1 out => exact Or.inr ⟨out, rfl, rfl⟩
  | case2 => exact Or.inl ⟨rfl, by simp⟩
  | case3 out o ps ih => simpa using ih

/-- One token is accepted or refused as the scan does it. -/
theorem step_scan (y : Yard) (t : Token) : (y.step t).map scan = y.scan.step t := by
  obtain ⟨out, ps, expect⟩ := y
  cases expect with
  | true => cases t <;> simp [step, Scan.step, scan, Except.map]
  | false =>
    cases t with
    | number x => rfl
    | lparen => rfl
    | rparen =>
      rcases close?_eq out ps with ⟨hc, hn⟩ | ⟨out', ps', hc, hn⟩
      · simp [step, Scan.step, scan, Except.map, hc, hn]
      · simp [step, Scan.step, scan, Except.map, hc, hn]
    | op o => simp [step, Scan.step, scan, Except.map, count_release]

/-- The same for all tokens. -/
theorem run_scan (ts : List Token) (y : Yard) : (run ts y).map scan = Scan.run ts y.scan := by
  induction ts generalizing y with
  | nil => rfl
  | cons t ts ih =>
    have h := step_scan y t
    simp only [run, Scan.run]
    cases hy : y.step t with
    | error e =>
      rw [hy] at h
      rw [← h]
      rfl
    | ok y' =>
      rw [hy] at h
      rw [← h]
      exact ih y'

/-- The end is accepted or refused as the scan does it. -/
theorem finish_scan (y : Yard) :
    y.finish.map (fun _ => ()) =
      if y.expectOperand then .error .malformed else if y.scan.depth = 0 then .ok () else .error .unbalanced := by
  obtain ⟨out, ps, expect⟩ := y
  cases expect with
  | true => rfl
  | false =>
    rcases drain?_eq out ps with ⟨hd, hn⟩ | ⟨out', hd, hn⟩
    · simp [finish, scan, Except.map, hd, hn]
    · simp [finish, scan, Except.map, hd, hn]

end Yard

/-! ## The conversion as a whole -/

/-- A sum is converted to the postfix writing of its tree. -/
theorem toPostfix_of_derives {ts : List Token} {e : Expr Binary64} (h : Derives Spelling.tokens .sum ts e) :
    toPostfix ts = .ok e.toPostfix := by
  obtain ⟨out, qs, hrun, -, hout⟩ := Yard.reads_of_derives h [] [] trivial
  unfold toPostfix
  rw [Yard.start, hrun]
  change Yard.finish ⟨out, qs.map .op ++ [], false⟩ = _
  simp only [List.append_nil] at hout
  simp [Yard.finish, Yard.drain?_flush, hout]

/-- The outcome of the scan is what is seen of the conversion when only errors are looked at. -/
theorem toPostfix_scan (ts : List Token) : (toPostfix ts).map (fun _ => ()) = Scan.outcome ts := by
  have h := Yard.run_scan ts .start
  unfold toPostfix Scan.outcome
  change _ = (Scan.run ts Yard.start.scan >>= _)
  rw [← h]
  cases Yard.run ts .start with
  | error e => rfl
  | ok y => exact Yard.finish_scan y

/-- A conversion that does not fail gives a program. -/
theorem map_toPostfix_eq_ok_iff (ts : List Token) :
    (toPostfix ts).map (fun _ => ()) = .ok () ↔ ∃ r, toPostfix ts = .ok r := by
  cases toPostfix ts with
  | ok r => exact iff_of_true rfl ⟨r, rfl⟩
  | error e => exact iff_of_false (fun h => nomatch h) (fun ⟨_, h⟩ => nomatch h)

theorem map_toPostfix_eq_error_iff (ts : List Token) (e : EvalError) :
    (toPostfix ts).map (fun _ => ()) = .error e ↔ toPostfix ts = .error e := by
  cases toPostfix ts with
  | ok r => exact iff_of_false (fun h => nomatch h) (fun h => nomatch h)
  | error e' => exact ⟨fun h => congrArg Except.error (Except.error.inj h), fun h => congrArg Except.error (Except.error.inj h)⟩

/-- The conversion has the outcome of the scan without a stack: it succeeds on the same lists and fails with the same errors.
It fails at the same token too, since after every beginning of the list both have the same error, or both expect the same and
the open parentheses among the pending items are as many as the scan has counted. -/
theorem toPostfix_outcome (ts : List Token) :
    ((∃ r, toPostfix ts = .ok r) ↔ Scan.outcome ts = .ok ()) ∧
      (∀ e, toPostfix ts = .error e ↔ Scan.outcome ts = .error e) ∧
      ∀ us, us <+: ts → (Yard.run us .start).map Yard.scan = Scan.run us .start := by
  refine ⟨?_, fun e => ?_, fun us _ => Yard.run_scan us .start⟩
  · rw [← toPostfix_scan, map_toPostfix_eq_ok_iff]
  · rw [← toPostfix_scan, map_toPostfix_eq_error_iff]

/-- The scan succeeds only on lists that end with no operand expected and no parenthesis open. -/
theorem Scan.run_of_outcome_ok {ts : List Token} (h : Scan.outcome ts = .ok ()) :
    Scan.run ts Scan.start = .ok ⟨false, 0⟩ := by
  unfold Scan.outcome at h
  cases hr : Scan.run ts Scan.start with
  | error e =>
    rw [hr] at h
    cases h
  | ok s =>
    obtain ⟨expect, d⟩ := s
    rw [hr] at h
    change (if expect = true then _ else if d = 0 then _ else _) = _ at h
    split at h
    · cases h
    · split at h
      · simp_all
      · cases h

/-- A list of tokens that is converted is a sum. -/
theorem exists_derives_of_toPostfix {ts r : List Token} (h : toPostfix ts = .ok r) :
    ∃ e, Derives Spelling.tokens .sum ts e ∧ r = e.toPostfix := by
  have hs := toPostfix_scan ts
  rw [h] at hs
  obtain ⟨e, he⟩ := Scan.exists_derives (Scan.run_of_outcome_ok hs.symm)
  have hr := toPostfix_of_derives he
  exact ⟨e, he, Except.ok.inj (h.symm.trans hr)⟩

/-- The conversion is exact: it gives `r` when `r` is the postfix writing of the tree of the tokens, and a list of tokens has
at most one tree. In the tree, multiplications and divisions bind tighter than additions and subtractions, operators of one
level group to the left, and parentheses override both. -/
theorem toPostfix_eq_ok_iff (ts r : List Token) :
    (toPostfix ts = .ok r ↔ ∃ e, Derives Spelling.tokens .sum ts e ∧ r = e.toPostfix) ∧
      {e | Derives Spelling.tokens .sum ts e}.Subsingleton ∧ ∀ e, Derives Spelling.tokens .sum ts e → e.Grouped := by
  refine ⟨⟨exists_derives_of_toPostfix, ?_⟩, Derives.subsingleton Spelling.tokens_lawful _ _, fun e he => he.grouped.2⟩
  rintro ⟨e, he, rfl⟩
  exact toPostfix_of_derives he

end Calculator
