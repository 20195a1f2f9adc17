import Mathlib
import Calculator.Page
import Calculator.Proofs.Guard
import Calculator.Proofs.Typing

/-!
# The expressions that can be written

What the keys of the keyboard and the pad can make of an expression is a language that needs no calculator to be described
(`Text.Composed`): every key keeps it, and each of its texts is written by typing its characters (`composed_iff`). A text of
the language is one with a character appended that may follow it (`Text.composed_append_iff`), and all editing rules are read
off this.
-/

namespace Calculator

open State

/-- The keys that a user can send: those of the events of the keyboard, and those of the buttons of the pad. -/
def Key.IsSent (k : Key) : Prop := (∃ e : Event, k ∈ e.keys) ∨ ∃ b ∈ Button.pad.flatten, b.key = k

namespace Text

/-- A run of digits and points of a text that is not part of a longer one. -/
def IsRun (w s : List Char) : Prop :=
  ∃ u v, s = u ++ w ++ v ∧ (∀ c ∈ w, Literal.isNumeral c = true) ∧ (∀ c ∈ u.getLast?, Literal.isNumeral c = false) ∧
    ∀ c ∈ v.head?, Literal.isNumeral c = false

/-- The texts that can be written: the characters are those of expressions, an operator comes neither first nor after another
one, a minus sign does not come after an open parenthesis, and no run of digits and points has two points. -/
structure Composed (s : List Char) : Prop where
  chars : ∀ c ∈ s, c ∈ alphabet
  first : ∀ o : BinOp, s.head? ≠ some o.symbol
  apart : ∀ o p : BinOp, ¬[o.symbol, p.symbol] <:+: s
  minus : ¬['(', '-'] <:+: s
  points : ∀ w, IsRun w s → w.count '.' ≤ 1

end Text

/-! ## The keys -/

/-- The keys that are sent are those of the characters of expressions and the three that write none. -/
theorem Key.isSent_iff (k : Key) : k.IsSent ↔ ∀ c, k = .symbol c → c ∈ Text.alphabet := by
  constructor
  · rintro (⟨e, he⟩ | ⟨b, hb, rfl⟩) c hc
    · subst hc
      cases e with
      | text s =>
        obtain ⟨a, -, ha⟩ := List.mem_filterMap.1 he
        unfold Key.ofChar? at ha
        split at ha
        · rename_i hchar
          obtain rfl := Key.symbol.inj (Option.some.inj ha)
          exact (Guard.isExpressionChar_iff a).1 hchar
        · split at ha <;> cases ha
      | key name pressed => cases name <;> cases pressed <;> simp [Event.keys, Key.ofNamed?] at he
      | clipboard => cases he
    · have hpad : ∀ b ∈ Button.pad.flatten, b.key ∈ [.clear, .backspace, .equals] ++ Text.alphabet.map .symbol := by
        decide +kernel
      simpa [hc] using hpad b hb
  · intro h
    left
    cases k with
    | symbol c =>
      have hc := (Guard.isExpressionChar_iff c).2 (h c rfl)
      exact ⟨.text [c], by simp [Event.keys, Key.ofChar?, hc]⟩
    | clear => exact ⟨.key .escape true, by simp [Event.keys, Key.ofNamed?]⟩
    | backspace => exact ⟨.key .backspace true, by simp [Event.keys, Key.ofNamed?]⟩
    | equals => exact ⟨.key .enter true, by simp [Event.keys, Key.ofNamed?]⟩

namespace Text

/-! ## Runs of digits and points -/

/-- A run at the end of a text is its longest end without other characters. -/
theorem rtakeWhile_append {u w : List Char} (hw : ∀ c ∈ w, Literal.isNumeral c = true)
    (hu : ∀ c ∈ u.getLast?, Literal.isNumeral c = false) : (u ++ w).rtakeWhile Literal.isNumeral = w := by
  have hrev : ∀ c ∈ w.reverse, Literal.isNumeral c = true := fun c hc => hw c (List.mem_reverse.1 hc)
  have hnil : u.reverse.takeWhile Literal.isNumeral = [] := by
    rcases List.eq_nil_or_concat u with rfl | ⟨v, c, rfl⟩
    · rfl
    · have hc := hu c (by simp)
      simp [hc]
  rw [List.rtakeWhile, List.reverse_append, List.takeWhile_append_of_pos hrev, hnil, List.append_nil, List.reverse_reverse]

/-- The digits and points at the end of a beginning of a text belong to a run. -/
theorem exists_isRun {u s : List Char} (h : u <+: s) : ∃ v, IsRun (u.rtakeWhile Literal.isNumeral ++ v) s := by
  obtain ⟨v, rfl⟩ := h
  refine ⟨v.takeWhile Literal.isNumeral, u.rdropWhile Literal.isNumeral, v.dropWhile Literal.isNumeral, ?_, ?_, ?_, ?_⟩
  · rw [← List.append_assoc, List.rdropWhile_append_rtakeWhile, List.append_assoc, List.takeWhile_append_dropWhile]
  · intro c hc
    rcases List.mem_append.1 hc with hc | hc
    · exact List.mem_rtakeWhile_imp hc
    · exact List.mem_takeWhile_imp hc
  · intro c hc
    obtain ⟨hne, rfl⟩ := List.mem_getLast?_eq_getLast hc
    simpa using List.rdropWhile_last_not Literal.isNumeral u hne
  · intro c hc
    have hhead := List.head?_dropWhile_not Literal.isNumeral v
    rw [Option.mem_def.1 hc] at hhead
    simpa using hhead

/-- No run has two points if no beginning of the text ends with two of them in a row of digits and points. -/
theorem points_iff (s : List Char) :
    (∀ w, IsRun w s → w.count '.' ≤ 1) ↔ ∀ u, u <+: s → (u.rtakeWhile Literal.isNumeral).count '.' ≤ 1 := by
  constructor
  · intro h u hu
    obtain ⟨v, hv⟩ := exists_isRun hu
    exact ((List.sublist_append_left _ v).count_le '.').trans (h _ hv)
  · rintro h w ⟨u, v, rfl, hw, hu, -⟩
    have hcount := h (u ++ w) (List.prefix_append _ v)
    rwa [rtakeWhile_append hw hu] at hcount

/-- The last number of a text of the alphabet is what it ends with of digits and points. -/
theorem lastNumber_eq {s : List Char} (hs : ∀ c ∈ s, c ∈ alphabet) : lastNumber s = s.rtakeWhile Literal.isNumeral := by
  have hall : (alphabet.all fun c => (!isDelimiter c) == Literal.isNumeral c) = true := by decide
  have htake : ∀ t : List Char, (∀ c ∈ t, c ∈ alphabet) →
      t.takeWhile (!isDelimiter ·) = t.takeWhile Literal.isNumeral := by
    intro t ht
    induction t with
    | nil => rfl
    | cons c t ih =>
      have hc := beq_iff_eq.1 (List.all_eq_true.1 hall c (ht c List.mem_cons_self))
      rw [List.takeWhile_cons, List.takeWhile_cons, hc, ih fun a ha => ht a (List.mem_cons_of_mem c ha)]
  rw [lastNumber, List.rtakeWhile, htake _ fun c hc => hs c (List.mem_reverse.1 hc)]

/-! ## Appending a character -/

/-- The character may come after the text. -/
structure MayFollow (s : List Char) (c : Char) : Prop where
  char : c ∈ alphabet
  operator : isOperator c = true → s ≠ [] ∧ endsWithOperator s = false
  minus : c = '-' → s.getLast? ≠ some '('
  point : c = '.' → '.' ∉ lastNumber s

theorem isOperator_iff (c : Char) : isOperator c = true ↔ ∃ o : BinOp, c = o.symbol := by
  constructor
  · intro h
    obtain ⟨o, ho⟩ := Option.isSome_iff_exists.1 h
    exact ⟨o, BinOp.eq_symbol_of_ofChar? ho⟩
  · rintro ⟨o, rfl⟩
    exact isOperator_symbol o

/-- A pair of neighbours in a text with one more character is there already, or ends with the new one. -/
theorem pair_infix_append_iff (a b c : Char) (s : List Char) :
    [a, b] <:+: s ++ [c] ↔ [a, b] <:+: s ∨ s.getLast? = some a ∧ b = c := by
  rw [List.infix_concat_iff, List.suffix_concat_iff, or_comm]
  refine or_congr_right ⟨?_, ?_⟩
  · rintro (h | ⟨t, ht, u, rfl⟩)
    · cases h
    · obtain ⟨rfl, hb⟩ := List.append_inj' (show [a] ++ [b] = t ++ [c] from ht) rfl
      exact ⟨by simp, by simpa using hb⟩
  · rintro ⟨ha, rfl⟩
    obtain ⟨u, rfl⟩ := List.getLast?_eq_some_iff.1 ha
    exact Or.inr ⟨[a], rfl, u, rfl⟩

theorem endsWithOperator_iff (s : List Char) : endsWithOperator s = true ↔ ∃ o : BinOp, s.getLast? = some o.symbol := by
  rw [endsWithOperator, Option.any_eq_true]
  constructor
  · rintro ⟨c, hc, hop⟩
    obtain ⟨o, rfl⟩ := (isOperator_iff c).1 hop
    exact ⟨o, hc⟩
  · rintro ⟨o, ho⟩
    exact ⟨o.symbol, ho, isOperator_symbol o⟩

theorem composed_nil : Composed [] where
  chars := by simp
  first := by simp
  apart := by simp
  minus := by simp
  points := by
    rintro w ⟨u, v, h, -⟩
    simp_all

/-- What was written before can be written. -/
theorem Composed.of_append {s v : List Char} (h : Composed (s ++ v)) : Composed s where
  chars c hc := h.chars c (List.mem_append_left v hc)
  first o ho := h.first o (by rw [List.head?_append, ho]; rfl)
  apart o p hpair := h.apart o p (hpair.trans (List.prefix_append s v).isInfix)
  minus hpair := h.minus (hpair.trans (List.prefix_append s v).isInfix)
  points := (points_iff s).2 fun u hu => (points_iff _).1 h.points u (hu.trans (List.prefix_append s v))

/-- The last character of a text that can be written may follow those before it. -/
theorem Composed.mayFollow {s : List Char} {c : Char} (h : Composed (s ++ [c])) : MayFollow s c where
  char := h.chars c (by simp)
  operator := by
    intro hop
    obtain ⟨o, rfl⟩ := (isOperator_iff c).1 hop
    refine ⟨?_, Bool.eq_false_iff.2 fun hend => ?_⟩
    · rintro rfl
      exact h.first o rfl
    · obtain ⟨p, hp⟩ := (endsWithOperator_iff s).1 hend
      exact h.apart p o ((pair_infix_append_iff _ _ _ s).2 (Or.inr ⟨hp, rfl⟩))
  minus := by
    rintro rfl hparen
    exact h.minus ((pair_infix_append_iff _ _ _ s).2 (Or.inr ⟨hparen, rfl⟩))
  point := by
    rintro rfl hmem
    have hcount := (points_iff _).1 h.points _ (List.prefix_refl _)
    rw [lastNumber_eq h.of_append.chars, ← List.count_pos_iff] at hmem
    rw [List.rtakeWhile_concat_pos _ _ _ (by decide), List.count_append, List.count_singleton_self] at hcount
    omega

/-- A text that can be written, with a character that may follow it. -/
theorem Composed.append {s : List Char} {c : Char} (h : Composed s) (hc : MayFollow s c) : Composed (s ++ [c]) where
  chars := by
    intro a ha
    rcases List.mem_append.1 ha with ha | ha
    · exact h.chars a ha
    · rw [List.mem_singleton.1 ha]
      exact hc.char
  first := by
    intro o ho
    cases s with
    | nil =>
      obtain rfl := Option.some.inj ho
      exact (hc.operator (isOperator_symbol o)).1 rfl
    | cons a s => exact h.first o ho
  apart := by
    intro o p hpair
    rcases (pair_infix_append_iff _ _ _ s).1 hpair with hpair | ⟨hlast, rfl⟩
    · exact h.apart o p hpair
    · have hend := (endsWithOperator_iff s).2 ⟨o, hlast⟩
      rw [(hc.operator (isOperator_symbol p)).2] at hend
      cases hend
  minus := by
    intro hpair
    rcases (pair_infix_append_iff _ _ _ s).1 hpair with hpair | ⟨hlast, rfl⟩
    · exact h.minus hpair
    · exact hc.minus rfl hlast
  points := by
    have hpoints := (points_iff s).1 h.points
    refine (points_iff _).2 fun u hu => ?_
    rcases List.prefix_concat_iff.1 hu with rfl | hu
    · by_cases hnum : Literal.isNumeral c = true
      · have hcount := hpoints s (List.prefix_refl s)
        rw [List.rtakeWhile_concat_pos _ _ _ hnum, List.count_append]
        by_cases hdot : c = '.'
        · have hmem := hc.point hdot
          rw [lastNumber_eq h.chars] at hmem
          rw [List.count_eq_zero.2 hmem, hdot]
          decide
        · rw [List.count_singleton, if_neg (by simpa using hdot)]
          exact hcount
      · rw [List.rtakeWhile_concat_neg _ _ _ hnum]
        exact Nat.zero_le 1
    · exact hpoints u hu

/-- A text that can be written is a shorter one and a character that may follow it. -/
theorem composed_append_iff (s : List Char) (c : Char) : Composed (s ++ [c]) ↔ Composed s ∧ MayFollow s c :=
  ⟨fun h => ⟨h.of_append, h.mayFollow⟩, fun h => h.1.append h.2⟩

/-! ## The keys keep the language -/

/-- A character that may follow is appended, whatever it is. -/
theorem MayFollow.extend_eq {s : List Char} {c : Char} (h : MayFollow s c) : extend s c = s ++ [c] := by
  unfold extend
  by_cases hdot : c = '.'
  · rw [if_pos hdot, if_neg (h.point hdot), hdot]
  rw [if_neg hdot]
  by_cases hop : isOperator c = true
  · obtain ⟨hne, hend⟩ := h.operator hop
    have hempty : s.isEmpty = false := List.isEmpty_eq_false_iff.2 hne
    have hminus : (c = '-' && expectsOperand s) = false := by
      by_cases hc : c = '-'
      · simp [expectsOperand, hempty, hend, h.minus hc]
      · simp [hc]
    rw [if_pos hop, hminus, hempty, hend]
    rfl
  · rw [if_neg hop]

/-- A digit or a parenthesis may follow everything. -/
theorem mayFollow_of_plain (s : List Char) {c : Char} (hc : c ∈ alphabet) (hop : isOperator c = false) (hdot : c ≠ '.') :
    MayFollow s c where
  char := hc
  operator h := absurd h (Bool.eq_false_iff.1 hop)
  minus := by
    rintro rfl
    cases hop
  point h := absurd h hdot

/-- An operator that is appended may follow: it comes after an operand, or after an open parenthesis if it is no minus sign.
-/
theorem mayFollow_of_operator {s : List Char} {c : Char} (hc : c ∈ alphabet) (hne : s ≠ []) (hend : endsWithOperator s = false)
    (hminus : c = '-' → s.getLast? ≠ some '(') (hdot : c ≠ '.') : MayFollow s c :=
  ⟨hc, fun _ => ⟨hne, hend⟩, hminus, fun h => absurd h hdot⟩

/-- An operator other than the minus sign may take the place of one. -/
theorem Composed.replace {s : List Char} {c : Char} (h : Composed s) (hs : endsWithOperator s = true) (hc : c ∈ alphabet)
    (hminus : c ≠ '-') (hdot : c ≠ '.') : Composed (s.dropLast ++ [c]) := by
  obtain ⟨o, ho⟩ := (endsWithOperator_iff s).1 hs
  obtain ⟨v, rfl⟩ := List.getLast?_eq_some_iff.1 ho
  obtain ⟨hne, hend⟩ := h.mayFollow.operator (isOperator_symbol o)
  rw [List.dropLast_concat]
  exact h.of_append.append (mayFollow_of_operator hc hne hend (fun hm => absurd hm hminus) hdot)

/-- A minus sign of an operand is written with a zero, which may follow everything, and may follow the zero. -/
theorem Composed.append_minus {s : List Char} (h : Composed s) : Composed (s ++ ['0', '-']) := by
  have hzero := h.append (mayFollow_of_plain s (by decide : '0' ∈ alphabet) rfl (by decide))
  have hend : endsWithOperator (s ++ ['0']) = false := by simp [endsWithOperator, isOperator, BinOp.ofChar?]
  rw [List.append_cons]
  exact hzero.append (mayFollow_of_operator (by decide) (by simp) hend (by simp) (by decide))

/-- Every character keeps the language, by whichever rule it is added. -/
theorem Composed.extend {s : List Char} {c : Char} (h : Composed s) (hc : c ∈ alphabet) : Composed (extend s c) := by
  unfold State.extend
  by_cases hdot : c = '.'
  · rw [if_pos hdot]
    split
    · exact h
    · rename_i hmem
      subst hdot
      exact h.append ⟨hc, fun hop => absurd hop (by decide), fun hm => absurd hm (by decide), fun _ => hmem⟩
  rw [if_neg hdot]
  by_cases hop : isOperator c = true
  · rw [if_pos hop]
    split
    · exact h.append_minus
    rename_i hminus
    simp only [Bool.and_eq_true, decide_eq_true_eq, not_and, Bool.not_eq_true] at hminus
    split
    · exact h
    rename_i hempty
    split
    · rename_i hend
      refine h.replace hend hc (fun hm => ?_) hdot
      have hexpects := hminus hm
      simp [expectsOperand, hend] at hexpects
    · rename_i hend
      refine h.append (mayFollow_of_operator hc (by simpa using hempty) (by simpa using hend) (fun hm => ?_) hdot)
      have hexpects := hminus hm
      simp only [expectsOperand, Bool.or_eq_false_iff, beq_eq_false_iff_ne] at hexpects
      exact hexpects.2
  · rw [if_neg hop]
    exact h.append (mayFollow_of_plain s hc (by simpa using hop) hdot)

/-- So does removing the last one. -/
theorem Composed.dropLast {s : List Char} (h : Composed s) : Composed s.dropLast := by
  rcases List.eq_nil_or_concat s with rfl | ⟨v, c, rfl⟩
  · exact h
  · rw [List.concat_eq_append] at h ⊢
    rw [List.dropLast_concat]
    exact h.of_append

/-- Typing a text of the language writes it. -/
theorem Composed.foldl_extend {s : List Char} (h : Composed s) : s.foldl State.extend [] = s := by
  induction s using List.reverseRecOn with
  | nil => rfl
  | append_singleton s c ih =>
    obtain ⟨hs, hc⟩ := (composed_append_iff s c).1 h
    rw [List.foldl_append, ih hs]
    exact hc.extend_eq

end Text

namespace State

/-- The sign of equality leaves the expression as it is, or leaves none. -/
theorem equals_expression (s : State) : s.equals.expression = s.expression ∨ s.equals.expression = [] := by
  unfold equals
  split
  · exact Or.inl rfl
  · split
    · exact Or.inr rfl
    · exact Or.inl rfl

/-- A key keeps the language. -/
theorem composed_press {s : State} {k : Key} (h : Text.Composed s.expression) (hk : k.IsSent) :
    Text.Composed (s.press k).expression := by
  cases k with
  | symbol c => exact h.extend ((Key.isSent_iff _).1 hk c rfl)
  | clear => exact Text.composed_nil
  | backspace => exact h.dropLast
  | equals =>
    rcases s.equals_expression with heq | heq
    · exact heq.symm ▸ h
    · exact heq.symm ▸ Text.composed_nil

/-- All keys keep it. -/
theorem composed_pressAll {s : State} {ks : List Key} (h : Text.Composed s.expression) (hk : ∀ k ∈ ks, k.IsSent) :
    Text.Composed (s.pressAll ks).expression := by
  induction ks generalizing s with
  | nil => exact h
  | cons k ks ih =>
    exact ih (composed_press h (hk k List.mem_cons_self)) fun j hj => hk j (List.mem_cons_of_mem k hj)

/-- Typing is pressing the keys of the characters. -/
theorem pressAll_map_symbol (s : State) (w : List Char) : s.pressAll (w.map .symbol) = s.addAll w := by
  rw [pressAll, addAll, List.foldl_map]
  rfl

end State

/-- The expressions that keys can write, in any order, are the texts of the language, and these are the texts of characters of
expressions that are written as they are typed. -/
theorem composed_iff (s : List Char) :
    ((∃ ks : List Key, (∀ k ∈ ks, k.IsSent) ∧ (State.initial.pressAll ks).expression = s) ↔ Text.Composed s) ∧
      (Text.Composed s ↔ (∀ c ∈ s, c ∈ Text.alphabet) ∧ (State.initial.addAll s).expression = s) := by
  have hkeys : (∀ c ∈ s, c ∈ Text.alphabet) → ∀ k ∈ s.map Key.symbol, k.IsSent := by
    intro hs k hk
    obtain ⟨c, hc, rfl⟩ := List.mem_map.1 hk
    exact (Key.isSent_iff _).2 fun a ha => Key.symbol.inj ha ▸ hs c hc
  have htyped : Text.Composed s → (State.initial.addAll s).expression = s := by
    intro h
    rw [addAll_expression]
    exact h.foldl_extend
  refine ⟨⟨?_, fun h => ⟨s.map .symbol, hkeys h.chars, ?_⟩⟩, fun h => ⟨h.chars, htyped h⟩, ?_⟩
  · rintro ⟨ks, hk, rfl⟩
    exact State.composed_pressAll Text.composed_nil hk
  · rw [pressAll_map_symbol, htyped h]
  · rintro ⟨hs, h⟩
    rw [← h, ← pressAll_map_symbol]
    exact State.composed_pressAll Text.composed_nil (hkeys hs)

end Calculator
