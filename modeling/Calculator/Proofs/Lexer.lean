import Mathlib
import Calculator.Token.Lexeme
import Calculator.Token.Lexer
import Calculator.Proofs.Grammar

/-!
# Tokens, lexemes and the grammar over characters

The tokens of a text are those of its lexemes (`lexemes_of_tokenize`, `tokenize_of_lexemes`), so a text has a tree of the
grammar over characters when its tokens have that tree over tokens (`derives_text_iff`). A text has one division into lexemes
(`Lexemes.eq_of_flatten_eq`), and is tokenized exactly if it has one (`tokenize_eq_ok_iff`).
-/

namespace Calculator

/-! ## The characters of lexemes -/

theorem BinOp.ofChar?_symbol (o : BinOp) : BinOp.ofChar? o.symbol = some o := by
  cases o <;> decide

/-- Only the symbol of an operator stands for it. -/
theorem BinOp.eq_symbol_of_ofChar? {c : Char} {o : BinOp} (h : BinOp.ofChar? c = some o) : c = o.symbol := by
  unfold BinOp.ofChar? at h
  split at h
  · cases h; assumption
  · split at h
    · cases h; assumption
    · split at h
      · cases h; assumption
      · split at h
        · cases h; assumption
        · cases h

/-- A character that is a token by itself is the lexeme of that token. -/
theorem Lexeme.of_ofChar? {c : Char} {t : Token} (h : Token.ofChar? c = some t) : Lexeme [c] t := by
  unfold Token.ofChar? at h
  split at h
  · obtain rfl := Option.some.inj h
    subst c
    exact .lparen
  · split at h
    · obtain rfl := Option.some.inj h
      subst c
      exact .rparen
    · obtain ⟨o, ho, rfl⟩ := Option.map_eq_some_iff.1 h
      rw [BinOp.eq_symbol_of_ofChar? ho]
      exact .op o

/-- A token that is no number is written with one character, which stands for it. -/
theorem Lexeme.exists_ofChar? {w : List Char} {t : Token} (h : Lexeme w t) (ht : t.isNumber = false) :
    ∃ c, w = [c] ∧ Token.ofChar? c = some t := by
  cases h with
  | literal hw => cases ht
  | op o => exact ⟨o.symbol, rfl, by cases o <;> rfl⟩
  | lparen => exact ⟨'(', rfl, rfl⟩
  | rparen => exact ⟨')', rfl, rfl⟩

/-- A number is written with a literal. -/
theorem Lexeme.isLiteral {w : List Char} {x : Binary64} (h : Lexeme w (.number x)) :
    Literal.isLiteral w = true ∧ x = Literal.value w := by
  cases h with
  | literal hw => exact ⟨hw, rfl⟩

theorem Lexeme.isLiteral_of_isNumber {w : List Char} {t : Token} (h : Lexeme w t) (ht : t.isNumber = true) :
    Literal.isLiteral w = true := by
  cases h with
  | literal hw => exact hw
  | op o => cases ht
  | lparen => cases ht
  | rparen => cases ht

/-- No character of a literal is a token by itself. -/
theorem Token.ofChar?_of_isNumeral {c : Char} (h : Literal.isNumeral c = true) : Token.ofChar? c = none := by
  have hm := Literal.not_mark_of_isNumeral Literal.value h
  have hl : c ≠ '(' := fun hc => hm (Or.inl hc)
  have hr : c ≠ ')' := fun hc => hm (Or.inr (Or.inl hc))
  unfold Token.ofChar?
  rw [if_neg hl, if_neg hr]
  cases ho : BinOp.ofChar? c with
  | none => rfl
  | some o => exact absurd (Or.inr (Or.inr ⟨o, BinOp.eq_symbol_of_ofChar? ho⟩)) hm

theorem Literal.all_isNumeral {w : List Char} (h : Literal.isLiteral w = true) : ∀ c ∈ w, Literal.isNumeral c = true := by
  simp only [Literal.isLiteral, Bool.and_eq_true, List.all_eq_true] at h
  exact h.1.1

theorem Literal.ne_nil {w : List Char} (h : Literal.isLiteral w = true) : w ≠ [] := by
  rintro rfl
  simp [Literal.isLiteral] at h

/-- A token that is no number is written without characters of literals. -/
theorem Token.isNumeral_of_ofChar? {c : Char} {t : Token} (h : Token.ofChar? c = some t) :
    Literal.isNumeral c = false := by
  cases hc : Literal.isNumeral c with
  | false => rfl
  | true => rw [Token.ofChar?_of_isNumeral hc] at h; cases h

/-- A token of one character is no number. -/
theorem Token.isNumber_of_ofChar? {c : Char} {t : Token} (h : Token.ofChar? c = some t) : t.isNumber = false := by
  cases ht : t.isNumber with
  | false => rfl
  | true =>
    have hw := (Lexeme.of_ofChar? h).isLiteral_of_isNumber ht
    have hc := Literal.all_isNumeral hw c List.mem_cons_self
    rw [Token.isNumeral_of_ofChar? h] at hc
    cases hc

/-- A text of lexemes that does not begin with a number does not begin with a character of a literal. -/
theorem Lexemes.head?_isNumeral {ws : List (List Char)} {ts : List Token} (h : Lexemes ws ts)
    (ht : ts.head?.any Token.isNumber = false) : ∀ c ∈ ws.flatten.head?, Literal.isNumeral c = false := by
  cases h with
  | nil => simp
  | @cons w t ws ts hw _ _ =>
    obtain ⟨c, rfl, hc⟩ := hw.exists_ofChar? (by simpa using ht)
    simpa using Token.isNumeral_of_ofChar? hc

/-- A text of lexemes that does not begin with a character of a literal does not begin with a number. -/
theorem Lexemes.head?_isNumber {ws : List (List Char)} {ts : List Token} (h : Lexemes ws ts)
    (hs : ∀ c ∈ ws.flatten.head?, Literal.isNumeral c = false) : ts.head?.any Token.isNumber = false := by
  cases h with
  | nil => rfl
  | @cons w t ws ts hw _ _ =>
    cases ht : t.isNumber with
    | false => simpa using ht
    | true =>
      have hlit := hw.isLiteral_of_isNumber ht
      obtain ⟨a, w, rfl⟩ := List.exists_cons_of_ne_nil (Literal.ne_nil hlit)
      have ha := Literal.all_isNumeral hlit a List.mem_cons_self
      rw [hs a (by simp)] at ha
      cases ha

/-! ## The tokens of a text are those of its lexemes -/

/-- A literal in front of a text that does not go on with a character of a literal is its longest run of them. -/
theorem Literal.takeWhile_append {w s : List Char} (hw : Literal.isLiteral w = true)
    (hs : ∀ c ∈ s.head?, Literal.isNumeral c = false) : (w ++ s).takeWhile Literal.isNumeral = w := by
  have hnil : s.takeWhile Literal.isNumeral = [] := by
    cases s with
    | nil => rfl
    | cons a s => exact List.takeWhile_cons_of_neg (by simp [hs a rfl])
  rw [List.takeWhile_append_of_pos (Literal.all_isNumeral hw), hnil, List.append_nil]

/-- A literal in front of a text that does not go on with a character of a literal. -/
theorem tokenize_literal_append {w s : List Char} (hw : Literal.isLiteral w = true)
    (hs : ∀ c ∈ s.head?, Literal.isNumeral c = false) :
    tokenize (w ++ s) = (tokenize s).map (.number (Literal.value w) :: ·) := by
  have hall := Literal.all_isNumeral hw
  have hdrop : s.dropWhile Literal.isNumeral = s := by
    cases s with
    | nil => rfl
    | cons a s => exact List.dropWhile_cons_of_neg (by simp [hs a rfl])
  have hrun := Literal.takeWhile_append hw hs
  cases w with
  | nil => exact absurd rfl (Literal.ne_nil hw)
  | cons c w =>
    have hrest : (w ++ s).dropWhile Literal.isNumeral = s := by
      rw [List.dropWhile_append_of_pos (fun a ha => hall a (List.mem_cons_of_mem c ha)), hdrop]
    rw [List.cons_append] at hrun ⊢
    rw [tokenize_run (Token.ofChar?_of_isNumeral (hall c List.mem_cons_self)), hrun, if_pos hw, hrest]

/-- A text of lexemes has their tokens. -/
theorem tokenize_of_lexemes {ws : List (List Char)} {ts : List Token} (h : Lexemes ws ts) :
    tokenize ws.flatten = .ok ts := by
  induction h with
  | nil => rw [List.flatten_nil, tokenize]
  | @cons w t ws ts hw hws hnext ih =>
    rw [List.flatten_cons]
    cases ht : t.isNumber with
    | true =>
      cases hw with
      | literal hw =>
        rw [tokenize_literal_append hw (hws.head?_isNumeral (hnext rfl)), ih]
        rfl
      | op o => cases ht
      | lparen => cases ht
      | rparen => cases ht
    | false =>
      obtain ⟨c, rfl, hc⟩ := hw.exists_ofChar? ht
      rw [List.singleton_append, tokenize_symbol hc, ih]
      rfl

/-- A text begins with a character that is a token, with a literal that does not go on, or is refused. -/
@[elab_as_elim]
theorem tokenize_induction {motive : List Char → Prop} (nil : motive [])
    (symbol : ∀ c t s, Token.ofChar? c = some t → motive s → motive (c :: s))
    (literal : ∀ w s, Literal.isLiteral w = true → (∀ c ∈ s.head?, Literal.isNumeral c = false) → motive s → motive (w ++ s))
    (refused : ∀ s, tokenize s = .error .malformed → motive s) (s : List Char) : motive s := by
  refine tokenize.induct motive nil (fun c s t hc ih => symbol c t s hc ih) ?_ ?_ s
  · intro c s hc run hrun ih
    have hnum : Literal.isNumeral c = true := by
      cases hc' : Literal.isNumeral c with
      | true => rfl
      | false =>
        have hnil : run = [] := List.takeWhile_cons_of_neg (by simp [hc'])
        exact absurd hnil (Literal.ne_nil hrun)
    have hsplit : run ++ s.dropWhile Literal.isNumeral = c :: s := by
      have h := List.takeWhile_append_dropWhile (p := Literal.isNumeral) (l := c :: s)
      rwa [List.dropWhile_cons_of_pos hnum] at h
    rw [← hsplit]
    refine literal run _ hrun ?_ ih
    intro a ha
    have hhead := List.head?_dropWhile_not Literal.isNumeral s
    rw [Option.mem_def.1 ha] at hhead
    simpa using hhead
  · intro c s hc run hrun
    exact refused _ (by rw [tokenize_run hc, if_neg hrun])

theorem exists_of_map_eq_ok {ε α β : Type} {f : α → β} {x : Except ε α} {b : β} (h : x.map f = .ok b) :
    ∃ a, x = .ok a ∧ f a = b := by
  cases x with
  | error e => cases h
  | ok a => exact ⟨a, rfl, Except.ok.inj h⟩

theorem error_of_map_eq_error {ε α β : Type} {f : α → β} {x : Except ε α} {e : ε} (h : x.map f = .error e) :
    x = .error e := by
  cases x with
  | error e' => exact congrArg Except.error (Except.error.inj h)
  | ok a => cases h

/-- A text with tokens is made of lexemes for them. -/
theorem lexemes_of_tokenize (s : List Char) : ∀ {ts : List Token}, tokenize s = .ok ts →
    ∃ ws, Lexemes ws ts ∧ s = ws.flatten := by
  induction s using tokenize_induction with
  | nil =>
    intro ts h
    rw [tokenize] at h
    obtain rfl := Except.ok.inj h
    exact ⟨[], .nil, rfl⟩
  | symbol c t s hc ih =>
    intro ts h
    rw [tokenize_symbol hc] at h
    obtain ⟨ts, hts, rfl⟩ := exists_of_map_eq_ok h
    obtain ⟨ws, hws, rfl⟩ := ih hts
    refine ⟨[c] :: ws, .cons (.of_ofChar? hc) hws ?_, rfl⟩
    rw [Token.isNumber_of_ofChar? hc]
    exact fun h => absurd h Bool.false_ne_true
  | literal w s hw hs ih =>
    intro ts h
    rw [tokenize_literal_append hw hs] at h
    obtain ⟨ts, hts, rfl⟩ := exists_of_map_eq_ok h
    obtain ⟨ws, hws, rfl⟩ := ih hts
    -- a second literal here would go on with the first one
    exact ⟨w :: ws, .cons (.literal hw) hws (fun _ => hws.head?_isNumber hs), rfl⟩
  | refused s hs =>
    intro ts h
    rw [hs] at h
    cases h

/-- The only error of reading tokens is a malformed text. -/
theorem tokenize_error (s : List Char) : ∀ {e : EvalError}, tokenize s = .error e → e = .malformed := by
  induction s using tokenize_induction with
  | nil =>
    intro e h
    rw [tokenize] at h
    cases h
  | symbol c t s hc ih =>
    intro e h
    rw [tokenize_symbol hc] at h
    exact ih (error_of_map_eq_error h)
  | literal w s hw hs ih =>
    intro e h
    rw [tokenize_literal_append hw hs] at h
    exact ih (error_of_map_eq_error h)
  | refused s hs =>
    intro e h
    rw [hs] at h
    exact (Except.error.inj h).symm

/-! ## The segmentation of a text -/

/-- A token that is no number is not written as a literal is. -/
theorem Lexeme.append_ne_literal_append {v w s s' : List Char} {t : Token} (h : Lexeme w t) (ht : t.isNumber = false)
    (hv : Literal.isLiteral v = true) : w ++ s ≠ v ++ s' := by
  intro heq
  obtain ⟨c, rfl, hc⟩ := h.exists_ofChar? ht
  obtain ⟨a, v, rfl⟩ := List.exists_cons_of_ne_nil (Literal.ne_nil hv)
  obtain rfl : c = a := (List.cons_eq_cons.1 heq).1
  have hnum := Literal.all_isNumeral hv c List.mem_cons_self
  rw [Token.isNumeral_of_ofChar? hc] at hnum
  cases hnum

/-- A lexeme in front of a text is told by the whole, if a literal does not go on in the text after it. -/
theorem Lexeme.append_inj {w w' s s' : List Char} {t t' : Token} (h : Lexeme w t) (h' : Lexeme w' t')
    (hs : t.isNumber = true → ∀ c ∈ s.head?, Literal.isNumeral c = false)
    (hs' : t'.isNumber = true → ∀ c ∈ s'.head?, Literal.isNumeral c = false) (heq : w ++ s = w' ++ s') :
    w = w' ∧ s = s' := by
  cases ht : t.isNumber with
  | true =>
    have hw := h.isLiteral_of_isNumber ht
    cases ht' : t'.isNumber with
    | true =>
      have hrun := congrArg (List.takeWhile Literal.isNumeral) heq
      rw [Literal.takeWhile_append hw (hs ht), Literal.takeWhile_append (h'.isLiteral_of_isNumber ht') (hs' ht')] at hrun
      exact ⟨hrun, List.append_cancel_left (hrun ▸ heq)⟩
    | false => exact absurd heq.symm (h'.append_ne_literal_append ht' hw)
  | false =>
    cases ht' : t'.isNumber with
    | true => exact absurd heq (h.append_ne_literal_append ht (h'.isLiteral_of_isNumber ht'))
    | false =>
      obtain ⟨c, rfl, -⟩ := h.exists_ofChar? ht
      obtain ⟨c', rfl, -⟩ := h'.exists_ofChar? ht'
      exact List.append_inj heq rfl

theorem Lexeme.ne_nil {w : List Char} {t : Token} (h : Lexeme w t) : w ≠ [] := by
  cases h with
  | literal hw => exact Literal.ne_nil hw
  | op o => simp
  | lparen => simp
  | rparen => simp

/-- A text is made of lexemes in one way only. -/
theorem Lexemes.eq_of_flatten_eq {ws : List (List Char)} {ts : List Token} (h : Lexemes ws ts) :
    ∀ {ws' : List (List Char)} {ts' : List Token}, Lexemes ws' ts' → ws.flatten = ws'.flatten → ws = ws' := by
  induction h with
  | nil =>
    intro ws' ts' h' heq
    cases h' with
    | nil => rfl
    | cons hw' _ _ => exact absurd (List.append_eq_nil_iff.1 heq.symm).1 hw'.ne_nil
  | cons hw hws hnext ih =>
    intro ws' ts' h' heq
    cases h' with
    | nil => exact absurd (List.append_eq_nil_iff.1 heq).1 hw.ne_nil
    | cons hw' hws' hnext' =>
      obtain ⟨rfl, hrest⟩ := hw.append_inj hw' (fun ht => hws.head?_isNumeral (hnext ht))
        (fun ht => hws'.head?_isNumeral (hnext' ht)) heq
      rw [ih hws' hrest]

/-- Reading tokens accepts exactly the lexical grammar: a text has the tokens `ts` when it is a row of lexemes that `ts` are
the tokens of, no two literals being neighbours. There is one such row at most, and a text that is none is refused as
malformed, whatever its characters are. -/
theorem tokenize_eq_ok_iff (s : List Char) :
    (∀ ts, tokenize s = .ok ts ↔ ∃ ws, Lexemes ws ts ∧ s = ws.flatten) ∧
      {ws | (∃ ts, Lexemes ws ts) ∧ s = ws.flatten}.Subsingleton ∧
      (tokenize s = .error .malformed ↔ ¬∃ ws ts, Lexemes ws ts ∧ s = ws.flatten) := by
  refine ⟨fun ts => ⟨lexemes_of_tokenize s, ?_⟩, ?_, ?_⟩
  · rintro ⟨ws, hws, rfl⟩
    exact tokenize_of_lexemes hws
  · rintro ws ⟨⟨ts, hws⟩, hs⟩ ws' ⟨⟨ts', hws'⟩, hs'⟩
    exact hws.eq_of_flatten_eq hws' (hs ▸ hs')
  · constructor
    · rintro h ⟨ws, ts, hws, rfl⟩
      rw [tokenize_of_lexemes hws] at h
      cases h
    · intro hno
      cases h : tokenize s with
      | ok ts =>
        obtain ⟨ws, hws, hs⟩ := lexemes_of_tokenize s h
        exact absurd ⟨ws, ts, hws, hs⟩ hno
      | error e => rw [tokenize_error s h]

/-! ## Trees over characters and over tokens -/

/-- Two sequences of lexemes with a lexeme between them that is no literal. -/
theorem Lexemes.append_cons {vs ws : List (List Char)} {w : List Char} {t : Token} {ts us : List Token}
    (hv : Lexemes vs ts) (hw : Lexeme w t) (ht : t.isNumber = false) (hws : Lexemes ws us) :
    Lexemes (vs ++ w :: ws) (ts ++ t :: us) := by
  induction hv with
  | nil => exact .cons hw hws (by simp [ht])
  | @cons v s vs ts hv _ hnext ih =>
    refine .cons hv ih fun hs => ?_
    cases ts with
    | nil => simpa using ht
    | cons r ts => exact hnext hs

/-- The lexemes of tokens in two parts. -/
theorem Lexemes.exists_append {ws : List (List Char)} {ts us : List Token} (h : Lexemes ws (ts ++ us)) :
    ∃ vs ws', ws = vs ++ ws' ∧ Lexemes vs ts ∧ Lexemes ws' us := by
  induction ts generalizing ws with
  | nil => exact ⟨[], ws, rfl, .nil, h⟩
  | cons t ts ih =>
    cases h with
    | @cons w _ ws _ hw hws hnext =>
      obtain ⟨vs, ws', rfl, hvs, hws'⟩ := ih hws
      refine ⟨w :: vs, ws', rfl, .cons hw hvs fun ht => ?_, hws'⟩
      cases ts with
      | nil => rfl
      | cons r ts => exact hnext ht

theorem Lexemes.exists_cons {ws : List (List Char)} {t : Token} {ts : List Token} (h : Lexemes ws (t :: ts)) :
    ∃ w ws', ws = w :: ws' ∧ Lexeme w t ∧ Lexemes ws' ts := by
  cases h with
  | cons hw hws _ => exact ⟨_, _, rfl, hw, hws⟩

/-- A tree over characters is a tree over the tokens of the lexemes that the text is made of. -/
theorem Derives.exists_lexemes {l : Level} {s : List Char} {e : Expr Binary64} (h : Derives Spelling.text l s e) :
    ∃ ws ts, s = ws.flatten ∧ Lexemes ws ts ∧ Derives Spelling.tokens l ts e := by
  induction h with
  | @number w x hw =>
    obtain ⟨hw, rfl⟩ := hw
    exact ⟨[w], _, by simp, .cons (.literal hw) .nil (fun _ => rfl), .number rfl⟩
  | paren _ ih =>
    obtain ⟨ws, ts, rfl, hws, hd⟩ := ih
    have hcons : Lexemes (['('] :: (ws ++ [[')']])) (.lparen :: (ts ++ [.rparen])) :=
      .cons .lparen (hws.append_cons .rparen rfl .nil) (fun h => nomatch h)
    exact ⟨_, _, by simp [Spelling.text, Spelling.literals], hcons, .paren hd⟩
  | factor _ ih =>
    obtain ⟨ws, ts, hs, hws, hd⟩ := ih
    exact ⟨ws, ts, hs, hws, .factor hd⟩
  | @product _ _ _ _ o ho _ _ ihl ihr =>
    obtain ⟨vs, ts, rfl, hvs, hl⟩ := ihl
    obtain ⟨ws, us, rfl, hws, hr⟩ := ihr
    exact ⟨vs ++ [o.symbol] :: ws, ts ++ .op o :: us, by simp [Spelling.text, Spelling.literals],
      hvs.append_cons (.op o) rfl hws, .product ho hl hr⟩
  | term _ ih =>
    obtain ⟨ws, ts, hs, hws, hd⟩ := ih
    exact ⟨ws, ts, hs, hws, .term hd⟩
  | @sum _ _ _ _ o ho _ _ ihl ihr =>
    obtain ⟨vs, ts, rfl, hvs, hl⟩ := ihl
    obtain ⟨ws, us, rfl, hws, hr⟩ := ihr
    exact ⟨vs ++ [o.symbol] :: ws, ts ++ .op o :: us, by simp [Spelling.text, Spelling.literals],
      hvs.append_cons (.op o) rfl hws, .sum ho hl hr⟩

/-- An operator between two parts of the tokens is its symbol between two parts of the text. -/
theorem Lexemes.exists_append_op {ws : List (List Char)} {ts us : List Token} {o : BinOp}
    (h : Lexemes ws (ts ++ .op o :: us)) :
    ∃ vs ws', ws.flatten = vs.flatten ++ o.symbol :: ws'.flatten ∧ Lexemes vs ts ∧ Lexemes ws' us := by
  obtain ⟨vs, ws₁, rfl, hvs, hws₁⟩ := h.exists_append
  obtain ⟨w, ws', rfl, hw, hws'⟩ := hws₁.exists_cons
  cases hw with
  | op => exact ⟨vs, ws', by simp, hvs, hws'⟩

/-- A tree over the tokens of lexemes is a tree over the text that they make up. -/
theorem Derives.text_of_lexemes {l : Level} {ts : List Token} {e : Expr Binary64} (h : Derives Spelling.tokens l ts e) :
    ∀ {ws : List (List Char)}, Lexemes ws ts → Derives Spelling.text l ws.flatten e := by
  induction h with
  | number hw =>
    intro ws hws
    obtain rfl := hw
    obtain ⟨w, ws', rfl, hw, hnil⟩ := hws.exists_cons
    cases hnil
    rw [List.flatten_singleton]
    exact .number hw.isLiteral
  | paren _ ih =>
    intro ws hws
    obtain ⟨w, ws₁, rfl, hw, hws₁⟩ := hws.exists_cons
    obtain ⟨vs, ws₂, rfl, hvs, hws₂⟩ := hws₁.exists_append
    obtain ⟨v, ws₃, rfl, hv, hnil⟩ := hws₂.exists_cons
    cases hnil
    cases hw
    cases hv
    have hflat : List.flatten (['('] :: (vs ++ [[')']])) = '(' :: (vs.flatten ++ [')']) := by simp
    rw [hflat]
    exact .paren (ih hvs)
  | factor _ ih => intro ws hws; exact .factor (ih hws)
  | product ho _ _ ihl ihr =>
    intro ws hws
    obtain ⟨vs, ws', hflat, hvs, hws'⟩ := hws.exists_append_op
    rw [hflat]
    exact .product ho (ihl hvs) (ihr hws')
  | term _ ih => intro ws hws; exact .term (ih hws)
  | sum ho _ _ ihl ihr =>
    intro ws hws
    obtain ⟨vs, ws', hflat, hvs, hws'⟩ := hws.exists_append_op
    rw [hflat]
    exact .sum ho (ihl hvs) (ihr hws')

/-- A text has a tree when it has tokens and these have that tree. -/
theorem derives_text_iff {l : Level} {s : List Char} {e : Expr Binary64} :
    Derives Spelling.text l s e ↔ ∃ ts, tokenize s = .ok ts ∧ Derives Spelling.tokens l ts e := by
  constructor
  · intro h
    obtain ⟨ws, ts, rfl, hws, hd⟩ := h.exists_lexemes
    exact ⟨ts, tokenize_of_lexemes hws, hd⟩
  · rintro ⟨ts, hts, hd⟩
    obtain ⟨ws, hws, rfl⟩ := lexemes_of_tokenize s hts
    exact hd.text_of_lexemes hws

end Calculator
