import Mathlib
import Calculator.Decimal.Canonical
import Calculator.Proofs.Digits
import Calculator.Proofs.Evaluate
import Calculator.Proofs.HalfUp

/-!
# Displayed texts are canonical

Every layout of a decimal whose digits have no zero at either end is positional or exponential (`Decimal.Normal.canonical`),
and so is what is displayed. The text denotes a number that is rounded to a finite double, and has a minus sign if that number
is negative (`display_canonical`). Since the double can be read from its text, only the zeros share one
(`Binary64.eq_of_text_eq`).
-/

namespace Calculator

open Text

namespace Text

/-! ## The characters of canonical texts -/

theorem IsWhole.isDigit {w : List Char} (h : IsWhole w) : ∀ c ∈ w, c.isDigit = true := by
  cases h with
  | zero => simp
  | digits hc hv =>
    intro a ha
    rcases List.mem_cons.1 ha with rfl | ha
    · exact hc.1
    · exact hv a ha

theorem IsWhole.ne_nil {w : List Char} (h : IsWhole w) : w ≠ [] := by
  cases h <;> simp

theorem IsWhole.head?_ne {w : List Char} (h : IsWhole w) (hne : w ≠ ['0']) : w.head? ≠ some '0' := by
  cases h with
  | zero => exact absurd rfl hne
  | digits hc hv => exact fun hhead => hc.2 (Option.some.inj hhead)

/-- Digits that do not begin with a zero are a whole part. -/
theorem IsWhole.of_head? {w : List Char} (hw : ∀ c ∈ w, c.isDigit = true) (hne : w ≠ []) (hhead : w.head? ≠ some '0') :
    IsWhole w := by
  obtain ⟨c, v, rfl⟩ := List.exists_cons_of_ne_nil hne
  refine .digits ⟨hw c List.mem_cons_self, ?_⟩ fun a ha => hw a (List.mem_cons_of_mem c ha)
  rintro rfl
  exact hhead rfl

/-- A point and digits that do not end with a zero are a fraction. -/
theorem IsFraction.of_getLast? {g : List Char} (hg : ∀ c ∈ g, c.isDigit = true) (hne : g ≠ [])
    (hlast : g.getLast? ≠ some '0') : IsFraction ('.' :: g) := by
  rcases List.eq_nil_or_concat g with hnil | ⟨v, b, hvb⟩
  · exact absurd hnil hne
  · rw [List.concat_eq_append] at hvb
    subst hvb
    refine .point (fun a ha => hg a (by simp [ha])) ⟨hg b (by simp), ?_⟩
    rintro rfl
    simp at hlast

/-- A fraction that is there has digits, and does not end with a zero. -/
theorem IsFraction.eq_nil_or {f : List Char} (h : IsFraction f) :
    f = [] ∨ ∃ g, f = '.' :: g ∧ (∀ c ∈ g, c.isDigit = true) ∧ g ≠ [] ∧ g.getLast? ≠ some '0' := by
  cases h with
  | none => exact Or.inl rfl
  | @point v b hv hb =>
    refine Or.inr ⟨v ++ [b], rfl, fun a ha => ?_, by simp, ?_⟩
    · rcases List.mem_append.1 ha with ha | ha
      · exact hv a ha
      · rw [List.mem_singleton.1 ha]
        exact hb.1
    · rw [List.getLast?_concat]
      exact fun hlast => hb.2 (Option.some.inj hlast)

theorem IsFraction.isNumeral {f : List Char} (h : IsFraction f) : ∀ c ∈ f, Literal.isNumeral c = true := by
  rcases h.eq_nil_or with rfl | ⟨g, rfl, hg, -⟩
  · simp
  · intro a ha
    rcases List.mem_cons.1 ha with rfl | ha
    · rfl
    · exact Literal.isNumeral_of_isDigit (hg a ha)

end Text

namespace Decimal

variable {d : Decimal}

/-! ## Layouts of normal decimals -/

theorem Normal.exists_eq_cons (h : d.Normal) :
    ∃ c v, d.digits = c :: v ∧ IsNonzero c ∧ ∀ a ∈ v, a.isDigit = true := by
  obtain ⟨c, v, hcv⟩ := List.exists_cons_of_ne_nil h.ne_nil
  have hdigit := h.isDigit
  have hfirst := h.first
  rw [hcv] at hdigit hfirst
  refine ⟨c, v, hcv, ⟨hdigit c List.mem_cons_self, ?_⟩, fun a ha => hdigit a (List.mem_cons_of_mem c ha)⟩
  rintro rfl
  exact hfirst rfl

theorem Normal.exists_eq_append (h : d.Normal) :
    ∃ v c, d.digits = v ++ [c] ∧ IsNonzero c ∧ ∀ a ∈ v, a.isDigit = true := by
  have hlast := h.last
  have hdigit := h.isDigit
  rcases List.eq_nil_or_concat d.digits with hnil | ⟨v, c, hvc⟩
  · exact absurd hnil h.ne_nil
  · rw [List.concat_eq_append] at hvc
    rw [hvc] at hlast hdigit
    refine ⟨v, c, hvc, ⟨hdigit c (by simp), ?_⟩, fun a ha => hdigit a (by simp [ha])⟩
    rintro rfl
    simp at hlast

/-- The positional layout is a whole part and a fraction. The whole part has the digits before the point, at least one, and the
fraction ends at the last place. -/
theorem Normal.exists_positional_eq (h : d.Normal) :
    ∃ w f, d.positional = w ++ f ∧ IsWhole w ∧ (w.length : ℤ) = max 1 d.point ∧ IsFraction f ∧
      (f.tail.length : ℤ) = max 0 (-d.lastPlace) := by
  have hlen : 0 < d.digits.length := List.length_pos_iff.2 h.ne_nil
  have hfirst := h.first
  have hlast := h.last
  rw [lastPlace]
  rcases d.positional_cases with ⟨z, hpoint, htext⟩ | ⟨u, v, hsplit, hu, hv, hpoint, htext⟩ | ⟨z, hpoint, htext⟩
  · -- zeros after the digits
    refine ⟨d.digits ++ List.replicate z '0', [], by rw [htext, List.append_nil], ?_, ?_, .none, ?_⟩
    · refine .of_head? (fun a ha => ?_) (by simp [h.ne_nil]) ?_
      · exact (List.mem_append.1 ha).elim (h.isDigit a) isDigit_of_mem_replicate
      · rw [List.head?_append_of_ne_nil _ h.ne_nil]
        exact hfirst
    · rw [List.length_append, List.length_replicate]
      omega
    · rw [List.tail_nil, List.length_nil]
      omega
  · -- the point among the digits
    have hdigit := h.isDigit
    rw [hsplit] at hfirst hlast hdigit ⊢
    rw [List.head?_append_of_ne_nil _ hu] at hfirst
    rw [List.getLast?_append_of_ne_nil _ hv] at hlast
    have hlenu : 0 < u.length := List.length_pos_iff.2 hu
    refine ⟨u, '.' :: v, htext, ?_, by omega, ?_, ?_⟩
    · exact .of_head? (fun a ha => hdigit a (List.mem_append_left v ha)) hu hfirst
    · exact .of_getLast? (fun a ha => hdigit a (List.mem_append_right u ha)) hv hlast
    · rw [List.tail_cons, List.length_append]
      omega
  · -- zeros between the point and the digits
    refine ⟨['0'], '.' :: (List.replicate z '0' ++ d.digits), htext, .zero, ?_, ?_, ?_⟩
    · rw [List.length_singleton]
      omega
    · refine .of_getLast? (fun a ha => ?_) (by simp [h.ne_nil]) ?_
      · exact (List.mem_append.1 ha).elim isDigit_of_mem_replicate (h.isDigit a)
      · rw [List.getLast?_append_of_ne_nil _ h.ne_nil]
        exact hlast
    · rw [List.tail_cons, List.length_append, List.length_replicate]
      omega

/-- The text of a power of ten. -/
theorem isExponent_exponentText {e : ℤ} (he : e ≠ 0) : IsExponent (exponentText e) := by
  have hdigit : ∀ a ∈ Nat.toDigits 10 e.natAbs, a.isDigit = true := fun a ha =>
    Nat.isDigit_of_mem_toDigits (by decide) (by decide) ha
  have hhead := head?_toDigits (Int.natAbs_ne_zero.2 he)
  obtain ⟨c, v, hcv⟩ := List.exists_cons_of_ne_nil (Nat.toDigits_ne_nil (b := 10) (n := e.natAbs))
  rw [hcv] at hdigit hhead
  have hc : c ≠ '0' := by
    rintro rfl
    exact hhead rfl
  rw [exponentText, hcv]
  refine .signed ?_ ⟨hdigit c List.mem_cons_self, hc⟩ fun a ha => hdigit a (List.mem_cons_of_mem c ha)
  split
  · exact Or.inr rfl
  · exact Or.inl rfl

/-- The scientific layout is a digit, a fraction and a power of ten. -/
theorem Normal.exists_scientific_eq (h : d.Normal) :
    ∃ c f, d.scientific = c :: (f ++ exponentText (d.point - 1)) ∧ IsNonzero c ∧ IsFraction f := by
  obtain ⟨c, v, hcv, hc, hv⟩ := h.exists_eq_cons
  have hlast := h.last
  rw [hcv] at hlast
  rw [Decimal.scientific, hcv]
  refine ⟨c, if v.isEmpty then [] else '.' :: v, rfl, hc, ?_⟩
  split
  · exact .none
  · rename_i hne
    have hne' : v ≠ [] := fun hnil => hne (List.isEmpty_iff.2 hnil)
    -- the digits after the first one end as all digits do
    rw [← List.singleton_append, List.getLast?_append_of_ne_nil _ hne'] at hlast
    exact .of_getLast? hv hne' hlast

/-- The canonical layout is positional or exponential. -/
theorem Normal.canonical (h : d.Normal) : IsPositional d.canonical ∨ IsExponential d.canonical := by
  rw [Decimal.canonical]
  split
  · rename_i hpoint
    obtain ⟨w, f, heq, hw, hlen, hf, -⟩ := h.exists_positional_eq
    exact Or.inl ⟨w, f, heq, hw, by omega, hf⟩
  · rename_i hpoint
    obtain ⟨c, f, heq, hc, hf⟩ := h.exists_scientific_eq
    exact Or.inr ⟨c, f, _, heq, hc, hf, isExponent_exponentText (by omega)⟩

end Decimal

/-- Neither form begins with a minus sign. -/
theorem Text.head?_ne_minus {body : List Char} (h : IsPositional body ∨ IsExponential body) : body.head? ≠ some '-' := by
  have hdigit : ∀ c v, IsNonzero c → (c :: v).head? ≠ some '-' := by
    rintro c v hc heq
    obtain rfl := Option.some.inj heq
    cases hc.1
  rcases h with ⟨w, f, rfl, hw, -, -⟩ | ⟨c, f, e, rfl, hc, -⟩
  · cases hw with
    | zero => simp
    | digits hc hv => exact hdigit _ _ hc
  · exact hdigit _ _ hc

namespace Binary64

/-! ## What is displayed -/

/-- What is rounded to ten decimals is finite again. -/
theorem exists_rounded_eq_finite (s : Bool) (a : Magnitude) : ∃ t b, (finite s a).rounded = finite t b := by
  cases hint : (finite s a).isInteger with
  | true => exact ⟨s, a, rounded_of_isInteger hint⟩
  | false =>
    obtain ⟨t, b, hround, -⟩ := exists_rounded_eq hint
    exact ⟨t, b, hround⟩

/-- A displayed text is that of a finite double. -/
theorem exists_eq_text_of_display {x : Binary64} {t : List Char} (h : x.display = .ok t) :
    ∃ neg a, x.rounded = finite neg a ∧ t = (finite neg a).text := by
  have hfin := isFinite_of_display h
  obtain ⟨s, a, rfl⟩ := exists_eq_finite hfin
  obtain ⟨neg, b, hb⟩ := exists_rounded_eq_finite s a
  rw [display_eq hfin, hb] at h
  exact ⟨neg, b, hb, (Except.ok.inj h).symm⟩

/-- The text of a finite double other than a zero is that of a decimal that reads back, with its sign. -/
theorem exists_text_eq (neg : Bool) {a : Magnitude} (ha : a.mant ≠ 0) :
    ∃ c place, (finite neg a).text = signText neg ++ (Decimal.ofScaled c place).canonical ∧ c ≠ 0 ∧
      a.readsBack place c = true := by
  obtain ⟨c, place, hshort, hback⟩ := Magnitude.exists_shortest_eq ha
  refine ⟨c, place, ?_, Magnitude.ne_zero_of_readsBack ha hback, hback⟩
  rw [text, if_neg ha, hshort]

/-- A text with the digits of a positive number denotes this number, or its opposite after a minus sign. -/
theorem readDecimal?_ofScaled {c : ℕ} (hc : c ≠ 0) (place : ℤ) (neg : Bool) :
    readDecimal? (signText neg ++ (Decimal.ofScaled c place).canonical) =
      some (if neg then -((c : ℚ) * 10 ^ place) else c * 10 ^ place) := by
  refine readDecimal?_signText ?_ neg
  rw [Decimal.readUnsigned?_canonical (fun _ => Decimal.isDigit_of_mem_significantDigits)
    (Decimal.significantDigits_ne_nil hc), Decimal.toRat_ofScaled]

theorem readUnsigned?_zero : readUnsigned? ['0'] = some 0 := by
  rw [readUnsigned?_literal (by decide), Literal.toRat_digits (by simp)]
  rfl

theorem readDecimal?_zero : readDecimal? ['0'] = some 0 := readDecimal?_signText readUnsigned?_zero false

theorem signText_eq (neg : Bool) : signText neg = [] ∨ signText neg = ['-'] := by
  cases neg with
  | false => exact Or.inl rfl
  | true => exact Or.inr rfl

/-- The text of a finite double is canonical, denotes a number that is rounded to a finite double, and begins with a minus sign
if that number is negative. -/
theorem text_canonical (neg : Bool) (a : Magnitude) :
    IsCanonical (finite neg a).text ∧
      ∃ q, readDecimal? (finite neg a).text = some q ∧ (nearest q).isFinite = true ∧
        ((finite neg a).text.head? = some '-' ↔ q < 0) := by
  by_cases ha : a.mant = 0
  · have htext : (finite neg a).text = ['0'] := if_pos ha
    rw [htext]
    refine ⟨⟨[], ['0'], rfl, Or.inl rfl, Or.inl ⟨['0'], [], rfl, .zero, by decide, .none⟩⟩, 0,
      readDecimal?_zero, ?_, ?_⟩
    · rw [nearest_zero]
      rfl
    · exact iff_of_false (by decide) (lt_irrefl 0)
  · obtain ⟨c, place, htext, hc, hback⟩ := exists_text_eq neg ha
    have hbody := (Decimal.normal_ofScaled hc place).canonical
    have hpos : (0 : ℚ) < c * 10 ^ place := mul_pos (Nat.cast_pos.2 (Nat.pos_of_ne_zero hc)) (by positivity)
    rw [htext]
    refine ⟨⟨signText neg, _, rfl, signText_eq neg, hbody⟩, _, readDecimal?_ofScaled hc place neg, ?_, ?_⟩
    · rw [Magnitude.nearest_of_readsBack hback neg hc]
      rfl
    · cases neg with
      | false => exact iff_of_false (head?_ne_minus hbody) (not_lt.2 hpos.le)
      | true => exact iff_of_true rfl (neg_neg_of_pos hpos)

/-- What the text of a finite double other than a zero denotes is rounded to it. -/
theorem nearest_of_readDecimal?_text {neg : Bool} {a : Magnitude} {q : ℚ} (ha : a.mant ≠ 0)
    (h : readDecimal? (finite neg a).text = some q) : nearest q = finite neg a := by
  obtain ⟨c, place, htext, hc, hback⟩ := exists_text_eq neg ha
  rw [htext, readDecimal?_ofScaled hc, Option.some.injEq] at h
  rw [← h]
  exact Magnitude.nearest_of_readsBack hback neg hc

/-- What the text of a finite double denotes is not too large and is rounded to the value of the double. -/
theorem exists_readDecimal?_text (neg : Bool) (a : Magnitude) :
    ∃ q, readDecimal? (finite neg a).text = some q ∧ |q| < overflowBound ∧ (nearest q).toRat = (finite neg a).toRat := by
  obtain ⟨-, q, hread, hfin, -⟩ := text_canonical neg a
  refine ⟨q, hread, ?_, ?_⟩
  · by_contra hlarge
    rw [(isFinite_nearest_eq_false_iff q).2 (not_lt.1 hlarge)] at hfin
    cases hfin
  · by_cases ha : a.mant = 0
    · rw [text, if_pos ha, readDecimal?_zero, Option.some.injEq] at hread
      rw [← hread, nearest_zero, toRat_zero, (toRat_finite_eq_zero_iff neg a).2 ha]
    · rw [nearest_of_readDecimal?_text ha hread]

/-- So only the zeros share their text. -/
theorem eq_of_text_eq {s t : Bool} {a b : Magnitude} (ha : a.mant ≠ 0) (h : (finite s a).text = (finite t b).text) :
    finite s a = finite t b := by
  obtain ⟨-, q, hread, -⟩ := text_canonical s a
  have hnearest := nearest_of_readDecimal?_text ha hread
  rw [h] at hread
  have hb : b.mant ≠ 0 := by
    intro h0
    rw [text, if_pos h0, readDecimal?_zero, Option.some.injEq] at hread
    exact ne_zero_of_nearest_eq ha hnearest hread.symm
  rw [← hnearest, nearest_of_readDecimal?_text hb hread]

end Binary64

/-- The value of an expression is displayed. -/
theorem exists_display_of_evaluate {s t : List Char} (h : evaluate s = .ok t) :
    ∃ x : Binary64, x.isFinite = true ∧ x.display = .ok t := by
  rcases evaluate_outcome s with ⟨-, hev⟩ | ⟨-, -, hev⟩ | ⟨-, -, -, hev⟩ | ⟨-, -, -, -, hev⟩ | ⟨-, -, -, e, -, hev⟩
  · rw [hev] at h
    cases h
  · rw [hev] at h
    cases h
  · rw [hev] at h
    cases h
  · rw [hev] at h
    cases h
  · rw [hev] at h
    exact ⟨e.rounded, isFinite_of_display h, h⟩

theorem isCanonical_of_evaluate {s t : List Char} (h : evaluate s = .ok t) : Text.IsCanonical t := by
  obtain ⟨x, -, hx⟩ := exists_display_of_evaluate h
  obtain ⟨neg, a, -, rfl⟩ := Binary64.exists_eq_text_of_display hx
  exact (Binary64.text_canonical neg a).1

/-- What is displayed, for an expression or for a finite double, is a canonical text and none of `-0`, `NaN`, `Infinity` and
`-Infinity`. It denotes a number that is rounded to a finite double, and it begins with a minus sign exactly if that number is
negative. -/
theorem display_canonical {t : List Char}
    (h : (∃ s, evaluate s = .ok t) ∨ ∃ x : Binary64, x.isFinite = true ∧ x.display = .ok t) :
    Text.IsCanonical t ∧ t ∉ ["-0".toList, "NaN".toList, "Infinity".toList, "-Infinity".toList] ∧
      ∃ q, readDecimal? t = some q ∧ (∃ y : Binary64, y.isFinite = true ∧ y.IsNearest q) ∧
        (t.head? = some '-' ↔ q < 0) := by
  have hdisplay : ∃ x : Binary64, x.isFinite = true ∧ x.display = .ok t := by
    rcases h with ⟨s, hs⟩ | hx
    · exact exists_display_of_evaluate hs
    · exact hx
  obtain ⟨x, -, hx⟩ := hdisplay
  obtain ⟨neg, a, -, rfl⟩ := Binary64.exists_eq_text_of_display hx
  obtain ⟨hcanonical, q, hread, hfin, hsign⟩ := Binary64.text_canonical neg a
  refine ⟨hcanonical, ?_, q, hread, ⟨_, hfin, (Binary64.isNearest_iff _ q).2 rfl⟩, hsign⟩
  generalize (Binary64.finite neg a).text = t at hread hsign
  -- a zero with a minus sign would be negative, and the others denote no number
  intro hmem
  have hnone : ∀ w : List Char, readDecimal? w = none → t ≠ w := by
    rintro w hw rfl
    rw [hw] at hread
    cases hread
  simp only [List.mem_cons, List.not_mem_nil, or_false] at hmem
  rcases hmem with rfl | rfl | rfl | rfl
  · have hzero : readDecimal? "-0".toList = some (-0) := readDecimal?_signText Binary64.readUnsigned?_zero true
    rw [hzero, Option.some.injEq] at hread
    subst hread
    exact absurd (hsign.1 rfl) (by decide)
  · exact hnone _ rfl rfl
  · exact hnone _ rfl rfl
  · exact hnone _ rfl rfl

/-- A third, subtracted from zero. -/
theorem display_canonical_third :
    evaluate "0-1/3".toList = .ok "-0.3333333333".toList ∧ Text.IsCanonical "-0.3333333333".toList ∧
      ∃ q, readDecimal? "-0.3333333333".toList = some q ∧ (∃ y : Binary64, y.isFinite = true ∧ y.IsNearest q) ∧ q < 0 := by
  have hvalue : evaluate "0-1/3".toList = .ok "-0.3333333333".toList := by decide +kernel
  obtain ⟨hcanonical, -, q, hread, hfin, hsign⟩ := display_canonical (Or.inl ⟨_, hvalue⟩)
  exact ⟨hvalue, hcanonical, q, hread, hfin, hsign.1 rfl⟩

end Calculator
