import Mathlib
import Calculator.Proofs.Digits

/-!
# The search for the shortest digits

What reads back as a magnitude is an interval (`Binary64.nearest_eq_of_between`), so if a multiple of a power of ten reads
back, one of the two around the magnitude does. The search goes from the greater powers of ten to the smaller ones, so it does
not go beyond a power of ten of which a multiple reads back (`Magnitude.exists_shortest_of_readsBack`).
-/

namespace Calculator

namespace Binary64

/-- A number between a magnitude and a number that is rounded to it is rounded to it. -/
theorem nearest_eq_of_between {x : Magnitude} {q r : ℚ} (hq : nearest q = finite false x) (hr : 0 ≤ r)
    (h : q ≤ r ∧ r ≤ x.toRat ∨ x.toRat ≤ r ∧ r ≤ q) : nearest r = finite false x := by
  have hqbound : |q| < overflowBound := ((isNearest_iff _ q).2 hq.symm).1
  have hx := toRat_nearest_toRat false x
  have hrbound : |r| < overflowBound := by
    rw [abs_of_nonneg hr]
    rcases h with ⟨-, hle⟩ | ⟨-, hle⟩
    · exact lt_of_le_of_lt hle x.toRat_lt_overflowBound
    · exact lt_of_le_of_lt (hle.trans (le_abs_self q)) hqbound
  have hvalue : (nearest r).toRat = (finite false x).toRat := by
    rcases h with ⟨hlow, hhigh⟩ | ⟨hlow, hhigh⟩
    · have hge := toRat_nearest_mono hqbound hrbound hlow
      rw [hq] at hge
      exact le_antisymm (toRat_nearest_le_toRat hrbound hhigh) hge
    · have hle := toRat_nearest_mono hrbound hqbound hhigh
      rw [hq] at hle
      exact le_antisymm hle (toRat_le_toRat_nearest hrbound hlow)
  obtain ⟨b, hb⟩ := exists_nearest_eq hrbound
  rw [decide_eq_false (not_lt.2 hr)] at hb
  rw [hb] at hvalue ⊢
  rw [Magnitude.toRat_injective ((toRat_finite_inj false).1 hvalue)]

end Binary64

namespace Magnitude

variable {x : Magnitude}

/-! ## Reading back as rounding -/

/-- What reads back is what is rounded to the magnitude. -/
theorem readsBack_iff_nearest (x : Magnitude) (place : ℤ) (c : ℕ) :
    x.readsBack place c = true ↔ Binary64.nearest (c * 10 ^ place) = .finite false x := by
  have hnonneg : (0 : ℚ) ≤ c * 10 ^ place := by positivity
  have hunits : |(c : ℚ) * 10 ^ place| * unitsInOne = (c * tenPow place.toNat * unitsInOne : ℕ) / tenPow (-place).toNat := by
    rw [abs_of_nonneg hnonneg, scaled_eq, div_mul_cancel₀ _ unitsInOne_ne_zero]
  rw [readsBack_iff, Binary64.nearest_units (tenPow_pos _) hunits, decide_eq_false (not_lt.2 hnonneg)]
  cases hround : ofRatio? (c * tenPow place.toNat * unitsInOne) (tenPow (-place).toNat) with
  | none =>
    rw [Binary64.ofRatio_of_none _ hround]
    exact iff_of_false (fun h => nomatch h) (fun h => nomatch h)
  | some a => rw [Binary64.ofRatio_of_some _ hround, Option.some.injEq, Binary64.finite.injEq, eq_self, true_and]

/-- The neighbours of a magnitude are two multiples of the power of ten in a row, and it is between them. -/
theorem exists_neighbours_eq (x : Magnitude) (place : ℤ) :
    ∃ b : ℕ, (x.neighbours place = (b, b + 1) ∨ x.neighbours place = (b + 1, b)) ∧
      b * (10 : ℚ) ^ place ≤ x.toRat ∧ x.toRat < (b + 1 : ℕ) * (10 : ℚ) ^ place := by
  have hpow : (0 : ℚ) < 10 ^ place := by positivity
  have hd : 0 < unitsInOne * tenPow place.toNat := Nat.mul_pos unitsInOne_pos (tenPow_pos _)
  refine ⟨x.units * tenPow (-place).toNat / (unitsInOne * tenPow place.toNat), ?_, ?_, ?_⟩
  · unfold neighbours
    dsimp only
    split
    · exact Or.inl rfl
    · exact Or.inr rfl
  · rw [x.toRat_eq_div_mul place]
    exact mul_le_mul_of_nonneg_right Nat.cast_div_le hpow.le
  · rw [x.toRat_eq_div_mul place]
    refine mul_lt_mul_of_pos_right ?_ hpow
    rw [div_lt_iff₀ (Nat.cast_pos.2 hd)]
    exact_mod_cast (Nat.div_lt_iff_lt_mul hd).1 (Nat.lt_succ_self _)

/-- What is between the magnitude and a decimal that reads back reads back. -/
theorem readsBack_of_between {m k : ℕ} {p p' : ℤ} (h : x.readsBack p m = true)
    (hk : (m : ℚ) * 10 ^ p ≤ k * 10 ^ p' ∧ k * 10 ^ p' ≤ x.toRat ∨ x.toRat ≤ k * 10 ^ p' ∧ k * 10 ^ p' ≤ (m : ℚ) * 10 ^ p) :
    x.readsBack p' k = true := by
  rw [readsBack_iff_nearest] at h ⊢
  exact Binary64.nearest_eq_of_between h (by positivity) hk

/-- A decimal that reads back is one of every smaller power of ten. -/
theorem exists_readsBack_of_le {m : ℕ} {p place : ℤ} (h : x.readsBack p m = true) (hle : place ≤ p) :
    ∃ i : ℕ, x.readsBack place i = true ∧ (i : ℚ) * 10 ^ place = m * 10 ^ p := by
  obtain ⟨k, -, hscale⟩ := exists_mul_zpow_eq hle
  have hvalue : ((m * 10 ^ k : ℕ) : ℚ) * 10 ^ place = m * 10 ^ p := by
    rw [hscale]
    push_cast
    rfl
  refine ⟨m * 10 ^ k, ?_, hvalue⟩
  rw [readsBack_iff_nearest] at h ⊢
  rwa [hvalue]

theorem readBackOn?_eq (x : Magnitude) (place : ℤ) :
    x.readBackOn? place = [(x.neighbours place).1, (x.neighbours place).2].find? (x.readsBack place) := by
  unfold readBackOn?
  generalize x.neighbours place = n
  rfl

/-- The nearer neighbour is found if it reads back. -/
theorem readBackOn?_of_near {place : ℤ} (h : x.readsBack place (x.neighbours place).1 = true) :
    x.readBackOn? place = some (x.neighbours place).1 := by
  rw [readBackOn?_eq, List.find?_cons_of_pos h]

/-- The other one is found only if the nearer one does not read back. -/
theorem eq_of_readBackOn? {place : ℤ} {c : ℕ} (h : x.readBackOn? place = some c) :
    c = (x.neighbours place).1 ∨ c = (x.neighbours place).2 ∧ ¬x.readsBack place (x.neighbours place).1 = true := by
  by_cases hnear : x.readsBack place (x.neighbours place).1 = true
  · rw [readBackOn?_of_near hnear] at h
    exact Or.inl (Option.some.inj h).symm
  · rw [readBackOn?_eq, List.find?_cons_of_neg hnear] at h
    exact Or.inr ⟨List.mem_singleton.1 (List.mem_of_find?_eq_some h), hnear⟩

/-- If a multiple of a power of ten reads back, a neighbour does. -/
theorem readBackOn?_ne_none {place : ℤ} {m : ℕ} (h : x.readsBack place m = true) : x.readBackOn? place ≠ none := by
  have hpow : (0 : ℚ) < 10 ^ place := by positivity
  obtain ⟨b, hb, hlow, hhigh⟩ := x.exists_neighbours_eq place
  have hback : x.readsBack place b = true ∨ x.readsBack place (b + 1) = true := by
    rcases Nat.lt_or_ge b m with hm | hm
    · refine Or.inr (readsBack_of_between h (Or.inr ⟨hhigh.le, ?_⟩))
      exact mul_le_mul_of_nonneg_right (by exact_mod_cast hm) hpow.le
    · refine Or.inl (readsBack_of_between h (Or.inl ⟨?_, hlow⟩))
      exact mul_le_mul_of_nonneg_right (by exact_mod_cast hm) hpow.le
  intro hnone
  rw [readBackOn?_eq, List.find?_eq_none] at hnone
  rcases hb with hb | hb
  · rw [hb] at hnone
    rcases hback with hback | hback
    · exact hnone b (by simp) hback
    · exact hnone (b + 1) (by simp) hback
  · rw [hb] at hnone
    rcases hback with hback | hback
    · exact hnone b (by simp) hback
    · exact hnone (b + 1) (by simp) hback

/-! ## The size of a magnitude -/

/-- A magnitude is below the power of ten of its exponent. -/
theorem toRat_lt_of_decimalExponent (x : Magnitude) : x.toRat < 10 ^ x.decimalExponent := by
  have hpos : (0 : ℚ) < 10 ^ 324 := by positivity
  set n := x.units * tenPow 324 / unitsInOne with hn
  have hlt := lt_pow_length_toDigits n
  have hnext : x.toRat * 10 ^ 324 < n + 1 := by
    have hmod := Nat.lt_div_mul_add (a := x.units * tenPow 324) unitsInOne_pos
    rw [← hn] at hmod
    rw [toRat, ← tenPow_eq 324, div_mul_eq_mul_div, div_lt_iff₀ (Nat.cast_pos.2 unitsInOne_pos), add_one_mul]
    exact_mod_cast hmod
  have hle : (n : ℚ) + 1 ≤ 10 ^ (Nat.toDigits 10 n).length := by exact_mod_cast hlt
  rw [decimalExponent, ← hn, zpow_sub₀ (by norm_num), zpow_natCast, lt_div_iff₀ (by positivity)]
  exact lt_of_lt_of_le hnext hle

/-! ## The search -/

/-- The powers of ten that are tried, the greatest first. -/
def triedPlaces (x : Magnitude) : List ℤ := (List.range 16).map fun i => x.decimalExponent - (i + 1 : ℕ)

theorem mem_triedPlaces {place : ℤ} : place ∈ x.triedPlaces ↔ x.decimalExponent - 16 ≤ place ∧ place < x.decimalExponent := by
  simp only [triedPlaces, List.mem_map, List.mem_range]
  constructor
  · rintro ⟨i, hi, rfl⟩
    omega
  · rintro ⟨hlow, hhigh⟩
    exact ⟨(x.decimalExponent - 1 - place).toNat, by omega, by omega⟩

theorem pairwise_triedPlaces (x : Magnitude) : x.triedPlaces.Pairwise (· > ·) := by
  rw [triedPlaces, List.pairwise_map]
  refine List.pairwise_lt_range.imp ?_
  intro i j hij
  omega

/-- The search stops at the greatest power of ten of which a multiple reads back. -/
theorem exists_shortest_eq_readBackOn? (hx : x.mant ≠ 0) :
    ∃ c place, x.shortest = Decimal.ofScaled c place ∧ x.readBackOn? place = some c ∧ place < x.decimalExponent ∧
      ∀ p, place < p → p < x.decimalExponent → x.readBackOn? p = none := by
  have hnone : ∀ p, x.decimalOn? p = none → x.readBackOn? p = none := by
    intro p hp
    rwa [decimalOn?, Option.map_eq_none_iff] at hp
  have hshort : x.shortest = (x.triedPlaces.findSome? x.decimalOn?).getD
      (Decimal.ofScaled (x.neighbours (x.decimalExponent - 17)).1 (x.decimalExponent - 17)) := rfl
  rw [hshort]
  cases hfind : x.triedPlaces.findSome? x.decimalOn? with
  | none =>
    -- the next place is not tried, since there the nearer neighbour always reads back
    refine ⟨_, _, Option.getD_none, readBackOn?_of_near (readsBack_seventeen hx), by omega, fun p hlow hhigh => hnone p ?_⟩
    exact List.findSome?_eq_none_iff.1 hfind p (mem_triedPlaces.2 ⟨by omega, hhigh⟩)
  | some d =>
    obtain ⟨before, place, after, hsplit, hd, hbefore⟩ := List.findSome?_eq_some_iff.1 hfind
    obtain ⟨c, hc, rfl⟩ := Option.map_eq_some_iff.1 hd
    have hplace : x.decimalExponent - 16 ≤ place ∧ place < x.decimalExponent :=
      mem_triedPlaces.1 (by rw [hsplit]; simp)
    refine ⟨c, place, Option.getD_some, hc, hplace.2, fun p hlow hhigh => hnone p ?_⟩
    have hmem : p ∈ x.triedPlaces := mem_triedPlaces.2 ⟨by omega, hhigh⟩
    have hdecreasing := x.pairwise_triedPlaces
    rw [hsplit] at hmem hdecreasing
    rcases List.mem_append.1 hmem with hmem | hmem
    · exact hbefore p hmem
    · rcases List.mem_cons.1 hmem with rfl | hmem
      · exact absurd hlow (lt_irrefl _)
      · have hgt := List.rel_of_pairwise_cons (List.pairwise_append.1 hdecreasing).2.1 hmem
        omega

/-- The shortest decimal is a multiple of the greatest power of ten of which a multiple reads back, or of a greater one. -/
theorem exists_shortest_of_readsBack {place : ℤ} {m : ℕ} (hx : x.mant ≠ 0) (hplace : place < x.decimalExponent)
    (h : x.readsBack place m = true) :
    ∃ c place', x.shortest = Decimal.ofScaled c place' ∧ x.readsBack place' c = true ∧ place ≤ place' := by
  obtain ⟨c, place', hshort, hc, -, hnone⟩ := exists_shortest_eq_readBackOn? hx
  refine ⟨c, place', hshort, List.find?_some hc, ?_⟩
  by_contra hlt
  exact readBackOn?_ne_none h (hnone place (not_le.1 hlt) hplace)

end Magnitude

end Calculator
