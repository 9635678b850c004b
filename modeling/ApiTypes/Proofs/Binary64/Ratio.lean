import ApiTypes.Binary64.Shortest
import Mathlib.Algebra.Group.Nat.Defs

/-!
# Rounding of ratios

The number nearest to a ratio depends on nothing but the ratio:

* `ofRatio_congr`: equal ratios are rounded alike;
* `ofRatio_units`: a ratio that is a number is that number;
* `isFinite_ofRatio`, `units_le_of_ofRatio`: a ratio below or above a number is not rounded past it;
* `ofDecimal_eq_ofRatio`: reading a decimal is rounding its ratio, also where the exponent is so far
  out that reading does not look at the digits;
* `ofDecimal_scale`: zeros at the end of the digits are worth a larger exponent;
* `ofDecimal_shortest`: the shortest decimal of a number reads back as the number.
-/

namespace ApiTypes.Binary64

/-! ## Equal ratios -/

theorem one_eq : one = 2 ^ 1074 :=
  rfl

theorem one_pos : 0 < one := by
  rw [one_eq]
  exact Nat.two_pow_pos _

theorem roundDiv_mul {num den c : Nat} (hc : 0 < c) :
    roundDiv (num * c) (den * c) = roundDiv num den := by
  have quotient : num * c / (den * c) = num / den := Nat.mul_div_mul_right num den hc
  have rest : 2 * (num * c % (den * c)) = 2 * (num % den) * c := by
    rw [Nat.mul_mod_mul_right, Nat.mul_assoc]
  simp only [roundDiv, quotient, rest, Nat.mul_lt_mul_right hc]

theorem ofRatio_mul {negative : Bool} {num den c : Nat} (hc : 0 < c) :
    ofRatio negative (num * c) (den * c) = ofRatio negative num den := by
  have units : num * c * one / (den * c) = num * one / den := by
    rw [Nat.mul_right_comm]
    exact Nat.mul_div_mul_right _ _ hc
  have mantissa (power : Nat) : roundDiv (num * c * one) (den * c * Nat.pow 2 power) =
      roundDiv (num * one) (den * Nat.pow 2 power) := by
    rw [Nat.mul_right_comm num c, Nat.mul_right_comm den c]
    exact roundDiv_mul hc
  simp only [ofRatio, units, mantissa]

/-- Equal ratios are rounded alike. -/
theorem ofRatio_congr {negative : Bool} {a b c d : Nat} (hb : 0 < b) (hd : 0 < d)
    (h : a * d = c * b) : ofRatio negative a b = ofRatio negative c d := by
  calc ofRatio negative a b = ofRatio negative (a * d) (b * d) := (ofRatio_mul hd).symm
    _ = ofRatio negative (c * b) (d * b) := by rw [h, Nat.mul_comm b d]
    _ = ofRatio negative c d := ofRatio_mul hb

/-! ## Numbers as ratios -/

theorem roundDiv_exact {quotient den : Nat} (hd : 0 < den) :
    roundDiv (quotient * den) den = quotient := by
  have rest : 2 * (quotient * den % den) < den := by
    rw [Nat.mul_mod_left]
    exact hd
  simp only [roundDiv, Nat.mul_div_cancel quotient hd, rest, ↓reduceIte]

theorem powerOf_units (x : Magnitude) : powerOf x.units = x.power := by
  have below := x.mantissa_lt
  rcases Nat.eq_zero_or_pos x.mantissa with zero | positive
  · have power : x.power = 0 := by
      rcases x.normal with large | power
      · rw [zero] at large
        exact absurd large (by decide)
      · exact power
    simp [powerOf, Magnitude.units, zero, power]
  · have units : x.units ≠ 0 := Nat.ne_of_gt (Nat.mul_pos positive (Nat.two_pow_pos _))
    have upper : x.units.log2 < 53 + x.power := by
      refine (Nat.log2_lt units).2 ?_
      rw [Nat.pow_add]
      exact Nat.mul_lt_mul_of_pos_right below (Nat.two_pow_pos _)
    rcases x.normal with large | power
    · have lower : 52 + x.power ≤ x.units.log2 := by
        refine (Nat.le_log2 units).2 ?_
        rw [Nat.pow_add]
        exact Nat.mul_le_mul_right _ large
      simp only [powerOf]
      omega
    · simp only [powerOf]
      omega

/-- A ratio that is a number is rounded to that number. -/
theorem ofRatio_units (negative : Bool) (x : Magnitude) {c : Nat} (hc : 0 < c) :
    ofRatio negative (x.units * c) (one * c) = .finite negative x := by
  rw [ofRatio_mul hc]
  have units : x.units * one / one = x.units := Nat.mul_div_cancel _ one_pos
  have mantissa : roundDiv (x.units * one) (one * Nat.pow 2 x.power) = x.mantissa := by
    rw [Magnitude.units, Nat.mul_assoc, Nat.mul_comm (Nat.pow 2 x.power)]
    exact roundDiv_exact (Nat.mul_pos one_pos (Nat.two_pow_pos _))
  simp only [ofRatio, units, powerOf_units, mantissa, x.mantissa_lt, x.power_le, ↓reduceDIte]

/-- The sign does not take part in the rounding. -/
theorem ofRatio_finite_sign {num den : Nat} {x : Magnitude}
    (h : ofRatio false num den = .finite false x) (negative : Bool) :
    ofRatio negative num den = .finite negative x := by
  unfold ofRatio at h ⊢
  dsimp only at h ⊢
  split at h
  · rename_i carry
    rw [dif_pos carry]
    split at h
    · rename_i small
      rw [dif_pos small]
      cases h
      rfl
    · cases h
  · rename_i carry
    rw [dif_neg carry]
    split at h
    · rename_i small
      rw [dif_pos small]
      cases h
      rfl
    · cases h

/-! ## Ratios below and above a number -/

theorem roundDiv_le_of_le {num den bound : Nat} (hd : 0 < den) (h : num ≤ bound * den) :
    roundDiv num den ≤ bound := by
  by_cases below : num / den < bound
  · exact roundDiv_le below
  · have reached : bound * den ≤ num := (Nat.le_div_iff_mul_le hd).1 (Nat.le_of_not_lt below)
    exact Nat.le_of_eq (by rw [Nat.le_antisymm h reached, roundDiv_exact hd])

theorem powerOf_mono {a b : Nat} (h : a ≤ b) : powerOf a ≤ powerOf b := by
  unfold powerOf
  by_cases zero : a = 0
  · simp [zero]
  · have positive : b ≠ 0 := by omega
    have := (Nat.le_log2 positive).2 (Nat.le_trans (Nat.log2_self_le zero) h)
    omega

/-- A ratio of at most a number is not rounded to an infinity. -/
theorem isFinite_ofRatio (negative : Bool) {num den : Nat} (x : Magnitude) (hd : 0 < den)
    (h : num * one ≤ x.units * den) : (ofRatio negative num den).isFinite = true := by
  have units : num * one / den ≤ x.units :=
    Nat.div_le_of_le_mul (Nat.le_trans h (Nat.le_of_eq (Nat.mul_comm _ _)))
  have power : powerOf (num * one / den) ≤ x.power := by
    rw [← powerOf_units x]
    exact powerOf_mono units
  have least := x.power_le
  unfold ofRatio
  dsimp only
  split
  · rw [dif_pos (by omega)]
    rfl
  · rename_i carry
    -- At the largest power the mantissa is at most the one of the number, so nothing is carried.
    have smaller : powerOf (num * one / den) ≤ 2044 := by
      apply Nat.le_of_not_lt
      intro large
      have same : powerOf (num * one / den) = x.power := by omega
      refine carry (Nat.lt_of_le_of_lt (roundDiv_le_of_le ?_ ?_) x.mantissa_lt)
      · exact Nat.mul_pos hd (Nat.two_pow_pos _)
      · rw [same, Nat.mul_left_comm, Nat.mul_comm den]
        exact h
    rw [dif_pos smaller]
    rfl

theorem units_le_of_power {x : Magnitude} {power : Nat} (h : x.power < power) :
    x.units ≤ 2 ^ 52 * 2 ^ power := by
  calc x.units ≤ 2 ^ 53 * 2 ^ x.power := Nat.mul_le_mul_right _ (Nat.le_of_lt x.mantissa_lt)
    _ = 2 ^ 52 * 2 ^ (x.power + 1) := by
        rw [Nat.pow_succ 2 x.power]
        omega
    _ ≤ 2 ^ 52 * 2 ^ power := Nat.mul_le_mul_left _ (Nat.pow_le_pow_right (by decide) h)

/-- A ratio of at least a number is not rounded to a smaller one. -/
theorem units_le_of_ofRatio {negative sign : Bool} {num den : Nat} {x rounded : Magnitude}
    (hd : 0 < den) (h : x.units * den ≤ num * one)
    (hr : ofRatio negative num den = .finite sign rounded) : x.units ≤ rounded.units := by
  have power : x.power ≤ powerOf (num * one / den) := by
    rw [← powerOf_units x]
    exact powerOf_mono ((Nat.le_div_iff_mul_le hd).2 h)
  have normal := rounded.normal
  unfold ofRatio at hr
  dsimp only at hr
  split at hr
  · split at hr
    · cases hr
      by_cases same : x.power = powerOf (num * one / den)
      · unfold Magnitude.units
        dsimp only
        rw [← same]
        refine Nat.mul_le_mul_right _ (Nat.le_trans ?_ (le_roundDiv _ _))
        refine (Nat.le_div_iff_mul_le (Nat.mul_pos hd (Nat.two_pow_pos _))).2 ?_
        rw [Nat.mul_left_comm, Nat.mul_comm den]
        exact h
      · have more : x.power < powerOf (num * one / den) := Nat.lt_of_le_of_ne power same
        apply Nat.le_trans (units_le_of_power more)
        apply Nat.mul_le_mul_right
        apply normal.resolve_right
        dsimp only
        omega
    · cases hr
  · split at hr
    · cases hr
      exact units_le_of_power (Nat.lt_succ_of_le power)
    · cases hr

/-! ## Decimals -/

theorem powerOf_le {units power : Nat} (h : 2 ^ (power + 52) ≤ units) : power ≤ powerOf units := by
  have positive : units ≠ 0 := by
    have := Nat.two_pow_pos (power + 52)
    omega
  have := (Nat.le_log2 positive).2 h
  unfold powerOf
  omega

/-- From `2 ^ 1024` on everything is rounded to an infinity. -/
theorem ofRatio_large {negative : Bool} {num : Nat} (power : Nat) (hp : 1024 ≤ power)
    (h : 2 ^ power ≤ num) : ofRatio negative num 1 = .infinite negative := by
  have units : 2 ^ (2046 + 52) ≤ num * one / 1 := by
    rw [Nat.div_one]
    calc 2 ^ (2046 + 52) ≤ 2 ^ (power + 1074) := Nat.pow_le_pow_right (by decide) (by omega)
      _ = 2 ^ power * one := by rw [Nat.pow_add, one_eq]
      _ ≤ num * one := Nat.mul_le_mul_right one h
  have power := powerOf_le units
  unfold ofRatio
  dsimp only
  split
  · rw [dif_neg (by omega)]
  · rw [dif_neg (by omega)]

theorem ofRatio_small {negative : Bool} {num den : Nat} (h : 2 * (num * one) < den) :
    ofRatio negative num den = .finite negative .zero := by
  have units : num * one / den = 0 := Nat.div_eq_of_lt (by omega)
  have mantissa : roundDiv (num * one) (den * Nat.pow 2 (powerOf 0)) = 0 := by
    have rest : num * one % den = num * one := Nat.mod_eq_of_lt (by omega)
    have one_power : Nat.pow 2 (powerOf 0) = 1 := rfl
    simp only [one_power, Nat.mul_one, roundDiv, rest, h, ↓reduceIte, units]
  unfold ofRatio
  dsimp only
  simp only [units, mantissa]
  rfl

theorem two_pow_le_ten_pow (n : Nat) : 2 ^ (3 * n) ≤ 10 ^ n := by
  rw [Nat.pow_mul]
  exact Nat.pow_le_pow_left (by decide) n

/-- Reading a decimal is rounding its ratio. -/
theorem ofDecimal_eq_ofRatio (negative : Bool) {digits : Nat} (hd : digits ≠ 0) (exponent : Int) :
    ofDecimal negative digits exponent =
      ofRatio negative (digits * 10 ^ exponent.toNat) (10 ^ (-exponent).toNat) := by
  unfold ofDecimal
  rw [if_neg hd]
  cases exponent with
  | ofNat up =>
    dsimp only
    have whole : (-Int.ofNat up).toNat = 0 := Int.toNat_of_nonpos (by simp)
    rw [whole, show (Int.ofNat up).toNat = up from rfl, Nat.pow_zero]
    split
    · refine (ofRatio_large (3 * up) (by omega) ?_).symm
      calc 2 ^ (3 * up) ≤ 10 ^ up := two_pow_le_ten_pow up
        _ ≤ digits * 10 ^ up := Nat.le_mul_of_pos_left _ (Nat.pos_of_ne_zero hd)
    · rfl
  | negSucc below =>
    dsimp only
    rw [show (Int.negSucc below).toNat = 0 from rfl,
      show (-Int.negSucc below).toNat = below + 1 from rfl, Nat.pow_zero, Nat.mul_one]
    split
    · refine (ofRatio_small ?_).symm
      have few : digits < 2 ^ (digits.log2 + 1) := (Nat.log2_lt hd).1 (Nat.lt_succ_self _)
      calc 2 * (digits * one) < 2 * (2 ^ (digits.log2 + 1) * one) :=
            Nat.mul_lt_mul_of_pos_left (Nat.mul_lt_mul_of_pos_right few one_pos) (by decide)
        _ = 2 ^ (digits.log2 + 1076) := by
            rw [one_eq, ← Nat.pow_add, ← Nat.pow_succ']
        _ ≤ 2 ^ (3 * (below + 1)) := Nat.pow_le_pow_right (by decide) (by omega)
        _ ≤ 10 ^ (below + 1) := two_pow_le_ten_pow _
    · rfl

/-- Zeros at the end of the digits are worth a larger exponent. -/
theorem ofDecimal_scale (negative : Bool) {digits : Nat} (hd : digits ≠ 0) (zeros : Nat)
    (exponent : Int) : ofDecimal negative (digits * 10 ^ zeros) exponent =
      ofDecimal negative digits (exponent + zeros) := by
  have scaled : digits * 10 ^ zeros ≠ 0 := Nat.mul_ne_zero hd (Nat.ne_of_gt (Nat.pow_pos (by decide)))
  rw [ofDecimal_eq_ofRatio negative scaled, ofDecimal_eq_ofRatio negative hd]
  refine ofRatio_congr (Nat.pow_pos (by decide)) (Nat.pow_pos (by decide)) ?_
  rw [Nat.mul_assoc, Nat.mul_assoc, Nat.mul_assoc, ← Nat.pow_add, ← Nat.pow_add, ← Nat.pow_add]
  congr 2
  omega

/-- A decimal without a fraction is a whole number. -/
theorem ofDecimal_whole (negative : Bool) {digits : Nat} (hd : digits ≠ 0) (exponent : Nat) :
    ofDecimal negative digits exponent = ofRatio negative (digits * 10 ^ exponent) 1 := by
  rw [ofDecimal_eq_ofRatio negative hd, show (-(exponent : Int)).toNat = 0 by omega,
    Int.toNat_natCast, Nat.pow_zero]

theorem ofInt_zero : ofInt 0 = .finite false .zero := by
  have small : ofRatio (decide ((0 : Int) < 0)) 0 1 = .finite false .zero := by
    rw [show decide ((0 : Int) < 0) = false from rfl]
    exact ofRatio_small (by omega)
  exact small

theorem eq_zero_of_mantissa {x : Magnitude} (h : x.mantissa = 0) : x = .zero := by
  obtain ⟨mantissa, power, below, normal, least⟩ := x
  subst h
  rcases normal with large | rfl
  · exact absurd large (by decide)
  · rfl

/-! ## The shortest decimal -/

theorem readsBack_exactDecimal {x : Magnitude} (hx : x.mantissa ≠ 0) :
    ofDecimal false x.exactDecimal.digits x.exactDecimal.exponent = .finite false x := by
  have units : x.units ≠ 0 := Nat.mul_ne_zero hx (Nat.ne_of_gt (Nat.two_pow_pos _))
  have digits : x.units * Nat.pow 5 1074 ≠ 0 :=
    Nat.mul_ne_zero units (Nat.ne_of_gt (Nat.pow_pos (by decide)))
  rw [Magnitude.exactDecimal, ofDecimal_eq_ofRatio false digits,
    ← ofRatio_units false x (Nat.pow_pos (n := 1074) (show 0 < 5 by decide)), one_eq, ← Nat.mul_pow]
  rw [show (-1074 : Int).toNat = 0 by decide, show (-(-1074) : Int).toNat = 1074 by decide,
    Nat.pow_zero, Nat.mul_one]
  rfl

theorem readsBack_shortest (tie : Tie) {x : Magnitude} (hx : x.mantissa ≠ 0) :
    ofDecimal false (x.shortest tie).digits (x.shortest tie).exponent = .finite false x := by
  unfold Magnitude.shortest
  cases h : (List.range' 1 17).findSome? (x.nearestOfLength? tie) with
  | none => exact readsBack_exactDecimal hx
  | some decimal =>
    obtain ⟨length, -, found⟩ := List.exists_of_findSome?_eq_some h
    unfold Magnitude.nearestOfLength? at found
    have reads := List.find?_some found
    simpa [Magnitude.readsBack] using reads

theorem shortest_digits_ne_zero (tie : Tie) {x : Magnitude} (hx : x.mantissa ≠ 0) :
    (x.shortest tie).digits ≠ 0 := by
  intro none
  have reads := readsBack_shortest tie hx
  rw [none] at reads
  unfold ofDecimal at reads
  rw [if_pos rfl] at reads
  cases reads
  exact hx rfl

/-- The shortest decimal of a number reads back as the number, with either sign. -/
theorem ofDecimal_shortest (negative : Bool) (tie : Tie) {x : Magnitude} (hx : x.mantissa ≠ 0) :
    ofDecimal negative (x.shortest tie).digits (x.shortest tie).exponent =
      .finite negative x := by
  have reads := readsBack_shortest tie hx
  have digits := shortest_digits_ne_zero tie hx
  rw [ofDecimal_eq_ofRatio _ digits] at reads ⊢
  exact ofRatio_finite_sign reads negative

end ApiTypes.Binary64
