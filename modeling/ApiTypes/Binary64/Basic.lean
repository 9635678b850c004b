/-!
Floating point numbers of 64 bits, by their values. A finite number is a whole multiple of the
smallest one, `2 ^ -1074`, so every comparison and every rounding below is exact arithmetic on
natural numbers.
-/

namespace ApiTypes

namespace Binary64

/-- The absolute value `mantissa * 2 ^ power / 2 ^ 1074` of a finite number. A mantissa has 53
bits, and fewer only where no smaller power is left. -/
structure Magnitude where
  mantissa : Nat
  power : Nat
  mantissa_lt : mantissa < Nat.pow 2 53
  normal : Nat.pow 2 52 ≤ mantissa ∨ power = 0
  power_le : power ≤ 2045
  deriving DecidableEq, Repr

namespace Magnitude

/-- How many times the smallest positive number it is. -/
def units (x : Magnitude) : Nat :=
  x.mantissa * Nat.pow 2 x.power

/-- The magnitude of zero. -/
def zero : Magnitude :=
  ⟨0, 0, by decide, .inr rfl, by decide⟩

end Magnitude

end Binary64

/-- A floating point number: finite, an infinity or not a number. -/
inductive Binary64
  | finite (negative : Bool) (magnitude : Binary64.Magnitude)
  | infinite (negative : Bool)
  | nan
  deriving DecidableEq, Repr

namespace Binary64

/-- The units of the value one: the smallest positive number is `1 / one`. -/
def one : Nat :=
  Nat.pow 2 1074

/-- The quotient rounded to the nearest whole number, a half to the even one. -/
def roundDiv (num den : Nat) : Nat :=
  let quotient := num / den
  let twice := 2 * (num % den)
  if twice < den then quotient
  else if den < twice then quotient + 1
  else quotient + quotient % 2

/-- The power of two that leaves a mantissa of 53 bits for a number of units. -/
def powerOf (units : Nat) : Nat :=
  units.log2 - 52

theorem roundDiv_le {num den bound : Nat} (below : num / den < bound) :
    roundDiv num den ≤ bound := by
  simp only [roundDiv]
  split
  · omega
  · split
    · omega
    · have := Nat.mod_lt (num / den) (show 0 < 2 by decide)
      omega

theorem le_roundDiv (num den : Nat) : num / den ≤ roundDiv num den := by
  simp only [roundDiv]
  split
  · omega
  · split <;> omega

theorem le_units {units : Nat} (positive : powerOf units ≠ 0) :
    Nat.pow 2 52 * Nat.pow 2 (powerOf units) ≤ units := by
  rw [Nat.pow_eq, Nat.pow_eq, ← Nat.pow_add]
  simp only [powerOf] at positive ⊢
  have large : units ≠ 0 := by
    rintro rfl
    simp at positive
  have same : 52 + (units.log2 - 52) = units.log2 := by omega
  rw [same]
  exact Nat.log2_self_le large

/-- The number nearest to `num / den`; of two equally near, the one with an even mantissa. From
half a step above the largest finite number on, it is infinite. -/
def ofRatio (negative : Bool) (num den : Nat) : Binary64 :=
  let units := num * one / den
  let power := powerOf units
  let mantissa := roundDiv (num * one) (den * Nat.pow 2 power)
  if carry : mantissa < Nat.pow 2 53 then
    if small : power ≤ 2045 then
      .finite negative {
        mantissa, power
        mantissa_lt := carry
        power_le := small
        normal := by
          by_cases h : power = 0
          · exact .inr h
          · refine .inl (Nat.le_trans ?_ (le_roundDiv _ _))
            rw [← Nat.div_div_eq_div_mul]
            exact (Nat.le_div_iff_mul_le (Nat.two_pow_pos _)).2 (le_units h) }
    else .infinite negative
  else
    if small : power ≤ 2044 then
      .finite negative ⟨Nat.pow 2 52, power + 1, by decide, .inl (Nat.le_refl _), by omega⟩
    else .infinite negative

/-- The number nearest to `digits * 10 ^ exponent`. -/
def ofDecimal (negative : Bool) (digits : Nat) (exponent : Int) : Binary64 :=
  if digits = 0 then .finite negative .zero
  else
    match exponent with
    | .ofNat up =>
      -- Beyond `10 ^ 400` the answer is known, and the power would be long to write.
      if 400 < up then .infinite negative else ofRatio negative (digits * Nat.pow 10 up) 1
    | .negSucc below =>
      -- Every factor ten is more than three bits, and under `2 ^ -1076` all is zero.
      if digits.log2 + 1100 < 3 * (below + 1) then .finite negative .zero
      else ofRatio negative digits (Nat.pow 10 (below + 1))

/-- The number nearest to a whole number. -/
def ofInt (value : Int) : Binary64 :=
  ofRatio (value < 0) value.natAbs 1

/-- The number nearest to a power of ten. -/
def tenPow (exponent : Nat) : Binary64 :=
  ofDecimal false 1 exponent

/-- The absolute value of a product, rounded. -/
def mulMagnitude (negative : Bool) (x y : Magnitude) : Binary64 :=
  ofRatio negative (x.units * y.units) (one * one)

/-- The absolute value of a quotient, rounded. A quotient by zero is infinite. -/
def divMagnitude (negative : Bool) (x y : Magnitude) : Binary64 :=
  if y.units = 0 then .infinite negative else ofRatio negative x.units y.units

/-- Equality of numbers: the two zeros are equal, and what is not a number equals nothing. -/
def same : Binary64 → Binary64 → Bool
  | .finite n x, .finite m y => (x == y) && (n == m || x.mantissa == 0)
  | .infinite n, .infinite m => n == m
  | _, _ => false

/-- Whether the number is one of the two zeros. -/
def isZero : Binary64 → Bool
  | .finite _ x => x.mantissa == 0
  | _ => false

/-- Whether the number is finite. -/
def isFinite : Binary64 → Bool
  | .finite _ _ => true
  | _ => false

end Binary64

end ApiTypes
