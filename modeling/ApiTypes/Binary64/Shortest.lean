import ApiTypes.Binary64.Basic

/-!
The shortest decimal of a number: the one with fewest digits among those that read back as the
number, and of these the nearest. Candidates are tried by length, and each is read back.
-/

namespace ApiTypes

/-- The decimal fraction `digits * 10 ^ exponent`. -/
structure Decimal where
  digits : Nat
  exponent : Int
  deriving DecidableEq, Repr

namespace Decimal

/-- The digits, without zeros at the end. -/
def figures (x : Decimal) : List Char :=
  ((Nat.toDigits 10 x.digits).reverse.dropWhile (· == '0')).reverse

/-- How many of the figures stand before the decimal point. Where it is negative, so many zeros
stand between the point and the first figure. -/
def point (x : Decimal) : Int :=
  (Nat.toDigits 10 x.digits).length + x.exponent

end Decimal

namespace Binary64

/-- Where a half goes when two decimals are equally near. -/
inductive Tie
  | toEven
  | up
  deriving DecidableEq, Repr

namespace Magnitude

/-- The place of the decimal point: the least `k` for which the number is under `10 ^ k`. -/
def decimalPoint (x : Magnitude) : Int :=
  if one ≤ x.units then (Nat.toDigits 10 (x.units / one)).length
  else
    let zeros := (Nat.toDigits 10 (one / x.units)).length
    if one ≤ x.units * Nat.pow 10 (zeros - 1) then 2 - zeros else 1 - zeros

/-- Whether a decimal reads back as the number. -/
def readsBack (x : Magnitude) (candidate : Decimal) : Bool :=
  ofDecimal false candidate.digits candidate.exponent == .finite false x

/-- Of the two decimals of `length` digits around the number, the nearest that reads back. -/
def nearestOfLength? (tie : Tie) (x : Magnitude) (length : Nat) : Option Decimal :=
  let shift : Int := length - x.decimalPoint
  let num := x.units * Nat.pow 10 shift.toNat
  let den := one * Nat.pow 10 (-shift).toNat
  let below : Decimal := ⟨num / den, -shift⟩
  let above : Decimal := ⟨num / den + 1, -shift⟩
  let twice := 2 * (num % den)
  let preferBelow :=
    twice < den || (twice == den && (tie == .toEven && num / den % 2 == 0))
  let ordered := if preferBelow then [below, above] else [above, below]
  ordered.find? x.readsBack

/-- The number written out in full. -/
def exactDecimal (x : Magnitude) : Decimal :=
  ⟨x.units * Nat.pow 5 1074, -1074⟩

/-- The shortest decimal. Seventeen digits are always enough. -/
def shortest (tie : Tie) (x : Magnitude) : Decimal :=
  ((List.range' 1 17).findSome? (x.nearestOfLength? tie)).getD x.exactDecimal

end Magnitude

end Binary64

end ApiTypes
