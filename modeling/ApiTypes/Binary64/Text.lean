import ApiTypes.Binary64.Shortest
import ApiTypes.Text.Digits

/-!
Numbers as text. A `NumberFormat` holds what one format decides for itself; the digits are the
shortest ones in every format. Reading takes the nearest number to the decimal written.
-/

namespace ApiTypes.Binary64

/-- What a number format decides. -/
structure NumberFormat where
  /-- Where a half goes between two shortest decimals. -/
  tie : Tie
  /-- Whether a number with this place of the point is written without an exponent. -/
  positional : Int → Bool
  /-- What follows a whole number. -/
  wholeMark : String
  /-- What marks an exponent that is not negative. -/
  exponentPlus : String
  infinity : String
  negativeInfinity : String
  notANumber : String

/-- Figures written out around the decimal point, with `wholeMark` where no fraction is left. -/
def positionalText (wholeMark : String) (figures : List Char) (point : Int) : String :=
  if point ≤ 0 then
    String.ofList ('0' :: '.' :: (List.replicate (-point).toNat '0' ++ figures))
  else if figures.length ≤ point.toNat then
    String.ofList (figures ++ List.replicate (point.toNat - figures.length) '0') ++ wholeMark
  else
    String.ofList (figures.take point.toNat ++ '.' :: figures.drop point.toNat)

/-- Figures with the point after the first, and the exponent that this leaves. -/
def exponentText (exponentPlus : String) (figures : List Char) (point : Int) : String :=
  let exponent := point - 1
  let tail := if exponent < 0 then toString exponent else exponentPlus ++ toString exponent
  match figures with
  | [figure] => String.ofList [figure] ++ "e" ++ tail
  | figure :: rest => String.ofList (figure :: '.' :: rest) ++ "e" ++ tail
  | [] => "0"

/-- The text of a magnitude. -/
def magnitudeText (format : NumberFormat) (x : Magnitude) : String :=
  if x.mantissa = 0 then "0" ++ format.wholeMark
  else
    let decimal := x.shortest format.tie
    if format.positional decimal.point then
      positionalText format.wholeMark decimal.figures decimal.point
    else exponentText format.exponentPlus decimal.figures decimal.point

/-- The text of a number. -/
def toText (format : NumberFormat) : Binary64 → String
  | .finite negative x => (if negative then "-" else "") ++ magnitudeText format x
  | .infinite negative => if negative then format.negativeInfinity else format.infinity
  | .nan => format.notANumber

/-! ### Reading -/

/-- The exponent part of a decimal, which may be missing. -/
def exponentOf? : List Char → Option Int
  | [] => some 0
  | mark :: rest =>
    if mark == 'e' || mark == 'E' then
      let (negative, digits) := Text.splitSign rest
      if digits.isEmpty || !digits.all Char.isDigit then none
      else some (if negative then -(Text.digitsValue digits : Int) else Text.digitsValue digits)
    else none

/-- A decimal without sign: digits, with a point anywhere among them or none, and an exponent. -/
def ofUnsigned? (negative : Bool) (text : List Char) : Option Binary64 :=
  let whole := text.takeWhile Char.isDigit
  let rest := text.dropWhile Char.isDigit
  let (fraction, rest) :=
    match rest with
    | '.' :: rest => (rest.takeWhile Char.isDigit, rest.dropWhile Char.isDigit)
    | rest => ([], rest)
  if whole.isEmpty && fraction.isEmpty then none
  else
    (exponentOf? rest).map fun exponent =>
      ofDecimal negative (Text.digitsValue (whole ++ fraction)) (exponent - fraction.length)

/-- The number a text denotes: a decimal, an infinity or what is not a number, with a sign. -/
def ofText? (text : List Char) : Option Binary64 :=
  let (negative, rest) := Text.splitSign text
  let word := String.ofList (rest.map Char.toLower)
  if word == "inf" || word == "infinity" then some (.infinite negative)
  else if word == "nan" then some .nan
  else ofUnsigned? negative rest

end ApiTypes.Binary64
