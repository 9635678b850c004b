import ApiTypes.Yaml.Value

/-!
What a scalar is: its text, and for a plain one also null, a truth value or a number. A tag of the
core schema asks for one of these, and the text has to be one.
-/

namespace ApiTypes.Yaml.Scalar

def isNull (text : String) : Bool :=
  ["null", "Null", "NULL", "~"].contains text

def bool? (text : String) : Option Bool :=
  if ["true", "True", "TRUE"].contains text then some true
  else if ["false", "False", "FALSE"].contains text then some false
  else none

/-! ### Numbers -/

/-- The value of digits in a base of at most sixteen. There has to be a digit. -/
def digitsOf? (base : Nat) (digits : List Char) : Option Nat :=
  if digits.isEmpty then none
  else
    digits.foldl (fun total c => do
      let total ← total
      let digit ← Text.hexValue? c
      if digit < base then some (total * base + digit) else none) (some 0)

/-- Text that is all digits but starts with a zero is no number. -/
def isZeroPadded (digits : List Char) : Bool :=
  1 < digits.length && digits.head? == some '0' && digits.all Char.isDigit

/-- The absolute value of a whole number: in base ten, or behind a mark in base 16, 8 or 2. -/
def natural? (text : List Char) : Option Nat :=
  match text with
  | '0' :: 'x' :: digits => digitsOf? 16 digits
  | '0' :: 'o' :: digits => digitsOf? 8 digits
  | '0' :: 'b' :: digits => digitsOf? 2 digits
  | digits => if isZeroPadded digits then none else digitsOf? 10 digits

/-- A whole number as a scalar: one that fits 64 bits, one that needs up to 128 and is refused, or
one that is no whole number at all, being longer than that. -/
inductive Whole
  | fits (value : Int)
  | refused
  | other

/-- The whole number of a text. -/
def whole (text : List Char) : Whole :=
  let (negative, unsigned) := Text.splitSign text
  match natural? unsigned with
  | none => .other
  | some value =>
    if negative then
      if value ≤ Nat.pow 2 63 then .fits (-value) else if value ≤ Nat.pow 2 127 then .refused else .other
    else
      if value < Nat.pow 2 64 then .fits value else if value < Nat.pow 2 128 then .refused else .other

/-- The floating point number of a text: an infinity, what is not a number, or a decimal that is
not too large. -/
def float? (text : List Char) : Option Binary64 :=
  let spells (words : List String) : Bool := words.contains (String.ofList text)
  if spells [".inf", ".Inf", ".INF", "+.inf", "+.Inf", "+.INF"] then some (.infinite false)
  else if spells ["-.inf", "-.Inf", "-.INF"] then some (.infinite true)
  else if spells [".nan", ".NaN", ".NAN"] then some .nan
  else
    match text with
    | '+' :: '+' :: _ | '+' :: '-' :: _ => none
    | text => (Binary64.ofText? text).bind fun value => if value.isFinite then some value else none

/-- Text that is all digits behind its sign but starts with a zero is no number of any kind. -/
def isPaddedDigits (text : List Char) : Bool :=
  isZeroPadded (Text.splitSign text).2

/-! ### Scalars -/

/-- What a plain scalar without a tag is. -/
def plain? (text : String) : Option Value :=
  if text.isEmpty || isNull text then some .null
  else
    match bool? text with
    | some value => some (.bool value)
    | none =>
      match whole text.toList with
      | .fits value => some (.number (.int value))
      | .refused => none
      | .other =>
        if isPaddedDigits text.toList then some (.string text)
        else
          match float? text.toList with
          | some value => some (.number (.float value))
          | none => some (.string text)

/-- Whether a tag is one of the document's own. -/
def isLocal (tag : Option String) : Bool :=
  (tag.map fun tag => tag.toList.head? == some '!').getD false

/-- What a scalar with a tag is. -/
def tagged? (tag : String) (text : String) (isPlain : Bool) : Option Value :=
  match tag with
  | "tag:yaml.org,2002:bool" => (bool? text).map .bool
  | "tag:yaml.org,2002:int" =>
    match whole text.toList with
    | .fits value => some (.number (.int value))
    | _ => none
  | "tag:yaml.org,2002:float" => (float? text.toList).map fun value => .number (.float value)
  | "tag:yaml.org,2002:null" => if isNull text then some .null else none
  | tag => if isLocal (some tag) && isPlain then plain? text else some (.string text)

/-- What a scalar is. -/
def value? (tag : Option String) (text : String) (isPlain : Bool) : Option Value :=
  match tag with
  | some tag => tagged? tag text isPlain
  | none => if isPlain then plain? text else some (.string text)

end ApiTypes.Yaml.Scalar
