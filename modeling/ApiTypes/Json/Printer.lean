import ApiTypes.Binary64.Text
import ApiTypes.Json.Basic
import ApiTypes.Text.Quoted

/-!
JSON values as compact JSON text: no blanks, the fields of objects in their order, and in strings
only what has to be escaped.
-/

namespace ApiTypes

namespace Number

/-- Floating point numbers always show a point or an exponent. They are positional from `1e-5` to
below `1e16`, a half goes to the even digit, and exponents have a sign. -/
def jsonFormat : Binary64.NumberFormat where
  tie := .toEven
  positional point := -5 < point && point ≤ 16
  wholeMark := ".0"
  exponentPlus := "+"
  infinity := "null"
  negativeInfinity := "null"
  notANumber := "null"

def toText : Number → String
  | .int value => toString value
  | .float value => value.toText jsonFormat

end Number

namespace Json

/-- How one character stands in a JSON string. -/
def escapeChar (c : Char) : List Char :=
  match c with
  | '\x22' => ['\\', '\x22']
  | '\\' => ['\\', '\\']
  | '\x08' => ['\\', 'b']
  | '\x0c' => ['\\', 'f']
  | '\n' => ['\\', 'n']
  | '\r' => ['\\', 'r']
  | '\t' => ['\\', 't']
  | c => if c.toNat < 0x20 then '\\' :: 'u' :: Text.hex4 c.toNat else [c]

/-- A JSON string with its quotes. -/
def stringText (text : String) : String :=
  "\"" ++ String.ofList (text.toList.flatMap escapeChar) ++ "\""

mutual

/-- The compact text of a value. -/
def toText : Json → String
  | .null => "null"
  | .bool value => if value then "true" else "false"
  | .number value => value.toText
  | .string text => stringText text
  | .array items => "[" ++ ",".intercalate (itemTexts items) ++ "]"
  | .object fields => "\x7b" ++ ",".intercalate (fieldTexts fields) ++ "\x7d"

def itemTexts : List Json → List String
  | [] => []
  | item :: rest => item.toText :: itemTexts rest

def fieldTexts : List (String × Json) → List String
  | [] => []
  | (key, value) :: rest => (stringText key ++ ":" ++ value.toText) :: fieldTexts rest

end

end Json

end ApiTypes
