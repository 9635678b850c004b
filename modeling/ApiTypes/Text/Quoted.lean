import ApiTypes.Text.Digits

/-!
String literals between double quotes, as the emitted declarations hold them.
-/

namespace ApiTypes.Text

/-- The control characters: general category `Cc`. -/
def isControl (c : Char) : Bool :=
  c.toNat < 0x20 || (0x7F ≤ c.toNat && c.toNat < 0xA0)

/-- How one character stands in a literal. Quotes, backslashes, control characters and the two
line separators may not stand for themselves. -/
def escapeChar (c : Char) : List Char :=
  match c with
  | '\\' => ['\\', '\\']
  | '\x22' => ['\\', '\x22']
  | '\n' => ['\\', 'n']
  | '\r' => ['\\', 'r']
  | '\t' => ['\\', 't']
  | c =>
    if isControl c || c == '\u2028' || c == '\u2029' then '\\' :: 'u' :: hex4 c.toNat else [c]

/-- The inside of the literal for a text. -/
def escape (text : String) : String :=
  String.ofList (text.toList.flatMap escapeChar)

/-- The literal for a text, with its quotes. -/
def quoted (text : String) : String :=
  "\"" ++ escape text ++ "\""

end ApiTypes.Text
