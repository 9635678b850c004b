import ApiTypes.Json.Basic
import ApiTypes.Binary64.Text

/-!
Reading JSON text. A document nests at most `Json.maxDepth` levels. A number without fraction and
exponent that fits 64 bits, with or without sign, is whole; any other is floating point, and one
too large for that is refused.

Every reader takes the characters left and gives what it read with the characters after it.
-/

namespace ApiTypes.Json

/-- The rest of the text after a value. -/
abbrev Read (α : Type) := Option (α × List Char)

/-- How many arrays and objects may lie within each other. -/
def maxDepth : Nat :=
  127

def isSpace (c : Char) : Bool :=
  c == ' ' || c == '\n' || c == '\t' || c == '\r'

def skipSpace (text : List Char) : List Char :=
  text.dropWhile isSpace

/-! ### Numbers -/

/-- The largest count that a significand may reach. -/
def maxSignificand : Nat :=
  Nat.pow 2 64 - 1

/-- Takes digits into a significand as long as they fit, and gives how many it took and the rest.
The rest may start with digits. -/
def takeDigits (significand : Nat) (taken : Nat) : List Char → Nat × Nat × List Char
  | c :: rest =>
    let next := significand * 10 + Text.digitValue c
    if c.isDigit && next ≤ maxSignificand then takeDigits next (taken + 1) rest
    else (significand, taken, c :: rest)
  | [] => (significand, taken, [])

/-- A number multiplied by a power of ten of at most 308 zeros. -/
def mulTenPow (x : Binary64) (exponent : Nat) : Binary64 :=
  match x, Binary64.tenPow exponent with
  | .finite negative m, .finite _ p => Binary64.mulMagnitude negative m p
  | _, _ => x

/-- A number divided by a power of ten of at most 308 zeros. -/
def divTenPow (x : Binary64) (exponent : Nat) : Binary64 :=
  match x, Binary64.tenPow exponent with
  | .finite negative m, .finite _ p => Binary64.divMagnitude negative m p
  | _, _ => x

/-- Multiplies by a power of ten. What is too large has no number. -/
def scaleUp? (x : Binary64) (exponent : Nat) : Option Binary64 :=
  if x.isZero then some x
  else if 308 < exponent then none
  else (some (mulTenPow x exponent)).filter Binary64.isFinite

/-- Divides by a power of ten, by `10 ^ 308` at most at a time and rounding every time. -/
def scaleDown (x : Binary64) (exponent : Nat) : Binary64 :=
  if exponent ≤ 308 then divTenPow x exponent
  else if x.isZero then x
  else scaleDown (divTenPow x 308) (exponent - 308)
termination_by exponent

/-- The number `significand * 10 ^ exponent` as a reader of JSON takes it: the significand and the
power are rounded first, then their product or quotient. What is too large has no number. -/
def floatOf? (negative : Bool) (significand : Nat) (exponent : Int) : Option Binary64 :=
  match exponent with
  | .ofNat up => scaleUp? (Binary64.ofRatio negative significand 1) up
  | .negSucc below => some (scaleDown (Binary64.ofRatio negative significand 1) (below + 1))

/-- The exponent part after its mark: a sign or none, and digits. -/
def readExponent (text : List Char) : Read Int :=
  let (negative, text) := Text.splitSign text
  let digits := text.takeWhile Char.isDigit
  if digits.isEmpty then none
  else
    let value : Int := Text.digitsValue digits
    some (if negative then -value else value, text.dropWhile Char.isDigit)

/-- What may follow the digits of a number that is floating point already: an exponent. -/
def readScaled (negative : Bool) (significand : Nat) (exponent : Int) (text : List Char) :
    Read Number :=
  match text with
  | 'e' :: rest | 'E' :: rest =>
    (readExponent rest).bind fun (power, rest) =>
      (floatOf? negative significand (exponent + power)).map fun value => (.float value, rest)
  | text => (floatOf? negative significand exponent).map fun value => (.float value, text)

/-- A whole number without sign, or its negative. Zero has no negative and what does not fit 64
bits is floating point. -/
def wholeNumber (negative : Bool) (significand : Nat) : Number :=
  if !negative then .int significand
  else if significand = 0 ∨ Nat.pow 2 63 < significand then
    .float (Binary64.ofRatio true significand 1)
  else .int (-(significand : Int))

/-- What may follow the digits before the point. `dropped` of them did not fit the significand. -/
def readFraction (negative : Bool) (significand dropped : Nat) (text : List Char) : Read Number :=
  match text with
  | '.' :: c :: rest =>
    if c.isDigit then
      let (significand, taken, rest) := takeDigits significand 0 (c :: rest)
      readScaled negative significand ((dropped : Int) - taken) (rest.dropWhile Char.isDigit)
    else none
  | ['.'] => none
  | 'e' :: _ | 'E' :: _ => readScaled negative significand dropped text
  | text =>
    if dropped = 0 then some (wholeNumber negative significand, text)
    else readScaled negative significand dropped text

/-- A number after its sign. Digits that no longer fit the significand only move the point when
they stand before it, and count for nothing behind it. Only zero itself starts with a zero. -/
def readNumber (negative : Bool) (text : List Char) : Read Number :=
  let (significand, taken, rest) := takeDigits 0 0 text
  if taken = 0 then none
  else if text.head? = some '0' && taken ≠ 1 then none
  else
    readFraction negative significand (rest.takeWhile Char.isDigit).length
      (rest.dropWhile Char.isDigit)

/-! ### Strings -/

/-- The character that follows a backslash, when it is a single one. -/
def shortEscape? (c : Char) : Option Char :=
  match c with
  | '\x22' => some '\x22'
  | '\\' => some '\\'
  | '/' => some '/'
  | 'b' => some '\x08'
  | 'f' => some '\x0c'
  | 'n' => some '\n'
  | 'r' => some '\r'
  | 't' => some '\t'
  | _ => none

/-- The character of two surrogates, the high one first. -/
def pairedChar? (high low : Nat) : Option Char :=
  if 0xD800 ≤ high ∧ high < 0xDC00 ∧ 0xDC00 ≤ low ∧ low < 0xE000 then
    Text.charOf? (0x10000 + (high - 0xD800) * 0x400 + (low - 0xDC00))
  else none

/-- The inside of a string up to the closing quote, after what was read of it, last character
first. Two escaped surrogates make one character, and a lone one is refused. -/
def readString (done : List Char) : List Char → Read String
  | '\x22' :: rest => some (String.ofList done.reverse, rest)
  | '\\' :: 'u' :: a :: b :: c :: d :: rest =>
    match Text.hexDigitsValue? [a, b, c, d] with
    | none => none
    | some code =>
      match Text.charOf? code, rest with
      | some char, rest => readString (char :: done) rest
      | none, '\\' :: 'u' :: e :: f :: g :: h :: rest =>
        match (Text.hexDigitsValue? [e, f, g, h]).bind (pairedChar? code) with
        | some char => readString (char :: done) rest
        | none => none
      | none, _ => none
  | '\\' :: c :: rest =>
    match shortEscape? c with
    | some char => readString (char :: done) rest
    | none => none
  | c :: rest => if c.toNat < 0x20 || c == '\\' then none else readString (c :: done) rest
  | [] => none

/-! ### Values -/

/-- One or more entries with commas between them, up to the closing mark. An entry that takes no
character cannot occur, and would be refused. -/
def readEntries {α : Type} (entry : List Char → Read α) (close : Char) (text : List Char) :
    Read (List α) :=
  match entry text with
  | none => none
  | some (value, rest) =>
    match skipSpace rest with
    | [] => none
    | c :: rest =>
      if c == close then some ([value], rest)
      else if c == ',' then
        if rest.length < text.length then
          (readEntries entry close rest).map fun (values, rest) => (value :: values, rest)
        else none
      else none
termination_by text.length

/-- What an opening mark starts: no entry, or some. -/
def readGroup {α : Type} (entry : List Char → Read α) (close : Char) (text : List Char) :
    Read (List α) :=
  match skipSpace text with
  | c :: rest => if c == close then some ([], rest) else readEntries entry close (c :: rest)
  | [] => none

/-- A key, a colon and a value. -/
def readField (value : List Char → Read Json) (text : List Char) : Read (String × Json) :=
  match skipSpace text with
  | '\x22' :: rest =>
    (readString [] rest).bind fun (key, rest) =>
      match skipSpace rest with
      | ':' :: rest => (value rest).map fun (node, rest) => ((key, node), rest)
      | _ => none
  | _ => none

/-- A value of at most `depth` levels, with the blanks before it. -/
def readValue (depth : Nat) (text : List Char) : Read Json :=
  match skipSpace text with
  | 'n' :: 'u' :: 'l' :: 'l' :: rest => some (.null, rest)
  | 't' :: 'r' :: 'u' :: 'e' :: rest => some (.bool true, rest)
  | 'f' :: 'a' :: 'l' :: 's' :: 'e' :: rest => some (.bool false, rest)
  | '\x22' :: rest => (readString [] rest).map fun (text, rest) => (.string text, rest)
  | '-' :: rest => (readNumber true rest).map fun (value, rest) => (.number value, rest)
  | '[' :: rest =>
    match depth with
    | 0 => none
    | depth + 1 =>
      (readGroup (readValue depth) ']' rest).map fun (items, rest) => (.array items, rest)
  | '\x7b' :: rest =>
    match depth with
    | 0 => none
    | depth + 1 =>
      (readGroup (readField (readValue depth)) '\x7d' rest).map fun (fields, rest) =>
        (.object fields, rest)
  | text => (readNumber false text).map fun (value, rest) => (.number value, rest)

/-- The value that a whole text denotes, keys as written. -/
def parse? (text : String) : Option Json :=
  match readValue maxDepth text.toList with
  | some (value, rest) => if (skipSpace rest).isEmpty then some value else none
  | none => none

end ApiTypes.Json
