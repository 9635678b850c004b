import ApiTypes.Yaml.Cursor
import ApiTypes.Yaml.Token

/-!
Anchors, aliases, tags and directives.
-/

namespace ApiTypes.Yaml

/-! ### Anchors -/

/-- Marks that may follow a name without a blank. -/
def endsName (c : Option Char) : Bool :=
  isBlankOrEnd c || (c.map "?:,]\x7d%@`".toList.contains).getD false

/-- Reads the name of an anchor or alias behind its mark. -/
def readName (cursor : Cursor) : Option (String × Cursor) :=
  let name := cursor.take isWordChar
  let after := cursor.skip name.length
  if name.isEmpty || !endsName (after.peek 0) then none else some (String.ofList name, after)

/-! ### Tags -/

/-- Characters of a tag. The last three only stand in tags that are written out in full. -/
def isTagChar (inFull : Bool) (c : Char) : Bool :=
  isWordChar c || ";/?:@&=+$.%!~*\x27()".toList.contains c ||
    (inFull && ",[]".toList.contains c)

/-- How many octets a character has, by the first. -/
def octetCount? (lead : Nat) : Option Nat :=
  if lead < 0x80 then some 1
  else if 0xC0 ≤ lead ∧ lead < 0xE0 then some 2
  else if 0xE0 ≤ lead ∧ lead < 0xF0 then some 3
  else if 0xF0 ≤ lead ∧ lead < 0xF8 then some 4
  else none

/-- An octet written as a percent sign and two digits. -/
def escapedOctet? : List Char → Option Nat
  | '%' :: high :: low :: _ => Text.hexDigitsValue? [high, low]
  | _ => none

/-- The octets of the escapes that a text starts with, of which all but the first go on with a
character. -/
def trailingOctets? : Nat → List Char → Option (List Nat)
  | 0, _ => some []
  | count + 1, text => do
    let octet ← escapedOctet? text
    if octet < 0x80 ∨ 0xC0 ≤ octet then none
    else return octet :: (← trailingOctets? count (text.drop 3))

/-- The character of the escapes that a text starts with, and how many they are. Octets that are
no character are replaced. -/
def escapedChar? (text : List Char) : Option (List Char × Nat) := do
  let lead ← escapedOctet? text
  let count ← octetCount? lead
  let octets := lead :: (← trailingOctets? (count - 1) (text.drop 3))
  let decoded := String.fromUTF8? ⟨(octets.map Nat.toUInt8).toArray⟩
  return ((decoded.map String.toList).getD ['\ufffd'], count)

/-- Undoes the escapes of a tag. -/
def unescapeTag (text : List Char) : Option (List Char) :=
  match text with
  | [] => some []
  | c :: rest =>
    if c == '%' then
      match escapedChar? text with
      | some (chars, count) => (unescapeTag (rest.drop (3 * count - 1))).map (chars ++ ·)
      | none => none
    else (unescapeTag rest).map (c :: ·)
termination_by text.length
decreasing_by
  · simp only [List.length_cons, List.length_drop]
    omega
  · simp

/-- Reads the characters of a tag. -/
def readTagChars (inFull : Bool) (cursor : Cursor) : Option (List Char × Cursor) :=
  let text := cursor.take (isTagChar inFull)
  (unescapeTag text).map fun chars => (chars, cursor.skip text.length)

/-- The handle a tag starts with: an exclamation mark, word characters, and a second mark where
there is one. -/
def takeHandle (cursor : Cursor) : List Char :=
  let word := cursor.skip.take isWordChar
  let closing := if (cursor.skip (1 + word.length)).sees '!' then ['!'] else []
  '!' :: word ++ closing

/-- Whether a handle has both its marks. -/
def isClosedHandle (handle : List Char) : Bool :=
  1 < handle.length && handle.getLast? == some '!'

/-- Reads a tag, without what has to follow it. -/
def readTagText (cursor : Cursor) : Option (Token × Cursor) :=
  if cursor.peek 1 == some '<' then do
    let (text, after) ← readTagChars true (cursor.skip 2)
    if text.isEmpty || !after.sees '>' then none
    else return (.tag "" (String.ofList text), after.skip)
  else
    let handle := takeHandle cursor
    let after := cursor.skip handle.length
    if isClosedHandle handle then do
      let (suffix, after) ← readTagChars false after
      if suffix.isEmpty then none
      else return (.tag (String.ofList handle) (String.ofList suffix), after)
    else do
      let (rest, after) ← readTagChars false after
      let suffix := handle.drop 1 ++ rest
      if suffix.isEmpty then return (.tag "" "!", after)
      else return (.tag "!" (String.ofList suffix), after)

/-- Reads a tag. A blank or break must follow it, or between brackets a comma. -/
def readTag (inFlow : Bool) (cursor : Cursor) : Option (Token × Cursor) := do
  let (token, after) ← readTagText cursor
  if (inFlow && after.sees ',') || isBlankOrEnd (after.peek 0) then return (token, after) else none

/-! ### Directives -/

/-- Reads a number of at most nine digits. -/
def readVersionNumber (cursor : Cursor) : Option (Nat × Cursor) :=
  let digits := cursor.take Char.isDigit
  if digits.isEmpty || 9 < digits.length then none
  else
    some (Text.digitsValue digits, cursor.skip digits.length)

def readVersion (cursor : Cursor) : Option (Token × Cursor) := do
  let (major, cursor) ← readVersionNumber (cursor.skipWhile isBlank)
  if !cursor.sees '.' then none
  else
    let (minor, cursor) ← readVersionNumber cursor.skip
    return (.version major minor, cursor)

def readTagDirective (cursor : Cursor) : Option (Token × Cursor) := do
  let cursor := cursor.skipWhile isBlank
  if !cursor.sees '!' then none
  else
    let handle := takeHandle cursor
    let after := cursor.skip handle.length
    if (handle.length != 1 && !isClosedHandle handle) || !(after.peek 0 |>.map isBlank).getD false then
      none
    else
      let (expansion, after) ← readTagChars true (after.skipWhile isBlank)
      if expansion.isEmpty || !isBlankOrEnd (after.peek 0) then none
      else return (.tagDirective (String.ofList handle) (String.ofList expansion), after)

/-- Reads a directive with its line. -/
def readDirective (cursor : Cursor) : Option (Token × Cursor) := do
  let name := cursor.skip.take isWordChar
  let after := cursor.skip (1 + name.length)
  if !isBlankOrEnd (after.peek 0) then none
  else
    let (token, after) ←
      if name == "YAML".toList then readVersion after
      else if name == "TAG".toList then readTagDirective after
      else none
    let after := after.skipBlanksAndComment
    if isBreakOrEnd (after.peek 0) then return (token, after.readBreak.2) else none

end ApiTypes.Yaml
