import ApiTypes.Yaml.Steps
import ApiTypes.Yaml.Token.Fold

/-!
Quoted scalars. Between single quotes only the quote itself is special, and is written twice.
Between double quotes a backslash starts an escape, also of a line break. Both fold their lines.
-/

namespace ApiTypes.Yaml

/-- The character of a one letter escape. -/
def shortEscape? (c : Char) : Option Char :=
  match c with
  | '0' => some '\x00'
  | 'a' => some '\x07'
  | 'b' => some '\x08'
  | 't' => some '\t'
  | '\t' => some '\t'
  | 'n' => some '\n'
  | 'v' => some '\x0b'
  | 'f' => some '\x0c'
  | 'r' => some '\r'
  | 'e' => some '\x1b'
  | ' ' => some ' '
  | '\x22' => some '\x22'
  | '/' => some '/'
  | '\\' => some '\\'
  | 'N' => some '\u0085'
  | '_' => some '\u00a0'
  | 'L' => some '\u2028'
  | 'P' => some '\u2029'
  | _ => none

/-- How many digits an escape by code point has. -/
def codeLength? (c : Char) : Option Nat :=
  match c with
  | 'x' => some 2
  | 'u' => some 4
  | 'U' => some 8
  | _ => none

/-- The character of a code point written in base sixteen. -/
def charOfHex? (digits : List Char) : Option Char :=
  (Text.hexDigitsValue? digits).bind Text.charOf?

/-- Reads an escape that is no break: its character, and how long it is written. -/
def readEscape? (text : List Char) : Option (Char × Nat) :=
  match text with
  | '\\' :: c :: rest =>
    match shortEscape? c with
    | some char => some (char, 2)
    | none => do
      let length ← codeLength? c
      let digits := rest.take length
      if digits.length < length then none else return (← charOfHex? digits, 2 + length)
  | _ => none

/-- A scalar being read: what was read of it, last character first, and where the reader is. -/
structure Reading where
  done : List Char
  cursor : Cursor

namespace Reading

def left (reading : Reading) : Nat :=
  reading.cursor.left

def text (reading : Reading) : String :=
  String.ofList reading.done.reverse

/-- Adds characters read up to a place. -/
def push (reading : Reading) (chars : List Char) (cursor : Cursor) : Reading :=
  ⟨chars.reverse ++ reading.done, cursor⟩

end Reading

/-- Reads a gap, an escape or a character of a quoted scalar, or its closing quote. -/
def quotedStep (quote : Char) (reading : Reading) : Option (Outcome Reading (String × Cursor)) :=
  let cursor := reading.cursor
  match cursor.rest with
  | [] => none
  | c :: next =>
    if cursor.atDocumentMark then none
    else if isBlank c || isBreak c then
      (readGap 0 {} cursor).map fun (gap, after) => .more (reading.push gap.folded after)
    else if c == quote then
      if quote == '\x27' && next.head? == some quote then
        some (.more (reading.push [quote] (cursor.skip 2)))
      else some (.answer (reading.text, cursor.skip))
    else if c == '\\' && quote == '\x22' then
      if (next.head?.map isBreak).getD false then
        (readGap 0 .afterEscapedBreak cursor.skip.readBreak.2).map fun (gap, after) =>
          .more (reading.push gap.folded after)
      else
        (readEscape? cursor.rest).map fun (char, width) =>
          .more (reading.push [char] (cursor.skip width))
    else some (.more (reading.push [c] cursor.skip))

/-- Reads the inside of a quoted scalar and the closing quote. -/
def readQuoted (quote : Char) (cursor : Cursor) : Option (String × Cursor) :=
  runSteps Reading.left (quotedStep quote) ⟨[], cursor⟩

end ApiTypes.Yaml
