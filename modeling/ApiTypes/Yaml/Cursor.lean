import ApiTypes.Text.Digits

/-!
Where a reader of YAML stands: the characters left, and how far in the text, in which line and in
which column it is. Line breaks are read as a line feed, except the two Unicode separators, which
stand for themselves.
-/

namespace ApiTypes.Yaml

/-! ### Characters -/

def isBreak (c : Char) : Bool :=
  c == '\n' || c == '\r' || c == '\u0085' || c == '\u2028' || c == '\u2029'

def isBlank (c : Char) : Bool :=
  c == ' ' || c == '\t'

/-- Blanks, breaks and the end of the text. -/
def isBlankOrEnd (c : Option Char) : Bool :=
  match c with
  | some c => isBlank c || isBreak c
  | none => true

/-- Breaks and the end of the text. -/
def isBreakOrEnd (c : Option Char) : Bool :=
  match c with
  | some c => isBreak c
  | none => true

/-- Characters of anchors and tag handles. -/
def isWordChar (c : Char) : Bool :=
  c.isAlphanum || c == '_' || c == '-'

/-- Characters that a text may hold at all. -/
def isAllowed (c : Char) : Bool :=
  let n := c.toNat
  n == 0x09 || n == 0x0A || n == 0x0D || (0x20 ≤ n && n ≤ 0x7E) || n == 0x85 ||
    (0xA0 ≤ n && n ≤ 0xD7FF) || (0xE000 ≤ n && n ≤ 0xFFFD) || 0x10000 ≤ n

/-! ### Positions -/

structure Cursor where
  rest : List Char
  /-- How many characters are left, kept so that they need not be counted. -/
  left : Nat
  left_eq : left = rest.length
  index : Nat := 0
  line : Nat := 0
  column : Nat := 0

namespace Cursor

/-- Where a text starts. -/
def ofText (text : List Char) : Cursor where
  rest := text
  left := text.length
  left_eq := rfl

/-- The next character but `n`. -/
def peek (cursor : Cursor) (n : Nat) : Option Char :=
  cursor.rest[n]?

/-- Whether the next character is this one. -/
def sees (cursor : Cursor) (c : Char) : Bool :=
  cursor.rest.head? == some c

def atEnd (cursor : Cursor) : Bool :=
  cursor.rest.isEmpty

/-- Passes characters of a line. -/
def skip (cursor : Cursor) (count : Nat := 1) : Cursor :=
  { cursor with
    rest := cursor.rest.drop count
    left := cursor.left - count
    left_eq := by rw [List.length_drop, cursor.left_eq]
    index := cursor.index + count
    column := cursor.column + count }

/-- The characters up to the first that is not of a kind. They are all of one line. -/
def take (cursor : Cursor) (kind : Char → Bool) : List Char :=
  cursor.rest.takeWhile kind

/-- Passes the characters up to the first that is not of a kind. -/
def skipWhile (cursor : Cursor) (kind : Char → Bool) : Cursor :=
  cursor.skip (cursor.take kind).length

/-- Passes the rest of the line, but not the break. -/
def skipLine (cursor : Cursor) : Cursor :=
  cursor.skipWhile fun c => !isBreak c

/-- Passes blanks and a comment. -/
def skipBlanksAndComment (cursor : Cursor) : Cursor :=
  let cursor := cursor.skipWhile isBlank
  if cursor.sees '#' then cursor.skipLine else cursor

/-- Where the next line starts, `width` characters from here. -/
def newLine (cursor : Cursor) (width : Nat) : Cursor :=
  { cursor.skip width with line := cursor.line + 1, column := 0 }

/-- Reads a line break, if one is next. -/
def readBreak (cursor : Cursor) : List Char × Cursor :=
  match cursor.rest with
  | '\r' :: '\n' :: _ => (['\n'], cursor.newLine 2)
  | c :: _ =>
    if c == '\u2028' || c == '\u2029' then ([c], cursor.newLine 1)
    else if isBreak c then (['\n'], cursor.newLine 1)
    else ([], cursor)
  | [] => ([], cursor)

/-- Whether a document starts or ends here: three dashes or dots at the start of a line. -/
def atDocumentMark (cursor : Cursor) : Bool :=
  cursor.column == 0 &&
    match cursor.rest with
    | '-' :: '-' :: '-' :: _ => isBlankOrEnd (cursor.peek 3)
    | '.' :: '.' :: '.' :: _ => isBlankOrEnd (cursor.peek 3)
    | _ => false

theorem skip_left (cursor : Cursor) (count : Nat) : (cursor.skip count).left = cursor.left - count :=
  rfl

theorem left_pos {cursor : Cursor} {c : Char} {rest : List Char} (more : cursor.rest = c :: rest) :
    0 < cursor.left := by
  rw [cursor.left_eq, more]
  exact Nat.succ_pos _

theorem skip_lt {cursor : Cursor} {c : Char} {rest : List Char} (more : cursor.rest = c :: rest)
    (count : Nat) (positive : 0 < count) : (cursor.skip count).left < cursor.left := by
  have := left_pos more
  rw [skip_left]
  omega

theorem readBreak_lt {cursor : Cursor} {c : Char} {rest : List Char}
    (more : cursor.rest = c :: rest) (isEnd : isBreak c = true) :
    cursor.readBreak.2.left < cursor.left := by
  have shorter (width : Nat) (positive : 0 < width) : (cursor.newLine width).left < cursor.left :=
    skip_lt more width positive
  unfold readBreak
  split
  · exact shorter 2 (by decide)
  · rename_i same
    rw [more] at same
    cases same
    split
    · exact shorter 1 (by decide)
    · exact shorter 1 (by decide)
  · rename_i same
    rw [more] at same
    cases same

end Cursor

end ApiTypes.Yaml
