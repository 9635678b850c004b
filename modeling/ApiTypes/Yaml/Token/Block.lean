import ApiTypes.Yaml.Token.Quoted

/-!
Block scalars: the lines below a header, without their indentation. The header says whether lines
are folded, what becomes of the breaks at the end, and by how much the lines are indented, which
otherwise their first line shows.
-/

namespace ApiTypes.Yaml

/-- What becomes of the breaks at the end. -/
inductive Chomping
  | strip
  | clip
  | keep
  deriving DecidableEq, Repr

structure BlockHeader where
  chomping : Chomping := .clip
  /-- The indentation given, against that of the surrounding block. -/
  indentation : Option Nat := none

def chomping? (c : Char) : Option Chomping :=
  match c with
  | '+' => some .keep
  | '-' => some .strip
  | _ => none

/-- Reads the number of an indentation, which must not be zero. -/
def readIndentation (cursor : Cursor) : Option (Option Nat × Cursor) :=
  match cursor.rest with
  | c :: _ =>
    if c == '0' then none
    else if c.isDigit then some (some (Text.digitValue c), cursor.skip)
    else some (none, cursor)
  | [] => some (none, cursor)

/-- Reads the two parts of a header, either first. -/
def readHeader (cursor : Cursor) : Option (BlockHeader × Cursor) :=
  match (cursor.peek 0).bind chomping? with
  | some chomping =>
    (readIndentation cursor.skip).map fun (indentation, cursor) =>
      (⟨chomping, indentation⟩, cursor)
  | none =>
    (readIndentation cursor).map fun (indentation, cursor) =>
      match indentation, (cursor.peek 0).bind chomping? with
      | some _, some chomping => (⟨chomping, indentation⟩, cursor.skip)
      | _, _ => (⟨.clip, indentation⟩, cursor)

/-- The breaks before a line, the largest column reached, and where the line starts. -/
structure Breaks where
  text : List Char := []
  column : Nat := 0
  cursor : Cursor

def Breaks.left (breaks : Breaks) : Nat :=
  breaks.cursor.left

/-- Whether a column is still indentation. Without a known indentation every column is. -/
def isIndentation (indentation : Option Nat) (column : Nat) : Bool :=
  match indentation with
  | some least => column < least
  | none => true

/-- Passes the blanks a line starts with, up to the indentation. -/
def skipIndentation (indentation : Option Nat) (cursor : Cursor) : Cursor :=
  let spaces := cursor.take (· == ' ')
  match indentation with
  | some least => cursor.skip (min spaces.length (least - cursor.column))
  | none => cursor.skip spaces.length

/-- Reads an empty line, or finds a line that is not empty. A tab is no indentation. -/
def breaksStep (indentation : Option Nat) (breaks : Breaks) : Option (Outcome Breaks Breaks) :=
  let cursor := skipIndentation indentation breaks.cursor
  let reached := max breaks.column cursor.column
  match cursor.rest with
  | [] => some (.answer ⟨breaks.text, reached, cursor⟩)
  | c :: _ =>
    if c == '\t' && isIndentation indentation cursor.column then none
    else if isBreak c then
      let (text, after) := cursor.readBreak
      some (.more ⟨breaks.text ++ text, reached, after⟩)
    else some (.answer ⟨breaks.text, reached, cursor⟩)

def readBreaks (indentation : Option Nat) (cursor : Cursor) : Option Breaks :=
  runSteps Breaks.left (breaksStep indentation) { cursor }

/-- A block scalar being read. -/
structure BlockReading where
  reading : Reading
  /-- The break after the last line. -/
  last : List Char := []
  /-- The breaks of the empty lines after it. -/
  empty : List Char := []
  /-- Whether the last line starts with a blank, which keeps its break. -/
  startsBlank : Bool := false

def BlockReading.left (state : BlockReading) : Nat :=
  state.reading.left

/-- What stands between two lines. Only a break between two lines that start with no blank is
folded. -/
def BlockReading.joint (state : BlockReading) (isFolded startsBlank : Bool) : List Char :=
  if isFolded && state.last == ['\n'] && !state.startsBlank && !startsBlank then
    if state.empty.isEmpty then [' '] else state.empty
  else state.last ++ state.empty

/-- The scalar, when no line follows. -/
def BlockReading.text (state : BlockReading) (chomping : Chomping) : String :=
  let tail :=
    match chomping with
    | .strip => []
    | .clip => state.last
    | .keep => state.last ++ state.empty
  String.ofList (state.reading.done.reverse ++ tail)

/-- Reads a line with the empty ones after it, or finds the end. -/
def blockStep (isFolded : Bool) (chomping : Chomping) (indentation : Nat) (state : BlockReading) :
    Option (Outcome BlockReading (String × Cursor)) :=
  let cursor := state.reading.cursor
  if cursor.column != indentation || cursor.atEnd then
    some (.answer (state.text chomping, cursor))
  else
    let startsBlank := ((cursor.peek 0).map isBlank).getD false
    let line := cursor.take fun c => !isBreak c
    let (last, after) := cursor.skipLine.readBreak
    (readBreaks (some indentation) after).map fun breaks =>
      .more {
        reading := state.reading.push (state.joint isFolded startsBlank ++ line) breaks.cursor
        last
        empty := breaks.text
        startsBlank }

/-- Reads a block scalar behind its mark. `indent` is the column of the surrounding block. -/
def readBlock (isFolded : Bool) (indent : Int) (cursor : Cursor) : Option (String × Cursor) := do
  let (header, cursor) ← readHeader cursor
  let cursor := cursor.skipBlanksAndComment
  if !isBreakOrEnd (cursor.peek 0) then none
  else
    let given := header.indentation.map fun n => (max indent 0).toNat + n
    let breaks ← readBreaks given cursor.readBreak.2
    let indentation := given.getD (max breaks.column (max (indent + 1) 1).toNat)
    runSteps BlockReading.left (blockStep isFolded header.chomping indentation)
      { reading := ⟨[], breaks.cursor⟩, empty := breaks.text }

end ApiTypes.Yaml
