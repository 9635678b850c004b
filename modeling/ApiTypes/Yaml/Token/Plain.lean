import ApiTypes.Yaml.Token.Quoted

/-!
Plain scalars. One ends before a comment, before a colon that a blank follows, before a mark of the
surrounding brackets, and where a line is indented less than it has to be.
-/

namespace ApiTypes.Yaml

/-- Marks that start something else than a plain scalar. -/
def isIndicator (c : Char) : Bool :=
  "-?:,[]\x7b\x7d#&*!|>\x27\x22%@`".toList.contains c

/-- Marks between brackets. -/
def isFlowMark (c : Char) : Bool :=
  c == ',' || c == '[' || c == ']' || c == '\x7b' || c == '\x7d'

/-- Whether a plain scalar starts here. A dash does when no blank follows, and outside brackets so
do the question mark and the colon. -/
def startsPlain (inFlow : Bool) (cursor : Cursor) : Bool :=
  match cursor.rest with
  | [] => false
  | c :: next =>
    let blankFollows := (next.head?.map isBlank).getD false
    (!isBlank c && !isBreak c && !isIndicator c) ||
      (c == '-' && !blankFollows) ||
      (!inFlow && (c == '?' || c == ':') && !isBlankOrEnd next.head?)

/-- Where a plain scalar stands: between brackets or not, and the least column of its lines. -/
structure PlainContext where
  inFlow : Bool
  column : Int

/-- A plain scalar being read, with the gap after what was read. -/
structure PlainReading where
  reading : Reading
  gap : Gap := {}
  /-- Whether the reader is at the start or behind a gap. -/
  atWord : Bool := true

def PlainReading.left (state : PlainReading) : Nat :=
  state.reading.left

/-- A plain scalar as read, where it ends, and whether that is in a new line. -/
structure Plain where
  text : String
  after : Cursor
  inNewLine : Bool

def PlainReading.plain (state : PlainReading) : Plain :=
  ⟨state.reading.text, state.reading.cursor, state.gap.hasBreak⟩

/-- Whether the scalar ends before a colon or a bracket mark. -/
def endsPlain (inFlow : Bool) (c : Char) (next : List Char) : Bool :=
  (c == ':' && isBlankOrEnd next.head?) || (inFlow && isFlowMark c)

/-- Between brackets a colon must not stand right before a mark. -/
def isMisplacedColon (inFlow : Bool) (c : Char) (next : List Char) : Bool :=
  inFlow && c == ':' && (next.head?.map fun c => isFlowMark c || c == '?').getD false

/-- Reads a character of a plain scalar or a gap, or finds its end. -/
def plainStep (context : PlainContext) (state : PlainReading) :
    Option (Outcome PlainReading Plain) :=
  let cursor := state.reading.cursor
  match cursor.rest with
  | [] => some (.answer state.plain)
  | c :: next =>
    if state.atWord && (cursor.atDocumentMark || c == '#') then some (.answer state.plain)
    else if isBlank c || isBreak c then
      (readGap context.column {} cursor).map fun (gap, after) =>
        let passed : PlainReading := ⟨{ state.reading with cursor := after }, gap, true⟩
        if !context.inFlow && after.column < context.column then .answer passed.plain
        else .more passed
    else if isMisplacedColon context.inFlow c next then none
    else if endsPlain context.inFlow c next then some (.answer state.plain)
    else
      some (.more ⟨state.reading.push (state.gap.folded ++ [c]) cursor.skip, {}, false⟩)

def readPlain (context : PlainContext) (cursor : Cursor) : Option Plain :=
  runSteps PlainReading.left (plainStep context) { reading := ⟨[], cursor⟩ }

end ApiTypes.Yaml
