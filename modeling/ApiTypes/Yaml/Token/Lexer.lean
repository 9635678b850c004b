import ApiTypes.Yaml.Token.Block
import ApiTypes.Yaml.Token.Plain
import ApiTypes.Yaml.Token.Tag

/-!
From text to tokens. The lexer keeps the columns of the open blocks, and for every bracket that is
open the place where a simple key may have started: the colon behind a key is what tells that it
was one, and its tokens are put in front of it then.
-/

namespace ApiTypes.Yaml

/-- Where a simple key may have started. -/
structure PendingKey where
  /-- How many tokens come before it. -/
  position : Nat
  index : Nat
  line : Nat
  column : Nat
  /-- Whether it has to be a key, as nothing else may stand there. -/
  required : Bool

structure Lexer where
  cursor : Cursor
  tokens : Array Token := #[]
  /-- The column of the innermost block, or `-1` outside all. -/
  indent : Int := -1
  /-- The columns of the blocks around it. -/
  outer : List Int := []
  /-- How many brackets are open. -/
  depth : Nat := 0
  /-- The key that may have started, inside the innermost bracket. -/
  pending : Option PendingKey := none
  /-- The same for the brackets around it. -/
  outerPending : List (Option PendingKey) := []
  /-- Whether a simple key may start here. -/
  keyAllowed : Bool := true

namespace Lexer

def left (lexer : Lexer) : Nat :=
  lexer.cursor.left

def inFlow (lexer : Lexer) : Bool :=
  lexer.depth != 0

def emit (lexer : Lexer) (token : Token) : Lexer :=
  { lexer with tokens := lexer.tokens.push token }

/-- Puts a token before those from a position on. -/
def insertAt (lexer : Lexer) (position : Nat) (token : Token) : Lexer :=
  { lexer with tokens := lexer.tokens.insertIdxIfInBounds position token }

/-- Passes characters and adds a token for them. -/
def take (lexer : Lexer) (count : Nat) (token : Token) : Lexer :=
  { lexer with cursor := lexer.cursor.skip count, tokens := lexer.tokens.push token }

/-! ### Blocks -/

/-- Opens a block at a column, unless one is open there, with its token at a position. -/
def openBlock (lexer : Lexer) (column position : Nat) (token : Token) : Lexer :=
  if lexer.inFlow || column ≤ lexer.indent then lexer
  else
    { lexer.insertAt position token with
      indent := column
      outer := lexer.indent :: lexer.outer }

/-- Opens a block here. -/
def openBlockHere (lexer : Lexer) (token : Token) : Lexer :=
  lexer.openBlock lexer.cursor.column lexer.tokens.size token

/-- Closes the blocks inside those given that lie to the right of a column. -/
def closeTo (column : Int) (tokens : Array Token) (indent : Int) :
    List Int → Array Token × Int × List Int
  | [] => (tokens, indent, [])
  | next :: outer =>
    if column < indent then closeTo column (tokens.push .blockEnd) next outer
    else (tokens, indent, next :: outer)

/-- Closes the blocks that lie to the right of a column. -/
def closeBlocks (lexer : Lexer) (column : Int) : Lexer :=
  if lexer.inFlow then lexer
  else
    let (tokens, indent, outer) := closeTo column lexer.tokens lexer.indent lexer.outer
    { lexer with tokens, indent, outer }

/-! ### Simple keys -/

/-- Gives up the key that may have started. One that has to be a key cannot be given up. -/
def dropKey (lexer : Lexer) : Option Lexer :=
  if (lexer.pending.map PendingKey.required).getD false then none
  else some { lexer with pending := none }

/-- Notes that a simple key may start here. -/
def saveKey (lexer : Lexer) : Option Lexer :=
  if !lexer.keyAllowed then some lexer
  else
    lexer.dropKey.map fun dropped =>
      { dropped with
        pending := some {
          position := lexer.tokens.size
          index := lexer.cursor.index
          line := lexer.cursor.line
          column := lexer.cursor.column
          required := !lexer.inFlow && lexer.indent == lexer.cursor.column } }

/-- Whether a key is too far behind: it lies within one line and 1024 characters. -/
def isStale (cursor : Cursor) (key : PendingKey) : Bool :=
  key.line < cursor.line || key.index + 1024 < cursor.index

/-- Forgets a key that is too far behind, which must not be one that has to be a key. -/
def refresh (cursor : Cursor) : Option PendingKey → Option (Option PendingKey)
  | none => some none
  | some key =>
    if !isStale cursor key then some (some key) else if key.required then none else some none

/-- Forgets all keys that are too far behind. -/
def refreshKeys (lexer : Lexer) : Option Lexer := do
  let pending ← refresh lexer.cursor lexer.pending
  let outerPending ← lexer.outerPending.mapM (refresh lexer.cursor)
  return { lexer with pending, outerPending }

/-! ### Tokens -/

/-- Passes blanks, comments and breaks. Outside brackets a simple key may start in a new line, and
tabs are no blanks where one may start. -/
def toNextToken (lexer : Lexer) : Option Lexer :=
  runSteps left (fun lexer =>
    let cursor := lexer.cursor
    let cursor := if cursor.index == 0 && cursor.sees '\ufeff' then cursor.skip else cursor
    let tabs := lexer.inFlow || !lexer.keyAllowed
    let cursor := cursor.skipWhile fun c => c == ' ' || (tabs && c == '\t')
    let cursor := if cursor.sees '#' then cursor.skipLine else cursor
    if isBreakOrEnd (cursor.peek 0) && !cursor.atEnd then
      some (.more { lexer with
        cursor := cursor.readBreak.2
        keyAllowed := lexer.keyAllowed || !lexer.inFlow })
    else some (.answer { lexer with cursor })) lexer

/-- Ends all blocks, where a directive or a mark of a document stands. -/
def endBlocks (lexer : Lexer) : Option Lexer :=
  (lexer.closeBlocks (-1)).dropKey.map fun lexer => { lexer with keyAllowed := false }

def directive (lexer : Lexer) : Option Lexer := do
  let lexer ← lexer.endBlocks
  let (token, cursor) ← readDirective lexer.cursor
  return { lexer.emit token with cursor }

def documentMark (lexer : Lexer) (token : Token) : Option Lexer :=
  lexer.endBlocks.map fun lexer => lexer.take 3 token

def openBracket (lexer : Lexer) (token : Token) : Option Lexer :=
  lexer.saveKey.map fun lexer =>
    { lexer.take 1 token with
      depth := lexer.depth + 1
      pending := none
      outerPending := lexer.pending :: lexer.outerPending
      keyAllowed := true }

def closeBracket (lexer : Lexer) (token : Token) : Option Lexer :=
  lexer.dropKey.map fun lexer =>
    let lexer := { lexer.take 1 token with keyAllowed := false }
    match lexer.outerPending with
    | pending :: outerPending =>
      { lexer with depth := lexer.depth - 1, pending, outerPending }
    | [] => lexer

def flowEntry (lexer : Lexer) : Option Lexer :=
  lexer.dropKey.map fun lexer => { lexer.take 1 .flowEntry with keyAllowed := true }

/-- An entry of a block sequence. Between brackets the dash is left for the grammar to refuse. -/
def blockEntry (lexer : Lexer) : Option Lexer :=
  if !lexer.inFlow && !lexer.keyAllowed then none
  else
    (lexer.openBlockHere .blockSequenceStart).dropKey.map fun lexer =>
      { lexer.take 1 .blockEntry with keyAllowed := true }

/-- A key that is marked as one. -/
def markedKey (lexer : Lexer) : Option Lexer :=
  if !lexer.inFlow && !lexer.keyAllowed then none
  else
    (lexer.openBlockHere .blockMappingStart).dropKey.map fun lexer =>
      { lexer.take 1 .key with keyAllowed := !lexer.inFlow }

/-- The mark of a value. If a simple key may have started, it was one. -/
def valueMark (lexer : Lexer) : Option Lexer :=
  match lexer.pending with
  | some key =>
    let lexer := lexer.insertAt key.position .key
    let lexer := lexer.openBlock key.column key.position .blockMappingStart
    some { lexer.take 1 .value with pending := none, keyAllowed := false }
  | none =>
    if !lexer.inFlow && !lexer.keyAllowed then none
    else
      let lexer := lexer.openBlockHere .blockMappingStart
      some { lexer.take 1 .value with keyAllowed := !lexer.inFlow }

/-- A token that may start a simple key, with what it is read by. -/
def keyStart (lexer : Lexer) (read : Cursor → Option (Token × Cursor)) : Option Lexer := do
  let lexer ← lexer.saveKey
  let (token, cursor) ← read lexer.cursor
  return { lexer.emit token with cursor, keyAllowed := false }

def anchorOrAlias (lexer : Lexer) (token : String → Token) : Option Lexer :=
  lexer.keyStart fun cursor =>
    (readName cursor.skip).map fun (name, cursor) => (token name, cursor)

def quotedScalar (lexer : Lexer) (quote : Char) : Option Lexer :=
  lexer.keyStart fun cursor =>
    (readQuoted quote cursor.skip).map fun (text, cursor) => (.scalar text false, cursor)

def plainScalar (lexer : Lexer) : Option Lexer := do
  let lexer ← lexer.saveKey
  let plain ← readPlain ⟨lexer.inFlow, lexer.indent + 1⟩ lexer.cursor
  return { lexer.emit (.scalar plain.text true) with
    cursor := plain.after
    keyAllowed := plain.inNewLine }

def blockScalar (lexer : Lexer) (isFolded : Bool) : Option Lexer := do
  let lexer ← lexer.dropKey
  let (text, cursor) ← readBlock isFolded lexer.indent lexer.cursor.skip
  return { lexer.emit (.scalar text false) with cursor, keyAllowed := true }

/-- Reads the token that starts here with the character `c`. -/
def readToken (lexer : Lexer) (c : Char) : Option Lexer :=
  let cursor := lexer.cursor
  let blankFollows := isBlankOrEnd (cursor.peek 1)
  if cursor.column == 0 && c == '%' then lexer.directive
  else if cursor.atDocumentMark then
    lexer.documentMark (if c == '-' then .documentStart else .documentEnd)
  else if c == '[' then lexer.openBracket .flowSequenceStart
  else if c == '\x7b' then lexer.openBracket .flowMappingStart
  else if c == ']' then lexer.closeBracket .flowSequenceEnd
  else if c == '\x7d' then lexer.closeBracket .flowMappingEnd
  else if c == ',' then lexer.flowEntry
  else if c == '-' && blankFollows then lexer.blockEntry
  else if c == '?' && (lexer.inFlow || blankFollows) then lexer.markedKey
  else if c == ':' && (lexer.inFlow || blankFollows) then lexer.valueMark
  else if c == '*' then lexer.anchorOrAlias .alias
  else if c == '&' then lexer.anchorOrAlias .anchor
  else if c == '!' then lexer.keyStart (readTag lexer.inFlow)
  else if c == '|' && !lexer.inFlow then lexer.blockScalar false
  else if c == '>' && !lexer.inFlow then lexer.blockScalar true
  else if c == '\x27' || c == '\x22' then lexer.quotedScalar c
  else if startsPlain lexer.inFlow cursor then lexer.plainScalar
  else none

/-- The tokens of a text that has been read to its end. -/
def finish (lexer : Lexer) : Option (List Token) :=
  (lexer.closeBlocks (-1)).dropKey.map fun lexer => lexer.tokens.toList

/-- Reads one token, or finds the end of the text. -/
def step (lexer : Lexer) : Option (Outcome Lexer (List Token)) := do
  let lexer ← lexer.toNextToken
  let lexer ← lexer.refreshKeys
  let lexer := lexer.closeBlocks lexer.cursor.column
  match lexer.cursor.rest with
  | [] => return .answer (← lexer.finish)
  | c :: _ => return .more (← lexer.readToken c)

end Lexer

/-- The tokens of a text. -/
def Token.ofText? (text : String) : Option (List Token) :=
  let chars := text.toList
  if chars.all isAllowed then
    runSteps Lexer.left Lexer.step { cursor := .ofText chars }
  else none

end ApiTypes.Yaml
