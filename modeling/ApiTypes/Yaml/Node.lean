import ApiTypes.Yaml.Steps
import ApiTypes.Yaml.Token

/-!
Nodes: the tree a YAML document is written as, with its tags, anchors and aliases. What is left out
in the text, such as the value of a key, is an empty plain scalar.

Every reader takes the tokens left and gives what it read with the tokens after it.
-/

namespace ApiTypes.Yaml

/-- A tag and an anchor of a node, where it has them. -/
structure Properties (α : Type) where
  tag : Option String := none
  anchor : Option α := none

/-- A node with anchors named by `α`. -/
inductive Node (α : Type)
  | scalar (properties : Properties α) (text : String) (isPlain : Bool)
  | sequence (properties : Properties α) (items : List (Node α))
  | mapping (properties : Properties α) (entries : List (Node α × Node α))
  | alias (anchor : α)

namespace Node

abbrev Read (α : Type) := Option (α × List Token)

/-- How deep collections may lie within each other. -/
def maxDepth : Nat :=
  128

/-- What stands for a node that is left out. -/
def omitted : Node String :=
  .scalar {} "" true

/-! ### Documents -/

/-- What directives have said. -/
structure Directives where
  hasVersion : Bool := false
  /-- What the handles of tags stand for. -/
  handles : List (String × String) := []

/-- Handles that need no directive. -/
def defaultHandles : List (String × String) :=
  [("!", "!"), ("!!", "tag:yaml.org,2002:")]

/-- Reads directives. Versions 1.1 and 1.2 are known, and nothing may be said twice. -/
def readDirectives (directives : Directives) : List Token → Read Directives
  | .version major minor :: rest =>
    if directives.hasVersion || major != 1 || (minor != 1 && minor != 2) then none
    else readDirectives { directives with hasVersion := true } rest
  | .tagDirective handle expansion :: rest =>
    if (directives.handles.lookup handle).isSome then none
    else
      readDirectives { directives with handles := directives.handles ++ [(handle, expansion)] } rest
  | rest => some (directives, rest)

/-- The full form of a tag. -/
def expandTag (handles : List (String × String)) (handle suffix : String) : Option String :=
  if handle.isEmpty then some suffix else (handles.lookup handle).map (· ++ suffix)

/-- Reads the tag and the anchor before a node, in either order. -/
def readProperties (handles : List (String × String)) (tokens : List Token) :
    Read (Properties String) :=
  match tokens with
  | .anchor name :: .tag handle suffix :: rest | .tag handle suffix :: .anchor name :: rest =>
    (expandTag handles handle suffix).map fun tag => (⟨some tag, some name⟩, rest)
  | .anchor name :: rest => some (⟨none, some name⟩, rest)
  | .tag handle suffix :: rest =>
    (expandTag handles handle suffix).map fun tag => (⟨some tag, none⟩, rest)
  | rest => some ({}, rest)

/-! ### Collections -/

/-- Entries read so far, last first, and the tokens left. -/
structure Progress (α : Type) where
  done : List α
  tokens : List Token

def Progress.left {α : Type} (progress : Progress α) : Nat :=
  progress.tokens.length

abbrev Stepped (α : Type) := Option (Outcome (Progress α) (List α × List Token))

namespace Progress

def finish {α : Type} (progress : Progress α) (rest : List Token) : Stepped α :=
  some (.answer (progress.done.reverse, rest))

def add {α : Type} (progress : Progress α) (read : Read α) : Stepped α :=
  read.map fun (entry, rest) => .more ⟨entry :: progress.done, rest⟩

end Progress

/-- A reader of nodes. -/
abbrev Reader := List Token → Read (Node String)

/-- Reads a node, unless one of the tokens that end it without a node comes first. -/
def orOmitted (ends : Token → Bool) (read : Reader) : Reader := fun tokens =>
  match tokens with
  | token :: _ => if ends token then some (omitted, tokens) else read tokens
  | [] => read []

/-- An entry of a block sequence, or its end. -/
def blockSequenceStep (read : Reader) (progress : Progress (Node String)) :
    Stepped (Node String) :=
  match progress.tokens with
  | .blockEntry :: rest =>
    progress.add (orOmitted (fun token => token == .blockEntry || token == .blockEnd) read rest)
  | .blockEnd :: rest => progress.finish rest
  | _ => none

/-- An entry of a sequence that is indented no further than the key before it, or its end, which
has no token. -/
def flatSequenceStep (read : Reader) (progress : Progress (Node String)) :
    Stepped (Node String) :=
  match progress.tokens with
  | .blockEntry :: rest =>
    progress.add (orOmitted (fun token =>
      token == .blockEntry || token == .key || token == .value || token == .blockEnd) read rest)
  | rest => progress.finish rest

/-- Reads a key and a value of a block mapping. Either may be left out, but not both. -/
def readBlockPair (read : Reader) (tokens : List Token) : Read (Node String × Node String) :=
  let ends := fun token => token == .key || token == .value || token == .blockEnd
  let key : Read (Node String) :=
    match tokens with
    | .key :: rest => orOmitted ends read rest
    | _ => none
  key.bind fun (key, rest) =>
    match rest with
    | .value :: rest =>
      (orOmitted ends read rest).map fun (value, rest) => ((key, value), rest)
    | rest => some ((key, omitted), rest)

def blockMappingStep (read : Reader) (progress : Progress (Node String × Node String)) :
    Stepped (Node String × Node String) :=
  match progress.tokens with
  | .blockEnd :: rest => progress.finish rest
  | tokens => progress.add (readBlockPair read tokens)

/-- Passes the comma between entries. None comes before the first. -/
def skipComma {α : Type} (progress : Progress α) (close : Token) : Option (List Token) :=
  match progress.done, progress.tokens with
  | [], tokens => some tokens
  | _, .flowEntry :: rest => some rest
  | _, token :: rest => if token == close then some (token :: rest) else none
  | _, [] => none

/-- Reads the single pair that a mark of a key makes of an entry between square brackets. When its
key is left out, the token there is passed over. -/
def readSinglePair (read : Reader) (tokens : List Token) : Read (Node String) :=
  let key : Read (Node String) :=
    match tokens with
    | .value :: rest | .flowEntry :: rest | .flowSequenceEnd :: rest => some (omitted, rest)
    | tokens => read tokens
  key.bind fun (key, rest) =>
    match rest with
    | .value :: rest =>
      (orOmitted (fun token => token == .flowEntry || token == .flowSequenceEnd) read rest).map
        fun (value, rest) => (.mapping {} [(key, value)], rest)
    | rest => some (.mapping {} [(key, omitted)], rest)

/-- An entry between square brackets, or the end. `readInPair` reads the nodes of a single pair,
which lie one level deeper. -/
def flowSequenceStep (read : Reader) (readInPair : Option Reader)
    (progress : Progress (Node String)) : Stepped (Node String) :=
  (skipComma progress .flowSequenceEnd).bind fun tokens =>
    match tokens with
    | .flowSequenceEnd :: rest => progress.finish rest
    | .key :: rest => readInPair.bind fun read => progress.add (readSinglePair read rest)
    | tokens => progress.add (read tokens)

/-- Reads a key and a value between braces. Without a mark of a key there is no value. -/
def readFlowPair (read : Reader) (tokens : List Token) : Read (Node String × Node String) :=
  match tokens with
  | .key :: rest =>
    let key := orOmitted (fun token =>
      token == .value || token == .flowEntry || token == .flowMappingEnd) read rest
    key.bind fun (key, rest) =>
      match rest with
      | .value :: rest =>
        (orOmitted (fun token => token == .flowEntry || token == .flowMappingEnd) read rest).map
          fun (value, rest) => ((key, value), rest)
      | rest => some ((key, omitted), rest)
  | tokens => (read tokens).map fun (key, rest) => ((key, omitted), rest)

def flowMappingStep (read : Reader) (progress : Progress (Node String × Node String)) :
    Stepped (Node String × Node String) :=
  (skipComma progress .flowMappingEnd).bind fun tokens =>
    match tokens with
    | .flowMappingEnd :: rest => progress.finish rest
    | tokens => progress.add (readFlowPair read tokens)

/-- Reads entries to the end of a collection. -/
def readEntries {α : Type} (step : Progress α → Stepped α) (tokens : List Token) : Read (List α) :=
  runSteps Progress.left step ⟨[], tokens⟩

/-! ### Nodes -/

/-- Where a node stands: whether block collections may start there, and whether a sequence may
start without an indentation of its own. -/
structure Context where
  inBlock : Bool
  flatSequences : Bool

/-- A reader of the nodes in a collection, for every context. -/
abbrev ContextReader := Context → Reader

/-- Reads the collection that starts here, or says that none does. `inner` reads the nodes in it,
and `inPair` those another level deeper. -/
def readCollection (inner : ContextReader) (inPair : Option ContextReader) (context : Context)
    (properties : Properties String) (tokens : List Token) : Option (Read (Node String)) :=
  let sequence (read : Read (List (Node String))) : Read (Node String) :=
    read.map fun (items, rest) => (.sequence properties items, rest)
  let mapping (read : Read (List (Node String × Node String))) : Read (Node String) :=
    read.map fun (entries, rest) => (.mapping properties entries, rest)
  let item := inner ⟨true, false⟩
  let member := inner ⟨true, true⟩
  let flow := inner ⟨false, false⟩
  match tokens with
  | .blockEntry :: _ =>
    if context.flatSequences then some (sequence (readEntries (flatSequenceStep item) tokens))
    else none
  | .flowSequenceStart :: rest =>
    let flowInPair := inPair.map fun read => read ⟨false, false⟩
    some (sequence (readEntries (flowSequenceStep flow flowInPair) rest))
  | .flowMappingStart :: rest => some (mapping (readEntries (flowMappingStep flow) rest))
  | .blockSequenceStart :: rest =>
    if context.inBlock then some (sequence (readEntries (blockSequenceStep item) rest)) else none
  | .blockMappingStart :: rest =>
    if context.inBlock then some (mapping (readEntries (blockMappingStep member) rest)) else none
  | _ => none

/-- Reads a node with the readers of the levels below it, of which the last may not have any. -/
def readWith (handles : List (String × String)) (inner inPair : Option ContextReader) :
    ContextReader := fun context tokens =>
  match tokens with
  | .alias name :: rest => some (.alias name, rest)
  | tokens =>
    (readProperties handles tokens).bind fun (properties, rest) =>
      match rest with
      | .scalar text isPlain :: rest =>
        -- A lone exclamation mark says no more than that the scalar is read as it is plain.
        if properties.tag == some "!" then
          some (.scalar { properties with tag := none } text isPlain, rest)
        else some (.scalar properties text isPlain, rest)
      | rest =>
        let collection := readCollection (inner.getD fun _ _ => none) inPair context properties rest
        match collection with
        | some read => if inner.isSome then read else none
        | none =>
          if properties.tag.isSome || properties.anchor.isSome then
            some (.scalar properties "" true, rest)
          else none

/-- Reads a node of at most `depth` levels. -/
def read (handles : List (String × String)) (depth : Nat) (context : Context)
    (tokens : List Token) : Read (Node String) :=
  match depth with
  | 0 => readWith handles none none context tokens
  | 1 => readWith handles (some (read handles 0)) none context tokens
  | depth + 2 =>
    readWith handles (some (read handles (depth + 1))) (some (read handles depth)) context tokens

/-- Whether a document without content ends here. -/
def endsDocument : Token → Bool
  | .documentStart | .documentEnd | .version _ _ | .tagDirective _ _ => true
  | _ => false

/-- Reads a document: its directives and its mark, which may both be missing, and its node. -/
def readDocument (tokens : List Token) : Read (Node String) :=
  match tokens with
  | .version _ _ :: _ | .tagDirective _ _ :: _ | .documentStart :: _ =>
    (readDirectives {} tokens).bind fun (directives, rest) =>
      match rest with
      | .documentStart :: [] => some (omitted, [])
      | .documentStart :: rest =>
        orOmitted endsDocument
          (read (directives.handles ++ defaultHandles) maxDepth ⟨true, false⟩) rest
      | _ => none
  | tokens => read defaultHandles maxDepth ⟨true, false⟩ tokens

/-- The node of the only document of a text. A text without any is empty. -/
def ofTokens? (tokens : List Token) : Option (Node String) :=
  if tokens.isEmpty then some omitted
  else
    match readDocument tokens with
    | some (node, rest) =>
      if rest.all (· == .documentEnd) then some node else none
    | none => none

end Node

end ApiTypes.Yaml
