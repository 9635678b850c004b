import ApiTypes.Yaml.Node
import ApiTypes.Yaml.Scalar
import ApiTypes.Yaml.Token.Lexer

/-!
From nodes to values. An alias stands for the node its anchor is on, so a node may be read many
times; nesting and repetition are bounded, which also refuses a node that holds itself.

Anchors go by number. An anchor's number is how many different names came before it, and a number
means the last node that got it.
-/

namespace ApiTypes.Yaml

namespace Node

/-! ### Numbering anchors -/

/-- The anchors named so far with their numbers. -/
abbrev Anchors := List (String × Nat)

/-- Work on the anchors of a document, which fails at an alias without an anchor. -/
abbrev Numbering := StateT Anchors Option

/-- Gives the anchor of a node its number. -/
def numberAnchor (properties : Properties String) : Numbering (Properties Nat) :=
  match properties.anchor with
  | none => return ⟨properties.tag, none⟩
  | some name => do
    let anchors ← get
    let number := anchors.length
    set (Json.putField name number anchors)
    return ⟨properties.tag, some number⟩

/-- The number that a name means at an alias. -/
def numberOf (name : String) : Numbering Nat := do
  match (← get).lookup name with
  | some number => return number
  | none => failure

mutual

/-- Replaces the names of anchors by their numbers, in the order of the text. An alias has to come
after its anchor. -/
def numbered : Node String → Numbering (Node Nat)
  | .scalar properties text isPlain => do
    let properties ← numberAnchor properties
    return .scalar properties text isPlain
  | .sequence properties items => do
    let properties ← numberAnchor properties
    let items ← numberedItems items
    return .sequence properties items
  | .mapping properties entries => do
    let properties ← numberAnchor properties
    let entries ← numberedEntries entries
    return .mapping properties entries
  | .alias name => do
    let number ← numberOf name
    return .alias number

def numberedItems : List (Node String) → Numbering (List (Node Nat))
  | [] => return []
  | item :: rest => do
    let item ← numbered item
    let rest ← numberedItems rest
    return item :: rest

def numberedEntries : List (Node String × Node String) → Numbering (List (Node Nat × Node Nat))
  | [] => return []
  | (key, value) :: rest => do
    let key ← numbered key
    let value ← numbered value
    let rest ← numberedEntries rest
    return (key, value) :: rest

end

/-! ### Looking through a document -/

def properties : Node Nat → Properties Nat
  | .scalar properties _ _ => properties
  | .sequence properties _ => properties
  | .mapping properties _ => properties
  | .alias _ => {}

/-- A node with its number, if it has one. -/
def anchoredHere (node : Node Nat) : List (Nat × Node Nat) :=
  node.properties.anchor.toList.map fun number => (number, node)

mutual

/-- The nodes with numbers, in the order of the text. -/
def anchored : Node Nat → List (Nat × Node Nat)
  | .scalar properties text isPlain => anchoredHere (.scalar properties text isPlain)
  | .sequence properties items => anchoredHere (.sequence properties items) ++ anchoredItems items
  | .mapping properties entries =>
    anchoredHere (.mapping properties entries) ++ anchoredEntries entries
  | .alias _ => []

def anchoredItems : List (Node Nat) → List (Nat × Node Nat)
  | [] => []
  | item :: rest => item.anchored ++ anchoredItems rest

def anchoredEntries : List (Node Nat × Node Nat) → List (Nat × Node Nat)
  | [] => []
  | (key, value) :: rest => key.anchored ++ (value.anchored ++ anchoredEntries rest)

end

mutual

/-- How many marks a reader of the document meets: one for a scalar or an alias, two for a
collection. -/
def markCount : Node Nat → Nat
  | .scalar _ _ _ => 1
  | .sequence _ items => 2 + markCounts items
  | .mapping _ entries => 2 + markCountsOfEntries entries
  | .alias _ => 1

def markCounts : List (Node Nat) → Nat
  | [] => 0
  | item :: rest => item.markCount + markCounts rest

def markCountsOfEntries : List (Node Nat × Node Nat) → Nat
  | [] => 0
  | (key, value) :: rest => key.markCount + value.markCount + markCountsOfEntries rest

end

end Node

namespace Value

/-! ### Reading nodes -/

/-- What aliases stand for, and how often they may be read. -/
structure Sources where
  anchored : List (Nat × Node Nat)
  limit : Nat

/-- Reading nodes, while aliases are counted. -/
abbrev Composing := StateT Nat Option

/-- The node that a number means. -/
def Sources.node? (sources : Sources) (number : Nat) : Option (Node Nat) :=
  (sources.anchored.filter fun entry => entry.1 == number).getLast?.map (·.2)

/-- Counts an alias, and gives the node it stands for. -/
def follow (sources : Sources) (number : Nat) : Composing (Node Nat) := do
  let count := (← get) + 1
  set count
  if sources.limit < count then failure
  else
    match sources.node? number with
    | some node => return node
    | none => failure

/-- A value with the tag of its node, if that is one of the document's own. -/
def withTag (tag : Option String) (value : Value) : Value :=
  match tag with
  | some tag =>
    if Scalar.isLocal (some tag) then
      .tagged (if tag == "!" then tag else String.ofList (tag.toList.drop 1)) value
    else value
  | none => value

/-- Reads the nodes of a sequence. -/
def readItems (read : Node Nat → Composing Value) : List (Node Nat) → Composing (List Value)
  | [] => return []
  | item :: rest => do
    let item ← read item
    let rest ← readItems read rest
    return item :: rest

/-- Reads the entries of a mapping, behind those with the keys `before`. No two keys are equal. -/
def readEntries (readKey readValue : Node Nat → Composing Value) (before : List Value) :
    List (Node Nat × Node Nat) → Composing (List (Value × Value))
  | [] => return []
  | (key, value) :: rest => do
    let key ← readKey key
    if before.any (·.same key) then failure
    else
      let value ← readValue value
      let rest ← readEntries readKey readValue (key :: before) rest
      return (key, value) :: rest

/-- Reads a node that is no alias. `inner` reads the nodes in it, with their tags or without. In a
mapping with a tag of the document's own, the tags of keys do not count. -/
def readContent (inner : Option (Bool → Node Nat → Composing Value)) (withTags : Bool) :
    Node Nat → Composing Value
  | .scalar properties text isPlain => do
    let tag := if withTags then properties.tag else none
    match Scalar.value? tag text isPlain with
    | some value => return withTag tag value
    | none => failure
  | .sequence properties items => do
    let tag := if withTags then properties.tag else none
    match inner with
    | some read => return withTag tag (.sequence (← readItems (read true) items))
    | none => failure
  | .mapping properties entries => do
    let tag := if withTags then properties.tag else none
    let keyTags := withTags && !Scalar.isLocal tag
    match inner with
    | some read => return withTag tag (.mapping (← readEntries (read keyTags) (read true) [] entries))
    | none => failure
  | .alias _ => failure

/-- Reads a node of at most `depth` levels. -/
def read (sources : Sources) (depth : Nat) (withTags : Bool) (node : Node Nat) :
    Composing Value :=
  let inner :=
    match depth with
    | 0 => none
    | depth + 1 => some (read sources depth)
  match node with
  | .alias anchor => do
    let target ← follow sources anchor
    readContent inner true target
  | node => readContent inner withTags node

/-- The value of a document. Aliases may be read a hundred times for every mark in the text. -/
def ofNode? (node : Node String) : Option Value := do
  let (node, _) ← node.numbered.run []
  let sources : Sources := ⟨node.anchored, 100 * node.markCount⟩
  let (value, _) ← (read sources Node.maxDepth true node).run 0
  return value

/-- The value that a text denotes. -/
def parse? (text : String) : Option Value := do
  let tokens ← Token.ofText? text
  let node ← Node.ofTokens? tokens
  ofNode? node

end Value

end ApiTypes.Yaml
