import ApiTypes.Proofs.Lists
import ApiTypes.Proofs.Reading.Lexer
import ApiTypes.TypeExpr.Basic

/-!
# Declarations of a text

The second half of the reading: the grammar of declarations over tokens. `|` binds weaker than `&`,
and that weaker than `[]` behind a type. `read` gives the declared names with their types, and
`Agrees` says that a type read is the one printed.
-/

namespace ApiTypes.Reading

/-- Reads something off the beginning of the tokens, and leaves the rest. -/
abbrev Reader (α : Type) :=
  List Token → Option (α × List Token)

/-- What follows a mark, where the mark comes next. -/
def after? (c : Char) : List Token → Option (List Token)
  | .mark d :: rest => if d = c then some rest else none
  | _ => none

/-- One or more operands, with a mark between them. -/
def separated {α : Type} (operand : Reader α) (c : Char) : Nat → Reader (List α)
  | 0, _ => none
  | fuel + 1, tokens => do
    let (first, rest) ← operand tokens
    match after? c rest with
    | some rest =>
      let (others, rest) ← separated operand c fuel rest
      return (first :: others, rest)
    | none => return ([first], rest)

/-! ## Types -/

/-- The literal of a number behind its sign. Without a point it is whole. -/
def numeral? (negative : Bool) : Token → Option Literal
  | .whole value => some (.int (if negative then -(value : Int) else value))
  | .decimal digits places => some (.number (.ofDecimal negative digits (-(places : Int))))
  | _ => none

/-- The words that stand for a type of their own. -/
def keywordTypes : List (String × TypeExpr) :=
  [("string", .string), ("number", .number), ("boolean", .primitive .boolean), ("never", .never),
    ("undefined", .undefined), ("unknown", .unknown none), ("true", .literal (.bool true)),
    ("false", .literal (.bool false)), ("null", .null)]

/-- The type that a word stands for. -/
def wordType (name : String) : TypeExpr :=
  (keywordTypes.lookup name).getD (.ref name)

/-- A type with as many `[]` behind it as follow. -/
def arrays (item : TypeExpr) : List Token → TypeExpr × List Token
  | .mark '[' :: .mark ']' :: rest => arrays (.array item) rest
  | rest => (item, rest)

/-- A type that stands for itself within any other. `type` reads what is in parentheses. -/
def primary (type : Reader TypeExpr) (members : Reader (List Member)) : Reader TypeExpr
  | .mark '(' :: rest => do
    let (inner, rest) ← type rest
    let rest ← after? ')' rest
    return (inner, rest)
  | .mark '\x7b' :: rest => do
    let (inner, rest) ← members rest
    return (.object inner, rest)
  | .mark '-' :: token :: rest => (numeral? true token).map fun value => (.literal value, rest)
  | .quoted text :: rest => some (.literal (.string text), rest)
  | .word name :: rest => some (wordType name, rest)
  | token :: rest => (numeral? false token).map fun value => (.literal value, rest)
  | [] => none

/-- Operands joined to one type, if they are several. -/
def joined (join : List TypeExpr → TypeExpr) : List TypeExpr → TypeExpr
  | [type] => type
  | types => join types

def operand (type : Reader TypeExpr) (members : Reader (List Member)) : Reader TypeExpr :=
  fun tokens => (primary type members tokens).map fun (item, rest) => arrays item rest

def conjunction (type : Reader TypeExpr) (members : Reader (List Member)) : Reader TypeExpr :=
  fun tokens =>
    (separated (operand type members) '&' tokens.length tokens).map fun (types, rest) =>
      (joined .intersection types, rest)

def alternation (type : Reader TypeExpr) (members : Reader (List Member)) : Reader TypeExpr :=
  fun tokens =>
    (separated (conjunction type members) '|' tokens.length tokens).map fun (types, rest) =>
      (joined .union types, rest)

/-! ## Members -/

def key? : Token → Option String
  | .word name => some name
  | .quoted text => some text
  | _ => none

/-- Whether the word `readonly` comes next, before a key. Else it is a key itself. -/
def readonlyMark : List Token → Bool × List Token
  | .word name :: token :: rest =>
    if name = "readonly" ∧ (key? token).isSome then (true, token :: rest)
    else (false, .word name :: token :: rest)
  | tokens => (false, tokens)

def optionalMark : List Token → Bool × List Token
  | .mark '?' :: rest => (true, rest)
  | tokens => (false, tokens)

/-- One member of an object type, with the mark that ends it. -/
def member (type : Reader TypeExpr) : Reader Member
  | .mark '[' :: .word _ :: .mark ':' :: rest => do
    let (key, rest) ← type rest
    let rest ← after? ']' rest
    let rest ← after? ':' rest
    let (value, rest) ← type rest
    let rest ← after? ';' rest
    return (.index key value, rest)
  | tokens =>
    match readonlyMark tokens with
    | (isReadonly, token :: rest) => do
      let name ← key? token
      let (isOptional, rest) := optionalMark rest
      let rest ← after? ':' rest
      let (value, rest) ← type rest
      let rest ← after? ';' rest
      return (.property name value isOptional isReadonly none, rest)
    | (_, []) => none

/-- Members up to the closing brace. -/
def members (type : Reader TypeExpr) : Nat → Reader (List Member)
  | 0, _ => none
  | fuel + 1, tokens =>
    match after? '\x7d' tokens with
    | some rest => some ([], rest)
    | none => do
      let (first, rest) ← member type tokens
      let (others, rest) ← members type fuel rest
      return (first :: others, rest)

/-- A type that is nested in at most so many others. -/
def typeWithin : Nat → Reader TypeExpr
  | 0, _ => none
  | depth + 1, tokens =>
    alternation (typeWithin depth) (members (typeWithin depth) tokens.length) tokens

/-! ## Declarations -/

/-- A declared name with its type. -/
def declaration (depth : Nat) : Reader (String × TypeExpr)
  | .word first :: .word second :: .word name :: rest =>
    if first = "export" ∧ second = "interface" then do
      let rest ← after? '\x7b' rest
      let (inner, rest) ← members (typeWithin depth) rest.length rest
      return ((name, .object inner), rest)
    else if first = "export" ∧ second = "type" then do
      let rest ← after? '=' rest
      let (type, rest) ← typeWithin depth rest
      let rest ← after? ';' rest
      return ((name, type), rest)
    else none
  | _ => none

def declarations (depth : Nat) : Nat → List Token → Option (List (String × TypeExpr))
  | _, [] => some []
  | 0, _ => none
  | fuel + 1, tokens => do
    let (first, rest) ← declaration depth tokens
    let others ← declarations depth fuel rest
    return first :: others

/-- The declarations that a whole text makes. No type in it is nested deeper than it has tokens. -/
def read (text : String) : Option (List (String × TypeExpr)) := do
  let tokens ← lex text
  declarations tokens.length tokens.length tokens

/-! ## Agreement -/

/-- Literals of one value. A number that is read without a point is whole, also where it was not
printed as such. -/
def SameLiteral : Literal → Literal → Prop
  | .number x, .number y => x.same y = true
  | .number x, .int m => x.same (.ofInt m) = true
  | a, b => a = b

mutual

/-- The types that an intersection is of, also those of intersections within it. -/
def conjunctsOf : TypeExpr → List TypeExpr
  | .intersection types => conjunctsOfAll types
  | type => [type]

def conjunctsOfAll : List TypeExpr → List TypeExpr
  | [] => []
  | type :: rest => conjunctsOf type ++ conjunctsOfAll rest

end

mutual

/-- A type and how it is read: without documentation and notes, and with intersections taken
apart that stand in another. -/
inductive Agrees : TypeExpr → TypeExpr → Prop
  | primitive (kind : Primitive) : Agrees (.primitive kind) (.primitive kind)
  | literal {a b : Literal} (same : SameLiteral a b) : Agrees (.literal a) (.literal b)
  | ref (name : String) : Agrees (.ref name) (.ref name)
  | unknown (note : Option String) : Agrees (.unknown note) (.unknown none)
  | array {a b : TypeExpr} (item : Agrees a b) : Agrees (.array a) (.array b)
  | object {as bs : List Member} (members : List.Forall₂ MemberAgrees as bs) :
      Agrees (.object as) (.object bs)
  | union {as bs : List TypeExpr} (types : List.Forall₂ Agrees as bs) :
      Agrees (.union as) (.union bs)
  | intersection {as bs : List TypeExpr} (types : List.Forall₂ Agrees (conjunctsOfAll as) bs) :
      Agrees (.intersection as) (.intersection bs)

inductive MemberAgrees : Member → Member → Prop
  | property {name : String} {a b : TypeExpr} {isOptional isReadonly : Bool} {doc : Option Doc}
      (type : Agrees a b) :
      MemberAgrees (.property name a isOptional isReadonly doc)
        (.property name b isOptional isReadonly none)
  | index {key key' a b : TypeExpr} (ofKey : Agrees key key') (value : Agrees a b) :
      MemberAgrees (.index key a) (.index key' b)

end

end ApiTypes.Reading
