import ApiTypes.Text.Lines
import ApiTypes.Text.Quoted

/-!
Identifiers: which names can stand unquoted as a property key, and how a declaration's name is
made from arbitrary text.
-/

namespace ApiTypes.Text

/-- The letters `A` to `Z` in either case. -/
def isLetter (c : Char) : Bool :=
  c.isAlpha

/-- Characters an identifier may start with. -/
def isIdentifierStart (c : Char) : Bool :=
  isLetter c || c == '_' || c == '$'

/-- Characters an identifier may go on with. -/
def isIdentifierPart (c : Char) : Bool :=
  isIdentifierStart c || c.isDigit

/-- A nonempty run of identifier characters that starts as an identifier does. -/
def isIdentifier (name : String) : Bool :=
  match name.toList with
  | [] => false
  | c :: rest => isIdentifierStart c && rest.all isIdentifierPart

/-- A property key: the name itself when it is an identifier, else a literal. -/
def propertyKey (name : String) : String :=
  if isIdentifier name then name else quoted name

/-- Global types that a declaration must not hide. Only capitalised names are listed: a
declaration's name never starts with a small letter. -/
def globalTypes : List String :=
  ["Array", "Record", "Partial", "Required", "Readonly", "Pick", "Omit", "Exclude", "Extract",
    "NonNullable", "ReturnType", "Date", "Promise", "Object", "String", "Number", "Boolean",
    "Symbol", "BigInt", "Function", "Error", "Map", "Set", "RegExp"]

/-- A word with its first character in upper case. -/
def capitalized : List Char → List Char
  | [] => []
  | c :: rest => c.toUpper :: rest

/-- The words of a text (its stretches of identifier characters), capitalised and joined. -/
def camelCase (text : String) : String :=
  String.ofList ((pieces (fun c => !isIdentifierPart c) text.toList).flatMap capitalized)

/-- Whether a joined name needs a mark in front: it starts with a digit or hides a global type. -/
def needsMark (name : String) : Bool :=
  (match name.toList with
    | [] => true
    | c :: _ => c.isDigit) || globalTypes.contains name

/-- A type name made from arbitrary text. -/
def typeName (text : String) : String :=
  let name := camelCase text
  if needsMark name then "_" ++ name else name

end ApiTypes.Text
