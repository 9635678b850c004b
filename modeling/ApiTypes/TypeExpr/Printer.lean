import ApiTypes.Binary64.Text
import ApiTypes.Text.Identifier
import ApiTypes.TypeExpr.Basic

/-!
Type expressions as text. An object takes a line for each member, two blanks deeper than what it
stands in; everything else stands on its line.
-/

namespace ApiTypes

namespace Literal

/-- Numbers in a type are never written with an exponent, a whole one has no point, and a half
goes away from zero. -/
def numberFormat : Binary64.NumberFormat where
  tie := .up
  positional _ := true
  wholeMark := ""
  exponentPlus := ""
  infinity := "inf"
  negativeInfinity := "-inf"
  notANumber := "NaN"

def toText : Literal → String
  | .string value => Text.quoted value
  | .number value => value.toText numberFormat
  | .int value => toString value
  | .bool value => if value then "true" else "false"
  | .null => "null"

end Literal

def Primitive.toText : Primitive → String
  | .string => "string"
  | .number => "number"
  | .boolean => "boolean"
  | .never => "never"
  | .undefined => "undefined"

namespace Text

/-- The blanks before a line `depth` levels deep. -/
def indentation (depth : Nat) : String :=
  String.ofList (List.replicate (2 * depth) ' ')

/-- Text made fit for a block comment: what would end the comment is taken apart. -/
def commentChars : List Char → List Char
  | [] => []
  | '*' :: '/' :: rest => '*' :: '\\' :: '/' :: commentChars rest
  | c :: rest => c :: commentChars rest

def comment (text : String) : String :=
  String.ofList (commentChars text.toList)

end Text

namespace Doc

/-- What a comment says, line by line: the prose, then the tags. -/
def lines (doc : Doc) : List String :=
  doc.summary.map Text.comment ++
    doc.tags.map fun (tag, value) =>
      if value.isEmpty then "@" ++ tag else "@" ++ tag ++ " " ++ Text.comment value

/-- One line of a comment that has several. -/
def lineText (indentation line : String) : String :=
  if line.isEmpty then indentation ++ " *\n" else indentation ++ " * " ++ line ++ "\n"

/-- The comment that says so: a single line where there is one to say. -/
def commentText (depth : Nat) (lines : List String) : String :=
  let indentation := Text.indentation depth
  match lines with
  | [line] => indentation ++ "/** " ++ line ++ " */\n"
  | lines =>
    indentation ++ "/**\n" ++ String.join (lines.map (lineText indentation)) ++
      indentation ++ " */\n"

/-- The comment above what is documented. Nothing to say is no comment. -/
def toText (depth : Nat) : Option Doc → String
  | some doc => if doc.isEmpty then "" else commentText depth doc.lines
  | none => ""

end Doc

namespace TypeExpr

def isUnion : TypeExpr → Bool
  | .union _ => true
  | _ => false

def isIntersection : TypeExpr → Bool
  | .intersection _ => true
  | _ => false

def parenthesized (text : String) : String :=
  "(" ++ text ++ ")"

mutual

/-- The text of a type that stands `depth` levels deep. -/
def toText (depth : Nat) : TypeExpr → String
  | .primitive kind => kind.toText
  | .literal value => value.toText
  | .ref name => name
  | .unknown none => "unknown"
  | .unknown (some note) => "unknown /* " ++ Text.comment note ++ " */"
  | .array item =>
    let text := item.toText depth
    (if item.isUnion || item.isIntersection then parenthesized text else text) ++ "[]"
  | .union types => " | ".intercalate (alternativeTexts depth types)
  | .intersection types => " & ".intercalate (conjunctTexts depth types)
  | .object [] => "\x7b\x7d"
  | .object (member :: members) =>
    "\x7b\n" ++ memberText (depth + 1) member ++ membersText (depth + 1) members ++
      Text.indentation depth ++ "\x7d"

def alternativeTexts (depth : Nat) : List TypeExpr → List String
  | [] => []
  | type :: rest => type.toText depth :: alternativeTexts depth rest

def conjunctTexts (depth : Nat) : List TypeExpr → List String
  | [] => []
  | type :: rest =>
    let text := type.toText depth
    (if type.isUnion then parenthesized text else text) :: conjunctTexts depth rest

/-- The line of a member, under its documentation. -/
def memberText (depth : Nat) : Member → String
  | .property name type isOptional isReadonly doc =>
    Doc.toText depth doc ++ Text.indentation depth ++ (if isReadonly then "readonly " else "") ++
      Text.propertyKey name ++ (if isOptional then "?" else "") ++ ": " ++ type.toText depth ++ ";\n"
  | .index key value =>
    Text.indentation depth ++ "[key: " ++ key.toText depth ++ "]: " ++ value.toText depth ++ ";\n"

def membersText (depth : Nat) : List Member → String
  | [] => ""
  | member :: rest => memberText depth member ++ membersText depth rest

end

end TypeExpr

end ApiTypes
