import ApiTypes.Declaration.Basic
import ApiTypes.TypeExpr.Printer

/-!
Declarations as text. Object types are printed as interfaces, all others as type aliases.
-/

namespace ApiTypes

namespace Declaration

def toText (declaration : Declaration) : String :=
  Doc.toText 0 declaration.doc ++
    match declaration.type with
    | .object members =>
      "export interface " ++ declaration.name ++ " \x7b\n" ++ TypeExpr.membersText 1 members ++
        "\x7d\n"
    | type => "export type " ++ declaration.name ++ " = " ++ type.toText 0 ++ ";\n"

/-- The first lines of every output. -/
def banner : String :=
  "/**\n * This file was auto-generated by oats.\n * Do not make direct changes to the file.\n */\n"

/-- Whether a declaration is printed. A bare map of schemas has no operations to lead to. -/
def isPrinted (rawSchema : Bool) (declaration : Declaration) : Bool :=
  !(rawSchema && declaration.kind == .apiWrapper)

/-- The whole output: the banner, and the declarations with an empty line before each. -/
def print (rawSchema : Bool) (declarations : List Declaration) : String :=
  banner ++ String.join ((declarations.filter (isPrinted rawSchema)).map fun declaration =>
    "\n" ++ declaration.toText)

end Declaration

end ApiTypes
