import ApiTypes.Problem
import ApiTypes.TypeExpr.Basic

/-!
Declarations: the named types of an output. `verifyClosure` finds a reference to a name that no
declaration has.
-/

namespace ApiTypes

/-- Why a type is declared. -/
inductive DeclarationKind
  /-- A named schema. -/
  | schema
  /-- A named response. -/
  | response
  /-- A named request body. -/
  | requestBody
  /-- A named parameter. -/
  | parameter
  /-- The parameters of one operation. -/
  | operationParameters
  /-- The request body of one operation. -/
  | operationRequestBody
  /-- The response of one operation to one status. -/
  | operationResponse
  /-- The target of a reference that is part of itself or too long to repeat. -/
  | promoted
  /-- The type that leads from paths and methods to the types of their operations. -/
  | apiWrapper
  deriving DecidableEq, Repr

structure Declaration where
  name : String
  /-- The place it is made from. -/
  pointer : Pointer
  kind : DeclarationKind
  type : TypeExpr
  doc : Option Doc

namespace Declaration

/-- The first name that a type refers to and no declaration has. -/
def undeclared? (declared : List String) (type : TypeExpr) : Option String :=
  type.refs.find? fun name => !declared.contains name

/-- Every name that a type refers to has a declaration. -/
def verifyClosure (declarations : List Declaration) : Except CompileError Unit :=
  let declared := declarations.map (·.name)
  let dangling := declarations.findSome? fun declaration =>
    (undeclared? declared declaration.type).map fun name =>
      CompileError.danglingReference name declaration.pointer
  match dangling with
  | some error => .error error
  | none => .ok ()

end Declaration

end ApiTypes
