import ApiTypes.Api.Operation
import ApiTypes.Declaration.Basic

/-!
The wrapper: one declaration that leads from every path and method to the declarations of the
operation's parameters, body and responses.
-/

namespace ApiTypes.Api

/-- The name of the wrapper. No other declaration has it, as their names start otherwise. -/
def wrapperName : String :=
  "paths"

/-- The members of an operation, by the names of its declarations. -/
def operationMembers (operation : Operation) : List Member :=
  (operation.parametersNamed.toList.map fun named =>
      Member.plain "parameters" (.ref named.name) (!operation.parameters.any (·.required))) ++
    (operation.body.toList.map fun (body, named) =>
      Member.plain "requestBody" (.ref named.name) (!body.required)) ++
    [Member.plain "responses"
      (.object (operation.responses.map fun response =>
        Member.plain response.status (.ref response.name) false)) false]

/-- The member for the method of an operation. -/
def methodMember (operation : Operation) : Member :=
  .property operation.method (.object (operationMembers operation)) false false operation.doc

/-- The paths of operations, each once, in order of their first operation. -/
def pathsOf (operations : List Operation) : List String :=
  operations.foldl
    (fun paths operation =>
      if paths.contains operation.path then paths else paths ++ [operation.path]) []

/-- The member for a path, with its operations. -/
def pathMember (operations : List Operation) (path : String) : Member :=
  .plain path
    (.object ((operations.filter fun operation => operation.path == path).map methodMember)) false

/-- The wrapper of all operations of a document. -/
def wrapper (operations : List Operation) : Declaration where
  name := wrapperName
  pointer := ⟨["paths"]⟩
  kind := .apiWrapper
  type := .object ((pathsOf operations).map (pathMember operations))
  doc := none

end ApiTypes.Api
