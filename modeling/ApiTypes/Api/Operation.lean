import ApiTypes.Api.Chain
import ApiTypes.Api.Dialect
import ApiTypes.NameTable
import ApiTypes.Schema.Documentation

/-!
Operations: a method of a path with its parameters, body and responses. `Operation.plan` collects
them from the document and names the declarations they will have, before any type is made.
-/

namespace ApiTypes.Api

/-- The parts of an operation that hold a type without being schemas. -/
inductive Part
  | response
  | requestBody
  | parameter
  deriving DecidableEq, Repr

/-- A parameter, as written in a list of parameters. What it says is read from the part that the
written node refers to. -/
structure Parameter where
  name : String
  location : String
  required : Bool
  written : Located
  doc : Option Doc

/-- A request body as written: a part of its own, or a parameter. -/
structure Body where
  written : Located
  part : Part
  required : Bool
  doc : Option Doc

/-- The response to one status, with the name of its declaration. -/
structure Response where
  status : String
  written : Located
  doc : Option Doc
  name : String

/-- A place that gets a declaration, with its name. -/
structure Named where
  pointer : Pointer
  name : String

structure Operation where
  path : String
  method : String
  doc : Option Doc
  parameters : List Parameter
  /-- The declaration of the parameters, if there are any. -/
  parametersNamed : Option Named
  /-- The body, and its declaration. -/
  body : Option (Body × Named)
  responses : List Response

/-- The methods of a path that are operations. -/
def methods : List String :=
  ["get", "put", "post", "delete", "options", "head", "patch", "trace"]

/-- The path and method of an operation, by its place. -/
def operationAt? (pointer : Pointer) : Option (String × String) :=
  match pointer.segments with
  | ["paths", path, method] => if methods.contains method then some (path, method) else none
  | _ => none

/-- Naming the declarations of a document, which may fail on a reference that leads nowhere. -/
abbrev PlanM := StateT NameTable (Except CompileError)

/-- Names a place. -/
def assignName (pointer : Pointer) (base : String) : PlanM String :=
  modifyGet fun names => names.assign pointer base

/-- The part that a written node is or refers to. -/
def lookUp (index : Index) (written : Located) : PlanM Json :=
  liftM (deref index written)

namespace Operation

/-! ### Parameters -/

/-- A written parameter with the part it refers to. -/
structure Entry where
  written : Located
  part : Json

def Entry.location (entry : Entry) : String :=
  (entry.part.text? "in").getD ""

def Entry.isBody (entry : Entry) : Bool :=
  entry.location == "body"

def Entry.parameter (entry : Entry) : Parameter where
  name := (entry.part.text? "name").getD ""
  location := entry.location
  required := entry.part.flag "required"
  written := entry.written
  doc := Schema.doc? entry.part

def Entry.body (entry : Entry) : Body where
  written := entry.written
  part := .parameter
  required := entry.part.flag "required"
  doc := Schema.doc? entry.part

/-- The elements of the list at a place with their places. Where there is no list there are
none. -/
def listedAt (index : Index) (pointer : Pointer) : List Located :=
  match (index.get? pointer).bind Json.array? with
  | some items => items.zipIdx.map fun (item, number) => ⟨pointer.element number, item⟩
  | none => []

/-- The parameters written for an operation: those of its path, then its own. -/
def writtenParameters (index : Index) (pointer : Pointer) : List Located :=
  ((pointer.parent?.map fun item => listedAt index (item.child "parameters")).getD []) ++
    listedAt index (pointer.child "parameters")

/-- Looks up what written parameters refer to. -/
def entries (index : Index) : List Located → PlanM (List Entry)
  | [] => return []
  | written :: rest => do
    let part ← lookUp index written
    let later ← entries index rest
    return ⟨written, part⟩ :: later

/-- Adds a parameter at the end. One of the same name and location gives way. -/
def override (parameters : List Parameter) (parameter : Parameter) : List Parameter :=
  (parameters.filter fun other =>
    !(other.name == parameter.name && other.location == parameter.location)) ++ [parameter]

/-- The parameters of an operation: of those with one name and location, the last. -/
def mergeParameters (entries : List Entry) : List Parameter :=
  ((entries.filter (!·.isBody)).map Entry.parameter).foldl override []

/-! ### Body and responses -/

/-- The body of an operation: the part under `requestBody` where the dialect has one, else the
last parameter that is a body. -/
def bodyOf (index : Index) (dialect : Dialect) (here : Located) (entries : List Entry) :
    PlanM (Option Body) := do
  let ofParameters := (entries.filter Entry.isBody).getLast?.map Entry.body
  match dialect, here.node.get? "requestBody" with
  | .openApi3, some node =>
    let written : Located := ⟨here.place.child "requestBody", node⟩
    let part ← lookUp index written
    return some ⟨written, .requestBody, part.flag "required", Schema.doc? part⟩
  | _, _ => return ofParameters

/-- The responses of an operation by status. Keys that start with `x-` are no status. -/
def responsesOf (index : Index) (name : String) (place : Pointer) :
    List (String × Json) → PlanM (List Response)
  | [] => return []
  | (status, node) :: rest => do
    if ['x', '-'].isPrefixOf status.toList then responsesOf index name place rest
    else
      let written : Located := ⟨place.child status, node⟩
      let part ← lookUp index written
      let declared ← assignName written.place (name ++ " " ++ status ++ " Response")
      let later ← responsesOf index name place rest
      return ⟨status, written, Schema.doc? part, declared⟩ :: later

/-! ### Operations -/

/-- The documentation of an operation: its summary and description. -/
def docOf (node : Json) : Option Doc :=
  Doc.nonempty? {
    summary := Schema.proseUnder node "summary" ++ Schema.proseUnder node "description"
    tags := Schema.deprecatedTags node }

/-- The name that the declarations of an operation share. -/
def baseName (path method : String) (node : Json) : String :=
  Text.typeName ((node.text? "operationId").getD (method ++ " " ++ path))

/-- Names the place of a part when there is such a part. -/
def nameIf (present : Bool) (pointer : Pointer) (base : String) : PlanM (Option Named) := do
  if present then return some ⟨pointer, ← assignName pointer base⟩ else return none

/-- Collects an operation and names its declarations. -/
def plan (index : Index) (dialect : Dialect) (path method : String) (here : Located) :
    PlanM Operation := do
  let name := baseName path method here.node
  let entries ← entries index (writtenParameters index here.place)
  let body ← bodyOf index dialect here entries
  let parameters := mergeParameters entries
  let parametersNamed ← nameIf (!parameters.isEmpty) (here.place.child "parameters")
    (name ++ " Parameters")
  let bodyNamed ← nameIf body.isSome (here.place.child "requestBody") (name ++ " RequestBody")
  let responses ← responsesOf index name (here.place.child "responses")
    (((here.node.get? "responses").bind Json.object?).getD [])
  return {
    path, method, parameters, parametersNamed, responses
    doc := docOf here.node
    body := body.bind fun body => bodyNamed.map fun named => (body, named) }

end Operation

end ApiTypes.Api
