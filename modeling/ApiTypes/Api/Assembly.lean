import ApiTypes.Api.Part
import ApiTypes.Api.Wrapper

/-!
The declarations of a document, in output order: what is named in it and its operations in
document order, then the places promoted while their types were made, then the wrapper.
-/

namespace ApiTypes.Api

open Typing

/-- What becomes declarations: a named part, or an operation. -/
inductive Candidate
  | component (here : Located) (kind : DeclarationKind) (name : String)
  | operation (operation : Operation)

/-- Why a place is declared, if it is a named part of the document. In a bare map of schemas every
entry is. -/
def componentKind? (dialect : Dialect) (rawSchema : Bool) (pointer : Pointer) :
    Option DeclarationKind :=
  if rawSchema then if pointer.depth = 1 then some .schema else none
  else
    match dialect, pointer.segments with
    | .openApi3, ["components", "schemas", _] => some .schema
    | .openApi3, ["components", "responses", _] => some .response
    | .openApi3, ["components", "requestBodies", _] => some .requestBody
    | .openApi3, ["components", "parameters", _] => some .parameter
    | .swagger2, ["definitions", _] => some .schema
    | .swagger2, ["responses", _] => some .response
    | .swagger2, ["parameters", _] => some .parameter
    | _, _ => none

/-- The candidate at a place, named. -/
def candidateAt (index : Index) (dialect : Dialect) (rawSchema : Bool) (here : Located) :
    PlanM (Option Candidate) :=
  match componentKind? dialect rawSchema here.place with
  | some kind => do
    let name ← assignName here.place (here.place.last?.getD "")
    return some (.component here kind name)
  | none =>
    if rawSchema then return none
    else
      match operationAt? here.place with
      | some (path, method) => do
        let operation ← Operation.plan index dialect path method here
        return some (.operation operation)
      | none => return none

/-- The candidates among places, in their order. -/
def candidates (index : Index) (dialect : Dialect) (rawSchema : Bool) :
    List (Pointer × Json) → PlanM (List Candidate)
  | [] => return []
  | (place, node) :: rest => do
    let candidate ← candidateAt index dialect rawSchema ⟨place, node⟩
    let later ← candidates index dialect rawSchema rest
    return candidate.toList ++ later

/-! ### Making the declarations -/

/-- The type of a named part. -/
def componentType (index : Index) (dialect : Dialect) (kind : DeclarationKind) (here : Located) :
    TypingM TypeExpr :=
  match kind with
  | .response => partType index dialect .response here
  | .requestBody => partType index dialect .requestBody here
  | .parameter => partType index dialect .parameter here
  | _ => typeOfRoot index here.node here.place

def parametersDeclaration (index : Index) (dialect : Dialect) (operation : Operation) :
    TypingM (List Declaration) :=
  match operation.parametersNamed with
  | none => return []
  | some named => do
    let type ← parametersType index dialect operation.parameters
    return [⟨named.name, named.pointer, .operationParameters, type, none⟩]

def bodyDeclaration (index : Index) (dialect : Dialect) (operation : Operation) :
    TypingM (List Declaration) :=
  match operation.body with
  | none => return []
  | some (body, named) => do
    let type ← partType index dialect body.part body.written
    return [⟨named.name, named.pointer, .operationRequestBody, type, body.doc⟩]

def responseDeclarations (index : Index) (dialect : Dialect) :
    List Response → TypingM (List Declaration)
  | [] => return []
  | response :: rest => do
    let type ← partType index dialect .response response.written
    let later ← responseDeclarations index dialect rest
    return ⟨response.name, response.written.place, .operationResponse, type, response.doc⟩ :: later

/-- The declarations of an operation: its parameters, its body, its responses. -/
def operationDeclarations (index : Index) (dialect : Dialect) (operation : Operation) :
    TypingM (List Declaration) := do
  let parameters ← parametersDeclaration index dialect operation
  let body ← bodyDeclaration index dialect operation
  let responses ← responseDeclarations index dialect operation.responses
  return parameters ++ body ++ responses

def candidateDeclarations (index : Index) (dialect : Dialect) :
    Candidate → TypingM (List Declaration)
  | .component here kind name => do
    let type ← componentType index dialect kind here
    return [⟨name, here.place, kind, type, Schema.doc? here.node⟩]
  | .operation operation => operationDeclarations index dialect operation

def allDeclarations (index : Index) (dialect : Dialect) :
    List Candidate → TypingM (List Declaration)
  | [] => return []
  | candidate :: rest => do
    let first ← candidateDeclarations index dialect candidate
    let later ← allDeclarations index dialect rest
    return first ++ later

/-- The first promoted place that is not declared yet. -/
def nextPromoted? (index : Index) (declared : List Pointer) (promoted : List (Pointer × String)) :
    Option (index.Target × String) :=
  (promoted.find? fun entry => !declared.contains entry.1).bind fun entry =>
    (index.target? entry.1).map fun target => (target, entry.2)

theorem not_mem_of_nextPromoted {index : Index} {declared : List Pointer}
    {promoted : List (Pointer × String)} {target : index.Target} {name : String}
    (next : nextPromoted? index declared promoted = some (target, name)) :
    target.pointer ∉ declared := by
  simp only [nextPromoted?, Option.bind_eq_some_iff, Option.map_eq_some_iff] at next
  obtain ⟨entry, first, found, same, pair⟩ := next
  cases pair
  have fresh := List.find?_some first
  simp only [List.contains_eq_mem, Bool.not_eq_true', decide_eq_false_iff_not] at fresh
  simp only [Index.target?] at same
  split at same
  · cases same
    exact fresh
  · cases same

/-- Declares the promoted places, also those promoted on the way. -/
def promotedDeclarations (index : Index) (declared : List Pointer) :
    TypingM (List Declaration) := do
  let state ← get
  match _next : nextPromoted? index declared state.promoted with
  | none => return []
  | some (target, name) =>
    let type ← typeOfRoot index target.node target.pointer
    let later ← promotedDeclarations index (declared ++ [target.pointer])
    return ⟨name, target.pointer, .promoted, type, Schema.doc? target.node⟩ :: later
termination_by index.unvisited declared
decreasing_by exact Index.unvisited_lt target.found (not_mem_of_nextPromoted _next)

/-! ### Assembly -/

/-- The declarations of a document and the warnings raised while making them. -/
structure Assembly where
  declarations : List Declaration
  warnings : List Warning

/-- The operations among candidates. -/
def operationsOf (candidates : List Candidate) : List Operation :=
  candidates.filterMap fun candidate =>
    match candidate with
    | .operation operation => some operation
    | .component _ _ _ => none

/-- Everything but the wrapper. -/
def typedDeclarations (index : Index) (dialect : Dialect) (candidates : List Candidate) :
    TypingM (List Declaration) := do
  let declared ← allDeclarations index dialect candidates
  let promoted ← promotedDeclarations index []
  return declared ++ promoted

/-- All declarations of a document. A bare map of schemas has no wrapper. -/
def assemble (index : Index) (dialect : Dialect) (rawSchema : Bool) :
    Except CompileError Assembly := do
  let (candidates, names) ← (candidates index dialect rawSchema index.locations).run {}
  let (result, state) := (typedDeclarations index dialect candidates).run.run { names }
  let typed ← result
  let declarations :=
    if rawSchema then typed else typed ++ [wrapper (operationsOf candidates)]
  Declaration.verifyClosure declarations
  return ⟨declarations, state.warnings⟩

end ApiTypes.Api
