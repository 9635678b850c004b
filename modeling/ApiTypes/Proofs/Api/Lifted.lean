import ApiTypes.Api.Assembly
import ApiTypes.Proofs.Typing.Lifted

/-!
# Assembly among other effects

The declarations of a document, made in any monad that has the steps of typing, and where typing a
schema of the document is handed in (`root`). What holds of that, and is carried on by sequencing
and by steps that only warn, holds of making all declarations (`typedDeclarations_carries`): of those
of the parameters of an operation if it also holds of warning about their locations (`located`).
-/

namespace ApiTypes.Api

open Typing

namespace Lifted

section
variable {m : Type → Type} [Monad m] (lift : {α : Type} → TypingM α → m α)
  (root : Json → Pointer → m TypeExpr) (index : Index) (dialect : Dialect)

def partType (part : Part) (written : Located) : m TypeExpr := do
  let state ← lift MonadState.get
  match followChain index state.names.get? [] written with
  | .error error => lift (throw error)
  | .ok (.inl name) => return .ref name
  | .ok (.inr here) =>
    match typeSource dialect part here with
    | .schema schema => root schema.node schema.place
    | .fixed type => return type

def typedParameters : List Parameter → m (List TypedParameter)
  | [] => return []
  | parameter :: rest => do
    if parameterLocations.contains parameter.location then
      let type ← partType lift root index dialect .parameter parameter.written
      let later ← typedParameters rest
      return ⟨parameter, type⟩ :: later
    else
      lift (warn .unsupportedShape parameter.written.place
        ("unknown parameter location `" ++ parameter.location ++ "`"))
      typedParameters rest

def parametersType (parameters : List Parameter) : m TypeExpr := do
  let typed ← typedParameters lift root index dialect parameters
  return .object (parameterLocations.filterMap (parameterGroup? typed))

def componentType (kind : DeclarationKind) (here : Located) : m TypeExpr :=
  match kind with
  | .response => partType lift root index dialect .response here
  | .requestBody => partType lift root index dialect .requestBody here
  | .parameter => partType lift root index dialect .parameter here
  | _ => root here.node here.place

def parametersDeclaration (operation : Operation) : m (List Declaration) :=
  match operation.parametersNamed with
  | none => return []
  | some named => do
    let type ← parametersType lift root index dialect operation.parameters
    return [⟨named.name, named.pointer, .operationParameters, type, none⟩]

def bodyDeclaration (operation : Operation) : m (List Declaration) :=
  match operation.body with
  | none => return []
  | some (body, named) => do
    let type ← partType lift root index dialect body.part body.written
    return [⟨named.name, named.pointer, .operationRequestBody, type, body.doc⟩]

def responseDeclarations : List Response → m (List Declaration)
  | [] => return []
  | response :: rest => do
    let type ← partType lift root index dialect .response response.written
    let later ← responseDeclarations rest
    return ⟨response.name, response.written.place, .operationResponse, type, response.doc⟩ :: later

def operationDeclarations (operation : Operation) : m (List Declaration) := do
  let parameters ← parametersDeclaration lift root index dialect operation
  let body ← bodyDeclaration lift root index dialect operation
  let responses ← responseDeclarations lift root index dialect operation.responses
  return parameters ++ body ++ responses

def candidateDeclarations : Candidate → m (List Declaration)
  | .component here kind name => do
    let type ← componentType lift root index dialect kind here
    return [⟨name, here.place, kind, type, Schema.doc? here.node⟩]
  | .operation operation => operationDeclarations lift root index dialect operation

def allDeclarations : List Candidate → m (List Declaration)
  | [] => return []
  | candidate :: rest => do
    let first ← candidateDeclarations lift root index dialect candidate
    let later ← allDeclarations rest
    return first ++ later

def promotedDeclarations (declared : List Pointer) : m (List Declaration) := do
  let state ← lift MonadState.get
  match _next : nextPromoted? index declared state.promoted with
  | none => return []
  | some (target, name) =>
    let type ← root target.node target.pointer
    let later ← promotedDeclarations (declared ++ [target.pointer])
    return ⟨name, target.pointer, .promoted, type, Schema.doc? target.node⟩ :: later
termination_by index.unvisited declared
decreasing_by exact Index.unvisited_lt target.found (not_mem_of_nextPromoted _next)

/-- Everything but the wrapper. -/
def typedDeclarations (candidates : List Candidate) : m (List Declaration) := do
  let declared ← allDeclarations lift root index dialect candidates
  let promoted ← promotedDeclarations lift root index []
  return declared ++ promoted

end

end Lifted

/-! ## Relations that assembly carries on -/

section
variable {raised : Warning → Prop} {m : Type → Type} [Monad m]
  {lift : {α : Type} → TypingM α → m α} {R : {α : Type} → m α → TypingM α → Prop}
  (carries : Typing.Lifted.Carries raised lift R)
  {root : Json → Pointer → m TypeExpr} {index : Index}
  (rooted : ∀ node place, R (root node place) (typeOfRoot index node place)) (dialect : Dialect)
include carries rooted

theorem partType_carries (part : Part) (written : Located) :
    R (Lifted.partType lift root index dialect part written)
      (partType index dialect part written) := by
  apply carries.bind (carries.quiet .get)
  intro state
  dsimp only
  rcases followChain index state.names.get? [] written with error | name | here
  · exact carries.quiet (.throw error)
  · exact carries.pure _
  · dsimp only
    cases typeSource dialect part here with
    | schema schema => exact rooted _ _
    | fixed type => exact carries.pure _

theorem bodyDeclaration_carries (operation : Operation) :
    R (Lifted.bodyDeclaration lift root index dialect operation)
      (bodyDeclaration index dialect operation) := by
  unfold bodyDeclaration Lifted.bodyDeclaration
  cases operation.body with
  | none => exact carries.pure _
  | some written =>
    obtain ⟨body, named⟩ := written
    apply carries.bind (partType_carries carries rooted dialect body.part body.written)
    intro type
    exact carries.pure _

theorem responseDeclarations_carries (responses : List Response) :
    R (Lifted.responseDeclarations lift root index dialect responses)
      (responseDeclarations index dialect responses) := by
  induction responses with
  | nil => exact carries.pure _
  | cons response rest ih =>
    apply carries.bind (partType_carries carries rooted dialect .response response.written)
    intro type
    exact carries.bind ih fun later => carries.pure _

theorem componentType_carries (kind : DeclarationKind) (here : Located) :
    R (Lifted.componentType lift root index dialect kind here)
      (componentType index dialect kind here) := by
  unfold componentType Lifted.componentType
  cases kind with
  | response | requestBody | parameter => exact partType_carries carries rooted dialect _ here
  | _ => exact rooted _ _

omit dialect in
theorem promotedDeclarations_carries (declared : List Pointer) :
    R (Lifted.promotedDeclarations lift root index declared)
      (promotedDeclarations index declared) := by
  rw [promotedDeclarations, Lifted.promotedDeclarations]
  apply carries.bind (carries.quiet .get)
  intro state
  generalize next : nextPromoted? index declared state.promoted = found
  cases found with
  | none => exact carries.pure _
  | some entry =>
    obtain ⟨target, name⟩ := entry
    have later : index.unvisited (declared ++ [target.pointer]) < index.unvisited declared :=
      Index.unvisited_lt target.found (not_mem_of_nextPromoted next)
    apply carries.bind (rooted _ _)
    intro type
    exact carries.bind (promotedDeclarations_carries _) fun later => carries.pure _
termination_by index.unvisited declared

section
variable (located : ∀ place location, raised
  ⟨.unsupportedShape, some place, "unknown parameter location `" ++ location ++ "`"⟩)
include located

theorem typedParameters_carries (parameters : List Parameter) :
    R (Lifted.typedParameters lift root index dialect parameters)
      (typedParameters index dialect parameters) := by
  induction parameters with
  | nil => exact carries.pure _
  | cons parameter rest ih =>
    unfold typedParameters Lifted.typedParameters
    split
    · apply carries.bind (partType_carries carries rooted dialect .parameter parameter.written)
      intro type
      exact carries.bind ih fun later => carries.pure _
    · apply carries.bind (carries.quiet (warn_quiet (located _ _)))
      intro
      exact ih

theorem parametersDeclaration_carries (operation : Operation) :
    R (Lifted.parametersDeclaration lift root index dialect operation)
      (parametersDeclaration index dialect operation) := by
  unfold parametersDeclaration Lifted.parametersDeclaration
  cases operation.parametersNamed with
  | none => exact carries.pure _
  | some named =>
    apply carries.bind
    · apply carries.bind (typedParameters_carries carries rooted dialect located operation.parameters)
      intro typed
      exact carries.pure _
    · intro type
      exact carries.pure _

theorem candidateDeclarations_carries (candidate : Candidate) :
    R (Lifted.candidateDeclarations lift root index dialect candidate)
      (candidateDeclarations index dialect candidate) := by
  cases candidate with
  | component here kind name =>
    apply carries.bind (componentType_carries carries rooted dialect kind here)
    intro type
    exact carries.pure _
  | operation operation =>
    apply carries.bind (parametersDeclaration_carries carries rooted dialect located operation)
    intro parameters
    apply carries.bind (bodyDeclaration_carries carries rooted dialect operation)
    intro body
    apply carries.bind (responseDeclarations_carries carries rooted dialect operation.responses)
    intro responses
    exact carries.pure _

theorem allDeclarations_carries (candidates : List Candidate) :
    R (Lifted.allDeclarations lift root index dialect candidates)
      (allDeclarations index dialect candidates) := by
  induction candidates with
  | nil => exact carries.pure _
  | cons candidate rest ih =>
    apply carries.bind (candidateDeclarations_carries carries rooted dialect located candidate)
    intro first
    exact carries.bind ih fun later => carries.pure _

/-- Making all declarations but the wrapper, when typing a schema of the document is related. -/
theorem typedDeclarations_carries (candidates : List Candidate) :
    R (Lifted.typedDeclarations lift root index dialect candidates)
      (typedDeclarations index dialect candidates) := by
  apply carries.bind (allDeclarations_carries carries rooted dialect located candidates)
  intro declared
  apply carries.bind (promotedDeclarations_carries carries rooted [])
  intro promoted
  exact carries.pure _

end

end

end ApiTypes.Api
