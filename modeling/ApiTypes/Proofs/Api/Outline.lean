import ApiTypes.Compile
import ApiTypes.Proofs.Api.Closure
import ApiTypes.Proofs.Api.Collected
import ApiTypes.Proofs.Traversal

/-!
# The outline of an assembly

Which places are declared, as what, and in what order, told from the document alone:

* `Operation.outline`: the declarations of an operation, by what is written for it;
* `plan_outlined`: what is planned for an operation agrees with its outline;
* `assemble_outline`: the declarations are those that the places of the document contribute, in
  document order, then those of the promoted places, then the wrapper.
-/

namespace ApiTypes

namespace Api

open Typing

/-! ## Operations -/

namespace Operation

/-- A key under `responses` that names a status. -/
def isStatus (key : String) : Bool :=
  !(['x', '-'].isPrefixOf key.toList)

/-- What the parameters written for an operation are or refer to. -/
def writtenParts (index : Index) (place : Pointer) : List Json :=
  (writtenParameters index place).filterMap fun written => (deref index written).toOption

/-- The parameters listed for an operation, those of its path first, with what is written there or
what it refers to. -/
def listed (index : Index) (place : Pointer) : List Entry :=
  (writtenParameters index place).filterMap fun written =>
    (deref index written).toOption.map fun part => ⟨written, part⟩

/-- Whether a parameter is a request body. -/
def isBodyPart (part : Json) : Bool :=
  part.text? "in" == some "body"

/-- Whether an operation has parameters besides a body. Merging leaves one of those with the same
name and location, so it never leaves none. -/
def hasParameters (index : Index) (place : Pointer) : Bool :=
  (writtenParts index place).any fun part => !isBodyPart part

/-- Whether an operation has a body, written as such or as a parameter. -/
def hasBody (index : Index) (dialect : Dialect) (here : Located) : Bool :=
  (dialect == .openApi3 && (here.node.get? "requestBody").isSome) ||
    (writtenParts index here.place).any isBodyPart

/-- The statuses that an operation has responses for, in document order. -/
def statuses (node : Json) : List String :=
  ((((node.get? "responses").bind Json.object?).getD []).map (·.1)).filter isStatus

/-- The declarations of an operation: its parameters if there are any, its body if there is one,
and a response for every status. -/
def outline (index : Index) (dialect : Dialect) (here : Located) :
    List (Pointer × DeclarationKind) :=
  (if hasParameters index here.place then [(here.place.child "parameters", .operationParameters)]
    else []) ++
    (if hasBody index dialect here then [(here.place.child "requestBody", .operationRequestBody)]
      else []) ++
    (statuses here.node).map fun status =>
      ((here.place.child "responses").child status, .operationResponse)

/-- An operation is planned for what is written at its place. -/
structure Outlined (index : Index) (dialect : Dialect) (here : Located) (operation : Operation) :
    Prop where
  parameters : operation.parametersNamed.map (·.pointer) =
    if hasParameters index here.place then some (here.place.child "parameters") else none
  body : operation.body.map (·.2.pointer) =
    if hasBody index dialect here then some (here.place.child "requestBody") else none
  responses : operation.responses.map (fun response => (response.status, response.written.place)) =
    (statuses here.node).map fun status => (status, (here.place.child "responses").child status)

section
variable {index : Index} {before after : NameTable}

theorem lookUp_gives {written : Located} {part : Json}
    (h : (lookUp index written).run before = .ok (part, after)) :
    deref index written = .ok part ∧ after = before := by
  cases hd : deref index written with
  | error error => simp [lookUp, hd] at h
  | ok found =>
    have : (lookUp index written).run before = .ok (found, before) := by simp [lookUp, hd]
    rw [this] at h
    cases h
    exact ⟨rfl, rfl⟩

theorem entries_give {written : List Located} {found : List Entry}
    (h : (entries index written).run before = .ok (found, after)) :
    found.map (·.written) = written ∧ ∀ entry ∈ found, deref index entry.written = .ok entry.part := by
  induction written generalizing before after found with
  | nil =>
    obtain ⟨rfl, -⟩ := run_pure_eq_ok.1 h
    exact ⟨rfl, fun _ hm => nomatch hm⟩
  | cons first rest ih =>
    obtain ⟨part, _, hp, h⟩ := run_bind_eq_ok.1 h
    obtain ⟨later, _, hl, h⟩ := run_bind_eq_ok.1 h
    obtain ⟨rfl, -⟩ := run_pure_eq_ok.1 h
    obtain ⟨written, lead⟩ := ih hl
    constructor
    · rw [List.map_cons, written]
    · exact List.forall_mem_cons.2 ⟨(lookUp_gives hp).1, lead⟩

/-- What is looked up for an operation is what is listed for it. -/
theorem entries_listed {place : Pointer} {found : List Entry}
    (h : (entries index (writtenParameters index place)).run before = .ok (found, after)) :
    found = listed index place := by
  obtain ⟨written, lead⟩ := entries_give h
  rw [listed, ← written, List.filterMap_map]
  refine (List.filterMap_some).symm.trans (List.filterMap_congr fun entry hm => ?_)
  rw [Function.comp_apply, lead entry hm]
  rfl

theorem writtenParts_eq (place : Pointer) :
    writtenParts index place = (listed index place).map (·.part) := by
  rw [writtenParts, listed, List.map_filterMap]
  congr 1
  funext written
  cases (deref index written).toOption <;> rfl

theorem isBody_eq (entry : Entry) : entry.isBody = isBodyPart entry.part := by
  unfold Entry.isBody Entry.location isBodyPart
  cases entry.part.text? "in" with
  | none => decide
  | some text => rfl

theorem override_ne_nil (parameters : List Parameter) (parameter : Parameter) :
    override parameters parameter ≠ [] :=
  List.append_ne_nil_of_right_ne_nil _ (List.cons_ne_nil _ _)

theorem foldl_override_ne_nil (written : List Parameter) {start : List Parameter}
    (h : start ≠ []) : written.foldl override start ≠ [] := by
  induction written generalizing start with
  | nil => exact h
  | cons first rest ih => exact ih (override_ne_nil start first)

/-- Merging leaves parameters exactly if one is written that is no body. -/
theorem isEmpty_mergeParameters (found : List Entry) :
    (mergeParameters found).isEmpty = !(found.map (·.part)).any fun part => !isBodyPart part := by
  have same : (found.map (·.part)).any (fun part => !isBodyPart part) =
      found.any fun entry => !entry.isBody := by
    simp only [List.any_map, Function.comp_def, isBody_eq]
  rw [same]
  unfold mergeParameters
  cases hf : found.filter (fun entry => !entry.isBody) with
  | nil =>
    have none : found.any (fun entry => !entry.isBody) = false := by
      simpa [List.filter_eq_nil_iff] using hf
    rw [none]
    rfl
  | cons first rest =>
    have some : found.any (fun entry => !entry.isBody) = true := by
      have member : first ∈ found.filter fun entry => !entry.isBody := hf ▸ List.mem_cons_self
      obtain ⟨hm, hb⟩ := List.mem_filter.1 member
      exact List.any_eq_true.2 ⟨first, hm, hb⟩
    rw [some, List.map_cons, List.foldl_cons]
    simpa using foldl_override_ne_nil _ (override_ne_nil _ _)

theorem isSome_lastBody (found : List Entry) :
    ((found.filter Entry.isBody).getLast?.map Entry.body).isSome =
      (found.map (·.part)).any isBodyPart := by
  have same : (isBodyPart ∘ fun entry : Entry => entry.part) = Entry.isBody := by
    funext entry
    exact (isBody_eq entry).symm
  rw [Option.isSome_map, List.any_map, same, Bool.eq_iff_iff, List.getLast?_isSome,
    List.any_eq_true, ne_eq, List.filter_eq_nil_iff]
  simp

theorem bodyOf_gives {dialect : Dialect} {here : Located} {found : List Entry} {body : Option Body}
    (h : (bodyOf index dialect here found).run before = .ok (body, after)) :
    body.isSome = ((dialect == .openApi3 && (here.node.get? "requestBody").isSome) ||
      (found.map (·.part)).any isBodyPart) := by
  unfold bodyOf at h
  cases dialect with
  | swagger2 =>
    obtain ⟨rfl, -⟩ := run_pure_eq_ok.1 h
    exact isSome_lastBody found
  | openApi3 =>
    cases hn : here.node.get? "requestBody" with
    | none =>
      rw [hn] at h
      obtain ⟨rfl, -⟩ := run_pure_eq_ok.1 h
      exact isSome_lastBody found
    | some node =>
      rw [hn] at h
      obtain ⟨part, _, -, h⟩ := run_bind_eq_ok.1 h
      obtain ⟨rfl, -⟩ := run_pure_eq_ok.1 h
      rfl

theorem nameIf_gives {present : Bool} {place : Pointer} {base : String} {named : Option Named}
    (h : (nameIf present place base).run before = .ok (named, after)) :
    named.map (·.pointer) = if present then some place else none := by
  cases present with
  | false =>
    obtain ⟨rfl, -⟩ := run_pure_eq_ok.1 h
    rfl
  | true =>
    obtain ⟨name, _, -, h⟩ := run_bind_eq_ok.1 h
    obtain ⟨rfl, -⟩ := run_pure_eq_ok.1 h
    rfl

theorem responsesOf_give {name : String} {place : Pointer} {fields : List (String × Json)}
    {responses : List Response}
    (h : (responsesOf index name place fields).run before = .ok (responses, after)) :
    responses.map (fun response => (response.status, response.written.place)) =
      ((fields.map (·.1)).filter isStatus).map fun status => (status, place.child status) := by
  induction fields generalizing before after responses with
  | nil =>
    obtain ⟨rfl, -⟩ := run_pure_eq_ok.1 h
    rfl
  | cons field rest ih =>
    obtain ⟨status, node⟩ := field
    unfold responsesOf at h
    split at h
    · rename_i other
      rw [ih h, List.map_cons, List.filter_cons_of_neg (by simp [isStatus, other])]
    · rename_i proper
      obtain ⟨part, _, -, h⟩ := run_bind_eq_ok.1 h
      obtain ⟨declared, _, -, h⟩ := run_bind_eq_ok.1 h
      obtain ⟨later, _, hl, h⟩ := run_bind_eq_ok.1 h
      obtain ⟨rfl, -⟩ := run_pure_eq_ok.1 h
      rw [List.map_cons, ih hl, List.map_cons, List.filter_cons_of_pos (by simp [isStatus, proper]),
        List.map_cons]

theorem plan_outlined {dialect : Dialect} {path method : String} {here : Located}
    {operation : Operation}
    (h : (plan index dialect path method here).run before = .ok (operation, after)) :
    operation.Outlined index dialect here := by
  unfold plan at h
  obtain ⟨found, _, hf, h⟩ := run_bind_eq_ok.1 h
  obtain ⟨body, _, hb, h⟩ := run_bind_eq_ok.1 h
  obtain ⟨parametersNamed, _, hp, h⟩ := run_bind_eq_ok.1 h
  obtain ⟨bodyNamed, _, hn, h⟩ := run_bind_eq_ok.1 h
  obtain ⟨responses, _, hr, h⟩ := run_bind_eq_ok.1 h
  obtain ⟨rfl, -⟩ := run_pure_eq_ok.1 h
  have parts : writtenParts index here.place = found.map (·.part) := by
    rw [writtenParts_eq, entries_listed hf]
  have bodies : body.isSome = hasBody index dialect here := by
    rw [bodyOf_gives hb, hasBody, parts]
  refine ⟨?parameters, ?body, responsesOf_give hr⟩
  case parameters =>
    rw [nameIf_gives hp, isEmpty_mergeParameters, Bool.not_not, hasParameters, parts]
  case body =>
    have place := nameIf_gives hn
    rw [← bodies, ← place]
    cases body with
    | none =>
      cases bodyNamed with
      | none => rfl
      | some named => cases place
    | some body => cases bodyNamed <;> rfl

end

end Operation

/-! ## Candidates -/

/-- The place and the kind of a declaration. -/
def heading (declaration : Declaration) : Pointer × DeclarationKind :=
  (declaration.pointer, declaration.kind)

def Operation.headings (operation : Operation) : List (Pointer × DeclarationKind) :=
  (operation.parametersNamed.toList.map fun named => (named.pointer, .operationParameters)) ++
    (operation.body.toList.map fun entry => (entry.2.pointer, .operationRequestBody)) ++
    operation.responses.map fun response => (response.written.place, .operationResponse)

/-- The places that a candidate declares, with their kinds. -/
def Candidate.headings : Candidate → List (Pointer × DeclarationKind)
  | .component here kind _ => [(here.place, kind)]
  | .operation planned => planned.headings

/-- The declarations that a place contributes. -/
def outlineAt (index : Index) (dialect : Dialect) (rawSchema : Bool)
    (location : Pointer × Json) : List (Pointer × DeclarationKind) :=
  match componentKind? dialect rawSchema location.1 with
  | some kind => [(location.1, kind)]
  | none =>
    match rawSchema, operationAt? location.1 with
    | false, some _ => Operation.outline index dialect ⟨location.1, location.2⟩
    | _, _ => []

section
variable {index : Index} {dialect : Dialect} {rawSchema : Bool}

theorem Operation.Outlined.headings_eq {here : Located} {operation : Operation}
    (h : operation.Outlined index dialect here) :
    operation.headings = Operation.outline index dialect here := by
  have parameters : (operation.parametersNamed.toList.map fun named =>
      (named.pointer, DeclarationKind.operationParameters)) =
        (operation.parametersNamed.map (·.pointer)).toList.map (·, .operationParameters) := by
    cases operation.parametersNamed <;> rfl
  have body : (operation.body.toList.map fun entry =>
      (entry.2.pointer, DeclarationKind.operationRequestBody)) =
        (operation.body.map (·.2.pointer)).toList.map (·, .operationRequestBody) := by
    cases operation.body <;> rfl
  have responses := congrArg (List.map fun entry : String × Pointer =>
    (entry.2, DeclarationKind.operationResponse)) h.responses
  simp only [List.map_map, Function.comp_def] at responses
  unfold Operation.headings Operation.outline
  rw [parameters, body, responses, h.parameters, h.body]
  split <;> split <;> rfl

theorem candidateAt_headings {here : Located} {candidate : Option Candidate}
    {before after : NameTable}
    (h : (candidateAt index dialect rawSchema here).run before = .ok (candidate, after)) :
    candidate.toList.flatMap Candidate.headings =
      outlineAt index dialect rawSchema (here.place, here.node) := by
  unfold candidateAt at h
  unfold outlineAt
  split at h
  · rename_i kind hk
    obtain ⟨name, _, -, h⟩ := run_bind_eq_ok.1 h
    obtain ⟨rfl, -⟩ := run_pure_eq_ok.1 h
    simp only [hk]
    rfl
  · rename_i hk
    simp only [hk]
    cases rawSchema with
    | true =>
      obtain ⟨rfl, -⟩ := run_pure_eq_ok.1 h
      rfl
    | false =>
      cases ho : operationAt? here.place with
      | none =>
        simp only [ho] at h
        obtain ⟨rfl, -⟩ := run_pure_eq_ok.1 h
        rfl
      | some found =>
        simp only [ho] at h
        obtain ⟨operation, _, hp, h⟩ := run_bind_eq_ok.1 h
        obtain ⟨rfl, -⟩ := run_pure_eq_ok.1 h
        rw [Option.toList_some, List.flatMap_singleton]
        exact (Operation.plan_outlined hp).headings_eq

/-- The candidates declare what the places among which they are contribute, in their order. -/
theorem candidates_headings {locations : List (Pointer × Json)} {collected : List Candidate}
    {before after : NameTable}
    (h : (candidates index dialect rawSchema locations).run before = .ok (collected, after)) :
    collected.flatMap Candidate.headings =
      locations.flatMap (outlineAt index dialect rawSchema) := by
  induction locations generalizing before after collected with
  | nil =>
    obtain ⟨rfl, -⟩ := run_pure_eq_ok.1 h
    rfl
  | cons location rest ih =>
    obtain ⟨place, node⟩ := location
    obtain ⟨candidate, _, hc, h⟩ := run_bind_eq_ok.1 h
    obtain ⟨later, _, hl, h⟩ := run_bind_eq_ok.1 h
    obtain ⟨rfl, -⟩ := run_pure_eq_ok.1 h
    rw [List.flatMap_append, candidateAt_headings hc, ih hl, List.flatMap_cons]

/-! ## Declarations -/

variable {state : State}

theorem responses_headings_eq {responses : List Response} {declarations : List Declaration}
    (h : List.Forall₂ (ResponseDeclared index dialect state) responses declarations) :
    declarations.map heading =
      responses.map fun response => (response.written.place, .operationResponse) := by
  induction h with
  | nil => rfl
  | cons first _ ih =>
    obtain ⟨type, -, rfl⟩ := first
    simp only [List.map_cons, ih, heading]

theorem CandidateDeclared.headings_eq {candidate : Candidate} {declarations : List Declaration}
    (h : CandidateDeclared index dialect state candidate declarations) :
    declarations.map heading = candidate.headings := by
  cases candidate with
  | component here kind name =>
    obtain ⟨type, -, rfl⟩ := h
    rfl
  | operation operation =>
    obtain ⟨ofParameters, ofBody, ofResponses, hp, hb, hr, rfl⟩ := h
    have parameters : ofParameters.map heading =
        operation.parametersNamed.toList.map fun named => (named.pointer, .operationParameters) := by
      unfold ParametersDeclared at hp
      split at hp
      · rename_i none
        rw [hp, none]
        rfl
      · rename_i named some
        obtain ⟨type, -, rfl⟩ := hp
        rw [some]
        rfl
    have body : ofBody.map heading =
        operation.body.toList.map fun entry => (entry.2.pointer, .operationRequestBody) := by
      unfold BodyDeclared at hb
      split at hb
      · rename_i none
        rw [hb, none]
        rfl
      · rename_i body named some
        obtain ⟨type, -, rfl⟩ := hb
        rw [some]
        rfl
    have responses : ofResponses.map heading =
        operation.responses.map fun response => (response.written.place, .operationResponse) :=
      responses_headings_eq hr
    simp only [List.map_append, parameters, body, responses, Candidate.headings,
      Operation.headings]

theorem blocks_headings_eq {candidates : List Candidate} {blocks : List (List Declaration)}
    (h : List.Forall₂ (CandidateDeclared index dialect state) candidates blocks) :
    blocks.flatten.map heading = candidates.flatMap Candidate.headings := by
  induction h with
  | nil => rfl
  | cons first _ ih =>
    rw [List.flatten_cons, List.map_append, first.headings_eq, ih, List.flatMap_cons]

theorem promoted_headings_eq {promoted : List Declaration}
    (h : ∀ declaration ∈ promoted, PromotedDeclared index state declaration) :
    promoted.map heading = (promoted.map (·.pointer)).map (·, .promoted) := by
  rw [List.map_map]
  refine List.map_congr_left fun declaration hm => ?_
  obtain ⟨_, _, _, kind, _⟩ := h declaration hm
  exact Prod.ext rfl kind

/-! ## The end of typing -/

/-- The state of typing when all declarations of a document are made. -/
def finalState (index : Index) (dialect : Dialect) (rawSchema : Bool) : State :=
  match (candidates index dialect rawSchema index.locations).run {} with
  | .error _ => { names := {} }
  | .ok (found, names) => ((typedDeclarations index dialect found).run.run { names }).2

/-- The places promoted while the types of a document are made, in the order of their promotion. -/
def promotedPlaces (index : Index) (dialect : Dialect) (rawSchema : Bool) : List Pointer :=
  (finalState index dialect rawSchema).promoted.map (·.1)

/-- What an assembly is made of: the candidates of the document, the declarations made of them and
of the places promoted meanwhile, and the warnings that typing ended with. -/
theorem assemble_finishes {assembly : Assembly}
    (h : assemble index dialect rawSchema = .ok assembly) :
    ∃ found names declared promoted,
      (candidates index dialect rawSchema index.locations).run {} = .ok (found, names) ∧
      (typedDeclarations index dialect found).run.run { names } =
        (.ok (declared ++ promoted), finalState index dialect rawSchema) ∧
      Assembled index dialect rawSchema found (finalState index dialect rawSchema) declared
        promoted ∧
      assembly = ⟨withWrapper rawSchema found (declared ++ promoted),
        (finalState index dialect rawSchema).warnings⟩ := by
  obtain ⟨found, names, declared, promoted, state, collected, typed, assembled, rfl⟩ :=
    assemble_runs h
  have final : finalState index dialect rawSchema = state := by
    unfold finalState
    rw [collected]
    simp only [typed]
  rw [final]
  exact ⟨found, names, declared, promoted, collected, typed, assembled, rfl⟩

/-- What an assembly consists of. The state of typing at the end tells which places were
promoted. -/
theorem assemble_consists {assembly : Assembly}
    (h : assemble index dialect rawSchema = .ok assembly) :
    ∃ found state declared promoted,
      Assembled index dialect rawSchema found state declared promoted ∧
      state.promoted.map (·.1) = promotedPlaces index dialect rawSchema ∧
      assembly.declarations = withWrapper rawSchema found (declared ++ promoted) := by
  obtain ⟨found, _, declared, promoted, -, -, assembled, rfl⟩ := assemble_finishes h
  exact ⟨found, _, declared, promoted, assembled, rfl, rfl⟩

theorem Assembled.headings_eq {found : List Candidate} {declared promoted : List Declaration}
    (h : Assembled index dialect rawSchema found state declared promoted) :
    (declared ++ promoted).map heading =
      index.locations.flatMap (outlineAt index dialect rawSchema) ++
        (state.promoted.map (·.1)).map (·, .promoted) := by
  obtain ⟨names, collected⟩ := h.collected
  obtain ⟨blocks, hb, rfl⟩ := h.declared
  rw [List.map_append, blocks_headings_eq hb, candidates_headings collected,
    promoted_headings_eq h.promoted, h.places, List.map_map]
  simp only [List.map_map, Function.comp_def, nameEntry]

theorem mem_withWrapper {found : List Candidate} {declarations : List Declaration}
    {declaration : Declaration} :
    declaration ∈ withWrapper rawSchema found declarations ↔
      declaration ∈ declarations ∨ rawSchema = false ∧ declaration = wrapper (operationsOf found) := by
  cases rawSchema <;> simp [withWrapper]

theorem Assembled.pointers_nodup {found : List Candidate} {declared promoted : List Declaration}
    (h : Assembled index dialect rawSchema found state declared promoted) :
    ((declared ++ promoted).map (·.pointer)).Nodup := by
  have distinct := h.valid.names.places
  rw [← h.names_eq, List.map_map] at distinct
  exact distinct

/-- A bare map of schemas contributes its entries. -/
theorem outline_raw (index : Index) (dialect : Dialect) :
    index.locations.flatMap (outlineAt index dialect true) =
      index.document.root.keys.map fun key => (⟨[key]⟩, .schema) := by
  have contributes (location : Pointer × Json) : outlineAt index dialect true location =
      if location.1.depth = 1 then [(location.1, .schema)] else [] := by
    unfold outlineAt componentKind?
    by_cases entry : location.1.depth = 1 <;> simp [entry]
  have distinct := index.document.distinct
  unfold Index.locations
  have atRoot : outlineAt index dialect true (.root, index.document.root) = [] := by
    rw [contributes]
    rfl
  rw [Json.locations_eq, List.flatMap_cons, atRoot, List.nil_append, List.flatMap_assoc, Json.keys,
    List.map_map, List.map_eq_flatMap]
  refine List.flatMap_congr fun child hc => ?_
  have child_distinct := distinct.step (Json.step?_of_mem_children distinct hc)
  have shallow : ∀ location : Pointer × Json, (Pointer.root.child child.1).depth < location.1.depth →
      outlineAt index dialect true location = [] := by
    intro location deeper
    have deeper : 1 < location.1.depth := deeper
    rw [contributes, if_neg (by omega)]
  rw [Json.flatMap_locations_shallow child_distinct shallow, contributes]
  rfl

end

/-- Nothing is lost, repeated or put elsewhere: the declarations of a document are those that its
places contribute, in document order, then those of the promoted places in the order of their
promotion, then the wrapper. No two but the wrapper are of one place. In a bare map of schemas the
contributing places are its entries, and there is no wrapper. -/
theorem assemble_outline (index : Index) (dialect : Dialect) :
    (∀ assembly, assemble index dialect false = .ok assembly →
      ∃ declarations api, assembly.declarations = declarations ++ [api] ∧
        declarations.map heading = index.locations.flatMap (outlineAt index dialect false) ++
          (promotedPlaces index dialect false).map (·, .promoted) ∧
        (declarations.map (·.pointer)).Nodup ∧
        api.name = wrapperName ∧ heading api = (⟨["paths"]⟩, .apiWrapper)) ∧
    ∀ assembly, assemble index dialect true = .ok assembly →
      assembly.declarations.map heading =
        (index.document.root.keys.map fun key => (⟨[key]⟩, .schema)) ++
          (promotedPlaces index dialect true).map (·, .promoted) ∧
      (assembly.declarations.map (·.pointer)).Nodup := by
  constructor
  · intro assembly h
    obtain ⟨found, state, declared, promoted, assembled, places, same⟩ := assemble_consists h
    refine ⟨declared ++ promoted, wrapper (operationsOf found), same, ?_,
      assembled.pointers_nodup, rfl, rfl⟩
    rw [assembled.headings_eq, places]
  · intro assembly h
    obtain ⟨found, state, declared, promoted, assembled, places, same⟩ := assemble_consists h
    rw [same]
    refine ⟨?_, assembled.pointers_nodup⟩
    change (declared ++ promoted).map heading = _
    rw [assembled.headings_eq, places, outline_raw]

/-- Two operations of one path with a parameter in common, and a schema of which one part is referred
to twice. -/
def petStore : Document :=
  .ofJson (.object [
    ("openapi", .string "3.0.0"),
    ("components", .object [
      ("schemas", .object [("Pet", .object [("properties", .object [
        ("owner", .object [("properties", .object [("name", .object [("type", .string "string")])])]),
        ("keeper", .object [("$ref", .string "#/components/schemas/Pet/properties/owner")]),
        ("friend", .object [("$ref", .string "#/components/schemas/Pet/properties/owner")])])])]),
      ("responses", .object [("Failure", .object [("description", .string "failed")])])]),
    ("paths", .object [("/pets", .object [
      ("parameters", .array [.object [("name", .string "limit"), ("in", .string "query")]]),
      ("get", .object [("operationId", .string "pets"), ("responses", .object [
        ("x-note", .object []),
        ("200", .object [("description", .string "found")]),
        ("default", .object [("$ref", .string "#/components/responses/Failure")])])]),
      ("put", .object [("operationId", .string "pets"),
        ("requestBody", .object [("content", .object [("application/json", .object [
          ("schema", .object [("$ref", .string "#/components/schemas/Pet")])])])])])])])])

theorem assemble_outline_petStore :
    ∃ assembly, assemble (indexOf petStore .openApi3 false) .openApi3 false = .ok assembly ∧
      ∃ declarations api, assembly.declarations = declarations ++ [api] ∧
        declarations.map heading = [
          (⟨["components", "schemas", "Pet"]⟩, .schema),
          (⟨["components", "responses", "Failure"]⟩, .response),
          (⟨["paths", "/pets", "get", "parameters"]⟩, .operationParameters),
          (⟨["paths", "/pets", "get", "responses", "200"]⟩, .operationResponse),
          (⟨["paths", "/pets", "get", "responses", "default"]⟩, .operationResponse),
          (⟨["paths", "/pets", "put", "parameters"]⟩, .operationParameters),
          (⟨["paths", "/pets", "put", "requestBody"]⟩, .operationRequestBody),
          (⟨["components", "schemas", "Pet", "properties", "owner"]⟩, .promoted)] ∧
        heading api = (⟨["paths"]⟩, .apiWrapper) := by
  have succeeds : (assemble (indexOf petStore .openApi3 false) .openApi3 false).isOk = true := by
    decide +kernel
  obtain ⟨assembly, he⟩ := ok_of_isOk succeeds
  obtain ⟨declarations, api, same, headings, -, -, last⟩ :=
    (assemble_outline (indexOf petStore .openApi3 false) .openApi3).1 assembly he
  refine ⟨assembly, he, declarations, api, same, headings.trans ?_, last⟩
  decide +kernel

end Api

end ApiTypes
