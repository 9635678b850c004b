import ApiTypes.Proofs.Api.Placement
import ApiTypes.Proofs.Api.SamePlan
import ApiTypes.Proofs.Typing.Respelled

/-!
# Respelled documents

A document gives the same declarations and the same warnings however its references are written,
as long as they lead to the same places and none of their text is looked at
(`assemble_respelled`).

* `IsSchema` are the places that schemas are read from. Two documents that are read alike there and
  at the places of parts are told apart by nothing (`DocumentsReadAlike`); for a bare map of schemas
  this can be computed (`documentsReadAlike_raw`).
* The text of a reference is looked at where a mapping is searched for it, so there the spelling
  tells (`assemble_spelled`).
-/

namespace ApiTypes.Api

open Relator Typing

/-- The places that schemas are read from: those of named schemas and of schemas that give the type
of a part, inside schemas, and on along references. -/
inductive IsSchema (index : Index) (dialect : Dialect) (rawSchema : Bool) : Pointer → Prop
  | component {place : Pointer}
      (named : componentKind? dialect rawSchema place = some .schema) :
      IsSchema index dialect rawSchema place
  | source {here schema : Located} {part : Part}
      (stands : here.Stands index) (read : IsPart index dialect rawSchema here.place)
      (gives : typeSource dialect part here = .schema schema) :
      IsSchema index dialect rawSchema schema.place
  | inner {place inner : Pointer} {node : Json} (outer : IsSchema index dialect rawSchema place)
      (stands : index.get? place = some node) (plain : Schema.reference? node = none)
      (held : Schema.InnerPlace place node inner) : IsSchema index dialect rawSchema inner
  | link {place target : Pointer} (schema : IsSchema index dialect rawSchema place)
      (leads : index.Link place target) : IsSchema index dialect rawSchema target

theorem isSchema_on (index : Index) (dialect : Dialect) (rawSchema : Bool) :
    ReadOn index (IsSchema index dialect rawSchema) where
  inner _ _ _ outer stands plain held := .inner outer stands plain held
  link _ _ schema leads := .link schema leads

/-! ## The types of parts -/

/-- The sources of the type of one part in both documents. -/
inductive SourceMet (index index' : Index) : TypeSource → TypeSource → Prop
  | schema {schema schema' : Located}
      (met : LocatedMet index index' (fun _ => True) schema schema') :
      SourceMet index index' (.schema schema) (.schema schema')
  | fixed (type : TypeExpr) : SourceMet index index' (.fixed type) (.fixed type)

section
variable {index index' : Index} (respelled : index.Respelled index') {here here' : Located}
include respelled

omit respelled in
theorem selectMedia?_rel {place : Pointer} {content content' : List (String × Json)}
    (h : List.Forall₂ (fun field field' => field'.1 = field.1 ∧
      index.Both index' (place.child field.1) field.2 field'.2) content content') :
    Option.Rel (fun field field' => field'.1 = field.1 ∧
        index.Both index' (place.child field.1) field.2 field'.2)
      (selectMedia? content) (selectMedia? content') := by
  refine or_rel (find?_rel h ?_) (or_rel (find?_rel h ?_) (head?_rel h))
  all_goals
    rintro field field' ⟨same, -⟩
    rw [same]

theorem contentSchema?_met (met : LocatedMet index index' (fun _ => True) here here') :
    Option.Rel (Option.Rel (LocatedMet index index' fun _ => True)) (contentSchema? here)
      (contentSchema? here') := by
  unfold contentSchema?
  rw [met.place]
  rcases rel_cases (Schema.object?_rel respelled met.both "content") with
    ⟨h, h'⟩ | ⟨content, content', h, h', offered⟩
  · rw [h, h']
    exact .none
  · rw [h, h', Option.bind_some, Option.bind_some]
    rcases rel_cases (selectMedia?_rel (offered.fields_rel respelled)) with
      ⟨h, h'⟩ | ⟨⟨mediaType, media⟩, ⟨_, media'⟩, h, h', rfl, both⟩
    · rw [h, h']
      exact .none
    · rw [h, h', Option.map_some, Option.map_some]
      refine .some ?_
      dsimp only at both ⊢
      rcases rel_cases (both.get?_rel respelled "schema") with
        ⟨h, h'⟩ | ⟨schema, schema', h, h', inner⟩
      · rw [h, h']
        exact .none
      · rw [h, h']
        exact .some ⟨rfl, inner, trivial⟩

theorem directSchema?_met (met : LocatedMet index index' (fun _ => True) here here') :
    Option.Rel (LocatedMet index index' fun _ => True) (directSchema? here)
      (directSchema? here') := by
  unfold directSchema?
  rw [met.place]
  rcases rel_cases (met.both.get?_rel respelled "schema") with ⟨h, h'⟩ | ⟨node, node', h, h', both⟩
  · rw [h, h']
    exact .none
  · rw [h, h']
    exact .some ⟨rfl, both, trivial⟩

theorem contentSource_met (met : LocatedMet index index' (fun _ => True) here here')
    (empty : TypeExpr) :
    SourceMet index index' (contentSource here empty) (contentSource here' empty) := by
  unfold contentSource
  rcases rel_cases (contentSchema?_met respelled met) with ⟨h, h'⟩ | ⟨found, found', h, h', inner⟩
  · rw [h, h']
    exact .fixed _
  · rw [h, h']
    cases inner with
    | none => exact .fixed _
    | some schema => exact .schema schema

theorem typeSource_met (met : LocatedMet index index' (fun _ => True) here here')
    (dialect : Dialect) (part : Part) :
    SourceMet index index' (typeSource dialect part here) (typeSource dialect part here') := by
  have direct := directSchema?_met respelled met
  cases part with
  | requestBody => exact contentSource_met respelled met _
  | response =>
    cases dialect with
    | openApi3 => exact contentSource_met respelled met _
    | swagger2 =>
      unfold typeSource
      dsimp only
      rcases rel_cases direct with ⟨h, h'⟩ | ⟨schema, schema', h, h', inner⟩
      · rw [h, h']
        exact .fixed _
      · rw [h, h']
        exact .schema inner
  | parameter =>
    unfold typeSource
    dsimp only
    rcases rel_cases direct with ⟨h, h'⟩ | ⟨schema, schema', h, h', inner⟩
    · rw [h, h']
      dsimp only
      rcases rel_cases (contentSchema?_met respelled met) with
        ⟨h, h'⟩ | ⟨found, found', h, h', inner⟩
      · rw [h, h']
        cases dialect with
        | swagger2 => exact .schema met
        | openApi3 => exact .fixed _
      · rw [h, h']
        cases inner with
        | none => exact .fixed _
        | some schema => exact .schema schema
    · rw [h, h']
      exact .schema inner

end

/-! ## Declarations -/

/-- What is read off the text of parts and schemas is the same in both documents. -/
structure DocumentsReadAlike (index index' : Index) (dialect : Dialect) (rawSchema : Bool) :
    Prop where
  parts : PartsReadAlike index index' dialect rawSchema
  schemas : SchemasReadAlike index index' (IsSchema index dialect rawSchema)

section
variable {index index' : Index} (respelled : index.Respelled index') {dialect : Dialect}
  {rawSchema : Bool} (alike : DocumentsReadAlike index index' dialect rawSchema)
include respelled alike

theorem root_repeats {here here' : Located}
    (met : LocatedMet index index' (IsSchema index dialect rawSchema) here here') :
    Repeats (IsSchema index dialect rawSchema) (typeOfRoot index here.node here.place)
      (typeOfRoot index' here'.node here'.place) := by
  rw [met.place]
  exact typeOfRoot_repeats respelled (isSchema_on index dialect rawSchema) alike.schemas here.place
    here.node here'.node met.role met.both

theorem partType_repeats (part : Part) {written written' : Located}
    (met : PartMet index index' dialect rawSchema written written') :
    Repeats (IsSchema index dialect rawSchema) (partType index dialect part written)
      (partType index' dialect part written') := by
  unfold partType
  refine .get fun state => ?_
  dsimp only
  cases hf : followChain index state.names.get? [] written with
  | error error =>
    intro _ _ _ _ run
    cases run
  | ok answer =>
    obtain ⟨answer', found, met'⟩ := followChain_met respelled (fun _ _ => .link) _ [] met hf
    rw [found]
    -- a name on the way is the same one, as both chains pass the same places
    cases met' with
    | stopped name => exact .pure _
    | @arrived here here' met' =>
      dsimp only
      have gives : ∀ schema, typeSource dialect part here = .schema schema →
          IsSchema index dialect rawSchema schema.place :=
        fun _ => .source met'.both.left met'.role
      have source := typeSource_met respelled ⟨met'.place, met'.both, trivial⟩ dialect part
      cases hs : typeSource dialect part here <;> cases hs' : typeSource dialect part here' <;>
        rw [hs, hs'] at source <;> cases source
      · rename_i inner
        exact root_repeats respelled alike ⟨inner.place, inner.both, gives _ hs⟩
      · exact .pure _

/-! ### Parameters -/

/-- A typed parameter in both documents. -/
structure TypedMet (typed typed' : TypedParameter) : Prop where
  location : typed'.parameter.location = typed.parameter.location
  required : typed'.parameter.required = typed.parameter.required
  member : typed'.member = typed.member

omit respelled alike in
theorem parameterGroup?_eq {typed typed' : List TypedParameter}
    (h : List.Forall₂ TypedMet typed typed') (location : String) :
    parameterGroup? typed' location = parameterGroup? typed location := by
  have group : List.Forall₂ TypedMet
      (typed.filter fun typed => typed.parameter.location == location)
      (typed'.filter fun typed => typed.parameter.location == location) := by
    refine List.rel_filter ?_ h
    intro _ _ met
    dsimp only
    rw [met.location]
  unfold parameterGroup?
  dsimp only
  rw [isEmpty_eq_of_forall₂ group, map_eq_of_forall₂ group fun _ _ met => met.member,
    any_eq_of_forall₂ group fun _ _ met => met.required]

/-- The same is done with typed parameters, by actions that do not depend on the nodes they are
written as. -/
theorem typedParameters_repeats {α : Type} {parameters parameters' : List Parameter}
    (h : List.Forall₂ (ParameterMet index index' dialect rawSchema) parameters parameters')
    {next next' : List TypedParameter → TypingM α}
    (hn : ∀ typed typed', List.Forall₂ TypedMet typed typed' →
      Repeats (IsSchema index dialect rawSchema) (next typed) (next' typed')) :
    Repeats (IsSchema index dialect rawSchema) (typedParameters index dialect parameters >>= next)
      (typedParameters index' dialect parameters' >>= next') := by
  -- the results differ in the nodes, so what is done with them is part of the statement
  induction h generalizing next next' with
  | nil => exact hn [] [] .nil
  | @cons parameter parameter' _ _ met _ ih =>
    unfold typedParameters
    rw [met.location]
    split
    · simp only [bind_assoc, pure_bind]
      refine (partType_repeats respelled alike .parameter met.written).bind fun type => ?_
      refine ih fun typed typed' others => hn _ _ (.cons ⟨met.location, met.required, ?_⟩ others)
      unfold TypedParameter.member
      rw [met.name, met.required, met.doc]
    · simp only [bind_assoc]
      rw [met.written.place]
      exact (warn_repeats _ _ _).bind fun _ => ih hn

theorem parametersType_repeats {parameters parameters' : List Parameter}
    (h : List.Forall₂ (ParameterMet index index' dialect rawSchema) parameters parameters') :
    Repeats (IsSchema index dialect rawSchema) (parametersType index dialect parameters)
      (parametersType index' dialect parameters') := by
  refine typedParameters_repeats respelled alike h fun typed typed' met => ?_
  have groups : parameterGroup? typed' = parameterGroup? typed :=
    funext (parameterGroup?_eq met)
  rw [groups]
  exact .pure _

/-! ### Candidates -/

theorem parametersDeclaration_repeats {operation operation' : Operation}
    (met : OperationMet index index' dialect rawSchema operation operation') :
    Repeats (IsSchema index dialect rawSchema) (parametersDeclaration index dialect operation)
      (parametersDeclaration index' dialect operation') := by
  unfold parametersDeclaration
  rw [met.parametersNamed]
  cases operation.parametersNamed with
  | none => exact .pure _
  | some named =>
    exact (parametersType_repeats respelled alike met.parameters).bind fun _ => .pure _

theorem bodyDeclaration_repeats {operation operation' : Operation}
    (met : OperationMet index index' dialect rawSchema operation operation') :
    Repeats (IsSchema index dialect rawSchema) (bodyDeclaration index dialect operation)
      (bodyDeclaration index' dialect operation') := by
  unfold bodyDeclaration
  rcases rel_cases met.body with ⟨h, h'⟩ | ⟨⟨body, named⟩, ⟨body', _⟩, h, h', same, rfl⟩
  · rw [h, h']
    exact .pure _
  · rw [h, h']
    dsimp only at same ⊢
    rw [same.part, same.doc]
    exact (partType_repeats respelled alike body.part same.written).bind fun _ => .pure _

theorem responseDeclarations_repeats {responses responses' : List Response}
    (h : List.Forall₂ (ResponseMet index index' dialect rawSchema) responses responses') :
    Repeats (IsSchema index dialect rawSchema) (responseDeclarations index dialect responses)
      (responseDeclarations index' dialect responses') := by
  induction h with
  | nil => exact .pure _
  | cons met _ ih =>
    unfold responseDeclarations
    rw [met.name, met.doc, met.written.place]
    exact (partType_repeats respelled alike .response met.written).bind fun _ =>
      ih.bind fun _ => .pure _

omit respelled alike in
/-- A named part is a schema, or read as a part. -/
theorem component_role {place : Pointer} {kind : DeclarationKind}
    (named : componentKind? dialect rawSchema place = some kind) :
    kind = .schema ∧ IsSchema index dialect rawSchema place ∨
      (kind = .response ∨ kind = .requestBody ∨ kind = .parameter) ∧
        IsPart index dialect rawSchema place := by
  have kinds : kind = .schema ∨ kind = .response ∨ kind = .requestBody ∨ kind = .parameter := by
    unfold componentKind? at named
    split at named
    · split at named <;> cases named
      exact .inl rfl
    · split at named <;> cases named <;> simp
  rcases kinds with rfl | kinds
  · exact .inl ⟨rfl, .component named⟩
  · refine .inr ⟨kinds, .component named ?_⟩
    rintro rfl
    simp at kinds

theorem componentType_repeats {kind : DeclarationKind} {here here' : Located}
    (met : LocatedMet index index' (fun place => componentKind? dialect rawSchema place = some kind)
      here here') :
    Repeats (IsSchema index dialect rawSchema) (componentType index dialect kind here)
      (componentType index' dialect kind here') := by
  rcases component_role met.role with ⟨rfl, role⟩ | ⟨rfl | rfl | rfl, role⟩
  · exact root_repeats respelled alike ⟨met.place, met.both, role⟩
  · exact partType_repeats respelled alike .response ⟨met.place, met.both, role⟩
  · exact partType_repeats respelled alike .requestBody ⟨met.place, met.both, role⟩
  · exact partType_repeats respelled alike .parameter ⟨met.place, met.both, role⟩

theorem candidateDeclarations_repeats {candidate candidate' : Candidate}
    (met : CandidateMet index index' dialect rawSchema candidate candidate') :
    Repeats (IsSchema index dialect rawSchema) (candidateDeclarations index dialect candidate)
      (candidateDeclarations index' dialect candidate') := by
  cases met with
  | @component here here' kind name met =>
    have doc : Schema.doc? here'.node = Schema.doc? here.node := by
      rcases component_role met.role with ⟨-, role⟩ | ⟨-, role⟩
      · exact (alike.schemas _ _ _ role met.both).doc
      · exact alike.parts _ _ _ role met.both
    unfold candidateDeclarations
    dsimp only
    rw [met.place, doc]
    exact (componentType_repeats respelled alike met).bind fun _ => .pure _
  | operation met =>
    exact (parametersDeclaration_repeats respelled alike met).bind fun _ =>
      (bodyDeclaration_repeats respelled alike met).bind fun _ =>
        (responseDeclarations_repeats respelled alike met.responses).bind fun _ => .pure _

theorem allDeclarations_repeats {found found' : List Candidate}
    (h : List.Forall₂ (CandidateMet index index' dialect rawSchema) found found') :
    Repeats (IsSchema index dialect rawSchema) (allDeclarations index dialect found)
      (allDeclarations index' dialect found') := by
  induction h with
  | nil => exact .pure _
  | cons met _ ih =>
    exact (candidateDeclarations_repeats respelled alike met).bind fun _ => ih.bind fun _ => .pure _

/-! ### Promoted places -/

omit alike in
/-- The next promoted place is met in both documents. -/
theorem nextPromoted?_met (declared : List Pointer) (promoted : List (Pointer × String)) :
    nextPromoted? index declared promoted = none ∧
        nextPromoted? index' declared promoted = none ∨
      ∃ target target' name, nextPromoted? index declared promoted = some (target, name) ∧
        nextPromoted? index' declared promoted = some (target', name) ∧
        LocatedMet index index' (fun place => ∃ entry ∈ promoted, entry.1 = place)
          ⟨target.pointer, target.node⟩ ⟨target'.pointer, target'.node⟩ := by
  unfold nextPromoted?
  cases hf : promoted.find? fun entry => !declared.contains entry.1 with
  | none => exact .inl ⟨rfl, rfl⟩
  | some entry =>
    rw [Option.bind_some, Option.bind_some]
    rcases rel_cases (respelled.both entry.1) with ⟨h, h'⟩ | ⟨node, node', h, h', both⟩
    · rw [Index.target?_of_none h, Index.target?_of_none h']
      exact .inl ⟨rfl, rfl⟩
    · rw [Index.target?_of_some h, Index.target?_of_some h']
      refine .inr ⟨_, _, entry.2, rfl, rfl, rfl, both, entry, ?_, rfl⟩
      exact List.mem_of_find?_eq_some hf

theorem promotedDeclarations_repeats (declared : List Pointer) :
    Repeats (IsSchema index dialect rawSchema) (promotedDeclarations index declared)
      (promotedDeclarations index' declared) := by
  intro state declarations after kept run
  rcases nextPromoted?_met respelled declared state.promoted with
    ⟨none, none'⟩ | ⟨target, target', name, next, next', met⟩
  · rw [promotedDeclarations_of_none none] at run
    rw [promotedDeclarations_of_none none']
    obtain ⟨-, rfl⟩ := Prod.mk.inj run
    exact ⟨run, kept⟩
  · have smaller := Index.unvisited_lt target.found (not_mem_of_nextPromoted next)
    have role : IsSchema index dialect rawSchema target.pointer := by
      obtain ⟨entry, hm, same⟩ := met.role
      have role := kept entry hm
      rwa [same] at role
    have later := promotedDeclarations_repeats (declared ++ [target.pointer])
    have place : target'.pointer = target.pointer := met.place
    have doc : Schema.doc? target'.node = Schema.doc? target.node :=
      (alike.schemas _ _ _ role met.both).doc
    rw [promotedDeclarations_of_some next] at run
    rw [promotedDeclarations_of_some next']
    refine Repeats.bind (root_repeats respelled alike ⟨met.place, met.both, role⟩)
      (fun type => ?_) state declarations after kept run
    rw [place, doc]
    exact later.bind fun _ => .pure _
termination_by index.unvisited declared

theorem typedDeclarations_repeats {found found' : List Candidate}
    (h : List.Forall₂ (CandidateMet index index' dialect rawSchema) found found') :
    Repeats (IsSchema index dialect rawSchema) (typedDeclarations index dialect found)
      (typedDeclarations index' dialect found') :=
  (allDeclarations_repeats respelled alike h).bind fun _ =>
    (promotedDeclarations_repeats respelled alike []).bind fun _ => .pure _

end

/-! ## Wrapper -/

section
variable {index index' : Index} {dialect : Dialect} {rawSchema : Bool}

theorem operationMembers_eq {operation operation' : Operation}
    (met : OperationMet index index' dialect rawSchema operation operation') :
    operationMembers operation' = operationMembers operation := by
  have required : (operation'.parameters.any fun parameter => parameter.required) =
      operation.parameters.any fun parameter => parameter.required :=
    any_eq_of_forall₂ met.parameters fun _ _ met => met.required
  have responses : (operation'.responses.map fun response =>
        Member.plain response.status (.ref response.name) false) =
      operation.responses.map fun response =>
        Member.plain response.status (.ref response.name) false := by
    refine map_eq_of_forall₂ met.responses fun _ _ met => ?_
    rw [met.status, met.name]
  unfold operationMembers
  rw [met.parametersNamed, required, responses]
  rcases rel_cases met.body with ⟨h, h'⟩ | ⟨⟨body, named⟩, ⟨body', _⟩, h, h', same, rfl⟩
  · rw [h, h']
  · have required : body'.required = body.required := same.required
    rw [h, h']
    simp only [Option.toList_some, List.map_cons, List.map_nil, required]

theorem pathMember_eq {operations operations' : List Operation}
    (h : List.Forall₂ (OperationMet index index' dialect rawSchema) operations operations')
    (path : String) : pathMember operations' path = pathMember operations path := by
  have on_path : List.Forall₂ (OperationMet index index' dialect rawSchema)
      (operations.filter fun operation => operation.path == path)
      (operations'.filter fun operation => operation.path == path) := by
    refine List.rel_filter ?_ h
    intro _ _ met
    dsimp only
    rw [met.path]
  unfold pathMember
  rw [map_eq_of_forall₂ on_path fun operation operation' met => ?_]
  unfold methodMember
  rw [met.method, operationMembers_eq met, met.doc]

/-- The wrapper says nothing of the nodes that parts are written as. -/
theorem wrapper_eq {operations operations' : List Operation}
    (h : List.Forall₂ (OperationMet index index' dialect rawSchema) operations operations') :
    wrapper operations' = wrapper operations := by
  have paths : pathsOf operations = pathsOf operations' := by
    refine List.rel_foldl ?_ rfl h
    rintro paths _ rfl operation operation' met
    dsimp only
    rw [met.path]
  unfold wrapper
  rw [← paths, funext (pathMember_eq h)]

theorem operationsOf_met {found found' : List Candidate}
    (h : List.Forall₂ (CandidateMet index index' dialect rawSchema) found found') :
    List.Forall₂ (OperationMet index index' dialect rawSchema) (operationsOf found)
      (operationsOf found') := by
  induction h with
  | nil => exact .nil
  | cons met _ ih =>
    cases met with
    | component name met => exact ih
    | operation met => exact .cons met ih

theorem withWrapper_eq {found found' : List Candidate}
    (h : List.Forall₂ (CandidateMet index index' dialect rawSchema) found found')
    (declarations : List Declaration) :
    withWrapper rawSchema found' declarations = withWrapper rawSchema found declarations := by
  unfold withWrapper
  rw [wrapper_eq (operationsOf_met h)]

end

/-! ## Bare maps of schemas -/

/-- Whether a place ends as that of a schema inside another. -/
def endsAsInner (place : Pointer) : Bool :=
  let path := place.segments.reverse
  (path.head?.any fun key => ["additionalProperties", "items"].contains key) ||
    path.tail.head?.any fun key => ["properties", "items", "allOf", "oneOf", "anyOf"].contains key

/-- Whether a place of a bare map of schemas may be that of a schema: it is an entry, stands where
a schema holds others, or is where a reference leads. -/
def mayBeSchema (index : Index) (place : Pointer) : Bool :=
  place.depth == 1 || endsAsInner place ||
    index.locations.any fun location =>
      (Schema.reference? location.2).bind index.leadsTo? == some place

theorem endsAsInner_of_innerPlace {place inner : Pointer} {node : Json}
    (h : Schema.InnerPlace place node inner) : endsAsInner inner = true := by
  cases h with
  | property key => simp [endsAsInner, Pointer.child]
  | additional => simp [endsAsInner, Pointer.child]
  | items single => simp [endsAsInner, Pointer.child]
  | item number => simp [endsAsInner, Pointer.element, Pointer.child]
  | listed keyword number composes =>
    simp only [List.mem_cons, List.not_mem_nil, or_false] at composes
    rcases composes with rfl | rfl | rfl <;> simp [endsAsInner, Pointer.element, Pointer.child]

theorem componentKind?_raw {dialect : Dialect} {place : Pointer} {kind : DeclarationKind}
    (named : componentKind? dialect true place = some kind) : place.depth = 1 ∧ kind = .schema := by
  simp only [componentKind?, if_true] at named
  split at named
  · rename_i entry
    cases named
    exact ⟨entry, rfl⟩
  · cases named

/-- A bare map of schemas has no other parts. -/
theorem not_isPart_raw {index : Index} {dialect : Dialect} {place : Pointer} :
    ¬IsPart index dialect true place := by
  intro h
  induction h with
  | component named other => exact other (componentKind?_raw named).2
  | parameter api | body api | response api => cases api
  | link _ _ ih => exact ih

theorem mayBeSchema_of_isSchema {index : Index} {dialect : Dialect} {place : Pointer}
    (h : IsSchema index dialect true place) : mayBeSchema index place = true := by
  unfold mayBeSchema
  simp only [Bool.or_eq_true, beq_iff_eq, List.any_eq_true]
  cases h with
  | component named => exact .inl (.inl (componentKind?_raw named).1)
  | source _ part => exact absurd part not_isPart_raw
  | inner _ _ _ held => exact .inl (.inr (endsAsInner_of_innerPlace held))
  | link _ leads =>
    obtain ⟨node, reference, target, stands, hr, located, rfl⟩ := leads
    refine .inr ⟨_, Index.mem_locations stands, ?_⟩
    rw [hr, Option.bind_some, Index.leadsTo?, located]
    rfl

/-- In a bare map of schemas it is enough to compare the places that may be those of schemas. -/
theorem documentsReadAlike_raw {index index' : Index} (dialect : Dialect)
    (h : List.Forall₂ (fun location location' => location'.1 = location.1 ∧
      (mayBeSchema index location.1 = true → Schema.ReadAlike location.2 location'.2))
      index.locations index'.locations) :
    DocumentsReadAlike index index' dialect true where
  parts _ _ _ part _ := absurd part not_isPart_raw
  schemas place node node' schema both := by
    obtain ⟨location', hm, at_place, same⟩ :=
      exists_right_of_forall₂ h (Index.mem_locations both.left)
    have found : index'.get? location'.1 = some location'.2 := Index.get?_of_mem_locations hm
    rw [at_place, both.right] at found
    rw [Option.some.inj found]
    exact same (mayBeSchema_of_isSchema schema)

/-! ## Respelling -/

/-- A document gives the same declarations and the same warnings however its references are written,
as long as they lead to the same places, and neither documentation, reasons nor tags change that
are read off their text. -/
theorem assemble_respelled {index index' : Index} {dialect : Dialect} {rawSchema : Bool}
    (respelled : index.Respelled index') (alike : DocumentsReadAlike index index' dialect rawSchema)
    {assembly : Assembly} (h : assemble index dialect rawSchema = .ok assembly) :
    assemble index' dialect rawSchema = .ok assembly := by
  have locations : List.Forall₂ (fun location location' => location'.1 = location.1 ∧
      index.Both index' location.1 location.2 location'.2) index.locations index'.locations := by
    refine forall₂_imp_of_mem respelled.locations fun location hm location' hm' same => ?_
    exact ⟨same.1, Index.get?_of_mem_locations hm, same.1 ▸ Index.get?_of_mem_locations hm'⟩
  cases hc : (candidates index dialect rawSchema index.locations).run {} with
  | error error =>
    unfold assemble at h
    rw [hc] at h
    cases h
  | ok result =>
    obtain ⟨found, names⟩ := result
    obtain ⟨found', hc', met⟩ := candidates_met respelled alike.parts locations hc
    rcases ht : (typedDeclarations index dialect found).run.run { names } with
      ⟨error | declarations, state⟩
    · rw [assemble_of_failed hc ht] at h
      cases h
    · rw [assemble_of_typed hc ht] at h
      obtain ⟨again, -⟩ :=
        typedDeclarations_repeats respelled alike met _ _ _ (by simp) ht
      rw [assemble_of_typed hc' again, withWrapper_eq met]
      exact h

/-- Schemas that refer to each other by the given texts. The mapping names its targets. -/
def petSchemas (dog kitten pet name : String) : Document :=
  .ofJson (.object [
    ("Pet", .object [
      ("oneOf", .array [.object [("$ref", .string dog)], .object [("$ref", .string kitten)]]),
      ("discriminator", .object [("propertyName", .string "kind"),
        ("mapping", .object [("dog", .string "Dog"), ("kitten", .string "Cat/Kitten")])])]),
    ("Dog", .object [("properties", .object [
      ("name", .object [("type", .string "object")]),
      ("alias", .object [("$ref", .string name)]),
      ("friend", .object [("$ref", .string pet)])])]),
    ("Cat/Kitten", .object [("not", .object [("$ref", .string name)])])])

/-- With the references as they are mostly written. -/
def plainPets : Index :=
  indexOf (petSchemas "#/definitions/Dog" "#/definitions/Cat~1Kitten" "#/definitions/Pet"
    "#/definitions/Dog/properties/name") .swagger2 true

/-- With escapes, and with the places that the root alias leads to. -/
def respelledPets : Index :=
  indexOf (petSchemas "#/Dog" "#/definitions/Cat%7E1Kitten" "#/%50et" "#/Dog/properties/n%61me")
    .swagger2 true

theorem assemble_respelled_pets :
    ∃ assembly, plainPets.Respelled respelledPets ∧
      DocumentsReadAlike plainPets respelledPets .swagger2 true ∧
      assemble plainPets .swagger2 true = .ok assembly ∧
      assemble respelledPets .swagger2 true = .ok assembly := by
  have respelled : plainPets.Respelled respelledPets := ⟨rfl, by decide +kernel⟩
  have alike : DocumentsReadAlike plainPets respelledPets .swagger2 true :=
    documentsReadAlike_raw _ (by decide +kernel)
  have succeeds : (assemble plainPets .swagger2 true).isOk = true := by decide +kernel
  obtain ⟨assembly, h⟩ := ok_of_isOk succeeds
  exact ⟨assembly, respelled, alike, h, assemble_respelled respelled alike h⟩

/-- A choice whose mapping gives the target as the text of a reference. -/
def mappedSchemas (dog : String) : Document :=
  .ofJson (.object [
    ("Pet", .object [("oneOf", .array [.object [("$ref", .string dog)]]),
      ("discriminator", .object [("propertyName", .string "kind"),
        ("mapping", .object [("dog", .string "#/definitions/Dog")])])]),
    ("Dog", .object [("type", .string "object")])])

/-- A mapping is searched for the text of the reference, not for the place that it leads to, so
whether an alternative is told apart depends on how its reference is written. -/
theorem assemble_spelled :
    ∃ assembly assembly',
      (indexOf (mappedSchemas "#/definitions/Dog") .swagger2 true).Respelled
        (indexOf (mappedSchemas "#/definitions/%44og") .swagger2 true) ∧
      assemble (indexOf (mappedSchemas "#/definitions/Dog") .swagger2 true) .swagger2 true =
        .ok assembly ∧
      assemble (indexOf (mappedSchemas "#/definitions/%44og") .swagger2 true) .swagger2 true =
        .ok assembly' ∧
      assembly.declarations ≠ assembly'.declarations := by
  have tagged : (assemble (indexOf (mappedSchemas "#/definitions/Dog") .swagger2 true) .swagger2
      true).toOption.map (·.declarations.map (·.type.isSimple)) = some [false, false] := by
    decide +kernel
  have untagged : (assemble (indexOf (mappedSchemas "#/definitions/%44og") .swagger2 true) .swagger2
      true).toOption.map (·.declarations.map (·.type.isSimple)) = some [true, false] := by
    decide +kernel
  obtain ⟨assembly, h, tagged⟩ := ok_of_computed tagged
  obtain ⟨assembly', h', untagged⟩ := ok_of_computed untagged
  refine ⟨assembly, assembly', ⟨rfl, by decide +kernel⟩, h, h', fun same => ?_⟩
  rw [same, untagged] at tagged
  cases tagged

end ApiTypes.Api
