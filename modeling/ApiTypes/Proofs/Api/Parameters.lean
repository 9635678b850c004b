import ApiTypes.Proofs.Api.Reported

/-!
# The declarations of parameters and bodies

What an operation declares for its parameters and its body, told from what is listed at its place:

* `Grouped`: a type with a group for each location, of the parameters there that are not overridden;
* `parametersTyped_grouped`: typing makes that of the parameters of an operation;
* `Operation.Shown`: the declarations that an operation has for its parameters and its body;
* `Assembled.shown`, `assemble_parameters`: they are those, and the warnings about locations are those
  about the parameters without a group.
-/

namespace ApiTypes.Api

open Typing

/-! ## Groups -/

section
variable (index : Index) (dialect : Dialect) (state : State)

/-- The member for a listed parameter. It is optional unless the parameter is required. -/
def MemberFor (entry : Operation.Entry) (member : Member) : Prop :=
  ∃ type, PartTyped index dialect state .parameter entry.written type ∧
    member = .property entry.name type (!entry.required) false (Schema.doc? entry.part)

/-- The group of the listed parameters with one location, in their order. It is optional if they all
are. -/
def GroupFor (entries : List Operation.Entry) (location : String) (group : Member) : Prop :=
  ∃ members,
    List.Forall₂ (MemberFor index dialect state)
      ((Operation.lastEntries entries).filter (·.location == location)) members ∧
    group = .plain location (.object members) (((Operation.lastEntries entries).filter
      (·.location == location)).all fun entry => !entry.required)

/-- A type with a group for each location that a parameter is listed with, in a fixed order. -/
def Grouped (entries : List Operation.Entry) (type : TypeExpr) : Prop :=
  ∃ groups, type = .object groups ∧
    List.Forall₂ (GroupFor index dialect state entries)
      (["path", "query", "header", "cookie", "formData"].filter fun location =>
        entries.any (·.location == location)) groups

end

section
variable {index : Index} {dialect : Dialect} {state : State}

/-- What is listed with a location that has a group is typed, in its order. -/
theorem typed_at {entries : List Operation.Entry} {typed : List TypedParameter} {location : String}
    (known : location ∈ parameterLocations)
    (h : List.Forall₂ (fun entry => ParameterTyped index dialect state entry.parameter)
      (entries.filter (Parameter.isKnown ∘ Operation.Entry.parameter)) typed) :
    List.Forall₂ (fun entry => ParameterTyped index dialect state entry.parameter)
      (entries.filter (·.location == location))
      (typed.filter fun t => t.parameter.location == location) := by
  have all_known : (entries.filter (Parameter.isKnown ∘ Operation.Entry.parameter)).filter
      (·.location == location) = entries.filter (·.location == location) := by
    rw [List.filter_filter]
    refine List.filter_congr fun entry _ => ?_
    cases here : entry.location == location with
    | false => rfl
    | true =>
      have same : entry.parameter.location = location := eq_of_beq here
      simp only [Bool.true_and, Function.comp_apply, Parameter.isKnown, same]
      exact List.contains_iff_mem.2 known
  rw [← all_known]
  refine List.rel_filter (fun entry t same => ?_) h
  change (entry.location == location) = true ↔ (t.parameter.location == location) = true
  rw [same.1]
  rfl

theorem memberFor_of_typed {entry : Operation.Entry} {typed : TypedParameter}
    (h : ParameterTyped index dialect state entry.parameter typed) :
    MemberFor index dialect state entry typed.member := by
  obtain ⟨same, ht⟩ := h
  refine ⟨typed.type, ht, ?_⟩
  rw [TypedParameter.member, same]
  rfl

/-- The parameters typed with one location make its group, if there are any. -/
theorem groupFor_of_typed {entries : List Operation.Entry} {typed : List TypedParameter}
    {location : String} {group : Member}
    (h : List.Forall₂ (fun entry => ParameterTyped index dialect state entry.parameter)
      ((Operation.lastEntries entries).filter (·.location == location))
      (typed.filter fun t => t.parameter.location == location))
    (hg : parameterGroup? typed location = some group) :
    GroupFor index dialect state entries location group := by
  unfold parameterGroup? at hg
  dsimp only at hg
  split at hg
  · cases hg
  · cases hg
    refine ⟨_, List.forall₂_map_right_iff.2 (h.imp fun _ _ => memberFor_of_typed), ?_⟩
    have required : (typed.filter fun t => t.parameter.location == location).any
        (fun t => t.parameter.required) =
        ((Operation.lastEntries entries).filter (·.location == location)).any (·.required) :=
      any_eq_of_forall₂ h fun entry t same => by rw [same.1]; rfl
    rw [required, List.not_any_eq_all_not]

theorem isSome_parameterGroup? {entries : List Operation.Entry} {typed : List TypedParameter}
    {location : String}
    (h : List.Forall₂ (fun entry => ParameterTyped index dialect state entry.parameter)
      ((Operation.lastEntries entries).filter (·.location == location))
      (typed.filter fun t => t.parameter.location == location)) :
    (parameterGroup? typed location).isSome = entries.any (·.location == location) := by
  have empty := isEmpty_eq_of_forall₂ h
  rw [← Operation.any_location_lastEntries]
  unfold parameterGroup?
  dsimp only
  rw [empty]
  split
  · rename_i none
    have absent := List.filter_eq_nil_iff.1 (List.isEmpty_iff.1 none)
    exact (List.any_eq_false.2 absent).symm
  · rename_i some
    obtain ⟨entry, hm⟩ := List.exists_mem_of_ne_nil _ (mt List.isEmpty_iff.2 some)
    obtain ⟨hm, here⟩ := List.mem_filter.1 hm
    exact (List.any_eq_true.2 ⟨entry, hm, here⟩).symm

/-- The type of the merged parameters of an operation has their groups. -/
theorem parametersTyped_grouped {entries : List Operation.Entry} {type : TypeExpr}
    (h : ParametersTyped index dialect state
      ((Operation.lastEntries entries).map Operation.Entry.parameter) type) :
    Grouped index dialect state entries type := by
  obtain ⟨typed, ht, rfl⟩ := h
  rw [List.filter_map, List.forall₂_map_left_iff] at ht
  refine ⟨_, rfl, ?_⟩
  have groups : List.Forall₂ (GroupFor index dialect state entries)
      (parameterLocations.filter fun location => (parameterGroup? typed location).isSome)
      (parameterLocations.filterMap (parameterGroup? typed)) :=
    forall₂_filterMap fun location known group hg => groupFor_of_typed (typed_at known ht) hg
  have present : (parameterLocations.filter fun location =>
      (parameterGroup? typed location).isSome) =
      parameterLocations.filter fun location => entries.any (·.location == location) :=
    List.filter_congr fun location known => isSome_parameterGroup? (typed_at known ht)
  exact present ▸ groups

end

/-! ## Operations -/

/-- There is one declaration with the heading, and what is said holds of it. -/
def Declares (declarations : List Declaration) (entry : Pointer × DeclarationKind)
    (holds : Declaration → Prop) : Prop :=
  ∃ declaration ∈ declarations, heading declaration = entry ∧ holds declaration ∧
    ∀ other ∈ declarations, heading other = entry → other = declaration

theorem Declares.imp {declarations : List Declaration} {entry : Pointer × DeclarationKind}
    {holds holds' : Declaration → Prop} (h : Declares declarations entry holds)
    (himp : ∀ declaration, holds declaration → holds' declaration) :
    Declares declarations entry holds' := by
  obtain ⟨declaration, hd, placed, told, alone⟩ := h
  exact ⟨declaration, hd, placed, himp declaration told, alone⟩

/-- What an operation declares for its parameters and its body. -/
structure Operation.Shown (index : Index) (dialect : Dialect) (state : State)
    (declarations : List Declaration) (here : Located) : Prop where
  /-- What is listed was looked up, all of it. -/
  written : (listed index here.place).map (·.written) = writtenParameters index here.place
  none : listedParameters index here.place = [] →
    (here.place.child "parameters", .operationParameters) ∉ declarations.map heading
  parameters : listedParameters index here.place ≠ [] →
    Declares declarations (here.place.child "parameters", .operationParameters) fun declaration =>
      Grouped index dialect state (listedParameters index here.place) declaration.type
  body : ∃ body, BodyFrom index dialect here body ∧ match body with
    | Option.none =>
      (here.place.child "requestBody", .operationRequestBody) ∉ declarations.map heading
    | some body =>
      Declares declarations (here.place.child "requestBody", .operationRequestBody)
        fun declaration => PartTyped index dialect state body.part body.written declaration.type ∧
          declaration.doc = body.doc

section
variable {index : Index} {dialect : Dialect} {rawSchema : Bool} {state : State} {here : Located}
  {candidates : List Candidate} {declared promoted : List Declaration}

/-- No named part is declared as the parameters or the body of an operation. -/
theorem componentKind?_named {place : Pointer} {kind : DeclarationKind}
    (h : componentKind? dialect rawSchema place = some kind) :
    kind ≠ .operationParameters ∧ kind ≠ .operationRequestBody := by
  unfold componentKind? at h
  split at h
  · split at h <;> cases h
    exact ⟨nofun, nofun⟩
  · split at h <;> cases h <;> exact ⟨nofun, nofun⟩

theorem place_of_child {a b : Pointer} {first second : String} (h : a.child first = b.child second) :
    a = b := by
  have segments := congrArg Pointer.segments h
  exact congrArg Pointer.mk (List.append_inj' segments rfl).1

/-- In the outline of an operation, parameters and bodies are those of its own place. -/
theorem place_of_mem_outline {here : Located} {place : Pointer} {key : String}
    {kind : DeclarationKind} (named : kind = .operationParameters ∨ kind = .operationRequestBody)
    (h : (place.child key, kind) ∈ Operation.outline index dialect here) : here.place = place := by
  unfold Operation.outline at h
  rcases List.mem_append.1 h with h | h
  · rcases List.mem_append.1 h with h | h <;> split at h
    · exact place_of_child (congrArg Prod.fst (List.mem_singleton.1 h)).symm
    · cases h
    · exact place_of_child (congrArg Prod.fst (List.mem_singleton.1 h)).symm
    · cases h
  · obtain ⟨status, -, same⟩ := List.mem_map.1 h
    rcases named with rfl | rfl <;> cases congrArg Prod.snd same

/-- The heading of the parameters or the body of an operation is in its own outline. -/
theorem mem_outline_of_heading (hm : here ∈ operationsAt index rawSchema) {key : String}
    {kind : DeclarationKind} (named : kind = .operationParameters ∨ kind = .operationRequestBody)
    (h : (here.place.child key, kind) ∈ index.locations.flatMap (outlineAt index dialect rawSchema)) :
    (here.place.child key, kind) ∈ Operation.outline index dialect here := by
  obtain ⟨stands, -⟩ := mem_operationsAt hm
  obtain ⟨⟨place, node⟩, hl, h⟩ := List.mem_flatMap.1 h
  unfold outlineAt at h
  dsimp only at h
  split at h
  · rename_i found hk
    obtain ⟨notParameters, notBody⟩ := componentKind?_named hk
    cases List.mem_singleton.1 h
    rcases named with rfl | rfl
    · exact absurd rfl notParameters
    · exact absurd rfl notBody
  · split at h
    · obtain rfl := place_of_mem_outline named h
      cases (Index.get?_of_mem_locations hl).symm.trans stands
      exact h
    · cases h

theorem mem_outline_parameters :
    (here.place.child "parameters", DeclarationKind.operationParameters) ∈
      Operation.outline index dialect here ↔ Operation.hasParameters index here.place = true := by
  unfold Operation.outline
  cases Operation.hasParameters index here.place <;> cases Operation.hasBody index dialect here <;>
    simp

theorem mem_outline_body :
    (here.place.child "requestBody", DeclarationKind.operationRequestBody) ∈
      Operation.outline index dialect here ↔ Operation.hasBody index dialect here = true := by
  unfold Operation.outline
  cases Operation.hasParameters index here.place <;> cases Operation.hasBody index dialect here <;>
    simp

/-- Of parameters and bodies of an operation, those in its outline are declared. -/
theorem Assembled.mem_outline
    (h : Assembled index dialect rawSchema candidates state declared promoted)
    (hm : here ∈ operationsAt index rawSchema) {key : String} {kind : DeclarationKind}
    (named : kind = .operationParameters ∨ kind = .operationRequestBody)
    (found : (here.place.child key, kind) ∈
      (withWrapper rawSchema candidates (declared ++ promoted)).map heading) :
    (here.place.child key, kind) ∈ Operation.outline index dialect here := by
  obtain ⟨declaration, hd, same⟩ := List.mem_map.1 found
  have other : kind ≠ .promoted ∧ kind ≠ .apiWrapper := by
    rcases named with rfl | rfl <;> exact ⟨nofun, nofun⟩
  rcases mem_withWrapper.1 hd with hd | ⟨-, rfl⟩
  · have placed := List.mem_map_of_mem (f := heading) hd
    rw [same, h.headings_eq] at placed
    rcases List.mem_append.1 placed with placed | placed
    · exact mem_outline_of_heading hm named placed
    · obtain ⟨_, -, last⟩ := List.mem_map.1 placed
      exact absurd (congrArg Prod.snd last).symm other.1
  · exact absurd (congrArg Prod.snd same).symm other.2

/-- Every operation of a document is planned, and what it declares is among the declarations. -/
theorem Assembled.operation_at
    (h : Assembled index dialect rawSchema candidates state declared promoted)
    (hm : here ∈ operationsAt index rawSchema) :
    ∃ operation block, operation ∈ operationsOf candidates ∧
      operation.PlannedAt index dialect here ∧
      CandidateDeclared index dialect state (.operation operation) block ∧ block ⊆ declared := by
  obtain ⟨names, collected⟩ := h.collected
  obtain ⟨operation, ho, planned⟩ := exists_right_of_forall₂ (operations_planned collected) hm
  obtain ⟨blocks, made, rfl⟩ := h.declared
  obtain ⟨block, hb, of_operation⟩ := exists_right_of_forall₂ made (mem_operationsOf ho)
  exact ⟨operation, block, ho, planned, of_operation, fun _ hd => List.mem_flatten.2 ⟨block, hb, hd⟩⟩

/-- A declaration of a place within an operation is the only one with its heading. -/
theorem Assembled.declares
    (h : Assembled index dialect rawSchema candidates state declared promoted)
    (hm : here ∈ operationsAt index rawSchema) {key : String} {declaration : Declaration}
    (hd : declaration ∈ declared) (placed : declaration.pointer = here.place.child key)
    {holds : Declaration → Prop} (told : holds declaration) :
    Declares (withWrapper rawSchema candidates (declared ++ promoted))
      (here.place.child key, declaration.kind) holds := by
  obtain ⟨-, path, method, at_place⟩ := mem_operationsAt hm
  have apart : declaration.pointer ≠ ⟨["paths"]⟩ := by
    rw [placed, at_place]
    nofun
  have only := h.names_of_mem (List.mem_append_left _ hd) apart
  rw [placed] at only
  obtain ⟨found, hf, -, same, alone⟩ := only
  have itself : declaration = found :=
    alone declaration (mem_withWrapper.2 (.inl (List.mem_append_left _ hd))) (.inr placed)
  subst itself
  exact ⟨declaration, hf, same, told, fun other ho head =>
    alone other ho (.inr (congrArg Prod.fst head))⟩

/-- The parameters that an operation declares are its own, under the name planned for them. -/
theorem Assembled.parameters_declared
    (h : Assembled index dialect rawSchema candidates state declared promoted)
    (hm : here ∈ operationsAt index rawSchema)
    (some : Operation.listedParameters index here.place ≠ []) :
    ∃ operation named, operation ∈ operationsOf candidates ∧
      operation.PlannedAt index dialect here ∧ operation.parametersNamed = Option.some named ∧
      Declares (withWrapper rawSchema candidates (declared ++ promoted))
        (here.place.child "parameters", .operationParameters) fun declaration =>
          declaration.name = named.name ∧
          Grouped index dialect state (Operation.listedParameters index here.place)
            declaration.type := by
  obtain ⟨operation, block, ho, planned, of_operation, sub⟩ := h.operation_at hm
  have ⟨_, _, _, run⟩ := planned
  have placed := (Operation.plan_outlined run).parameters
  rw [if_pos (Operation.hasParameters_iff.2 some)] at placed
  obtain ⟨named, hn, pointer⟩ := Option.map_eq_some_iff.1 placed
  refine ⟨operation, named, ho, planned, hn, ?_⟩
  obtain ⟨ofParameters, ofBody, ofResponses, hp, -, -, rfl⟩ := of_operation
  unfold ParametersDeclared at hp
  rw [hn] at hp
  obtain ⟨type, typed, rfl⟩ := hp
  rw [(Operation.plan_collected run).parameters] at typed
  have member := sub (List.mem_append_left _ (List.mem_append_left _ List.mem_cons_self))
  exact h.declares hm member pointer ⟨rfl, parametersTyped_grouped typed⟩

/-- The body that an operation declares comes from where it is to come from. -/
theorem Assembled.body_declared
    (h : Assembled index dialect rawSchema candidates state declared promoted)
    (hm : here ∈ operationsAt index rawSchema) :
    ∃ body, Operation.BodyFrom index dialect here body ∧ match body with
      | none => (here.place.child "requestBody", .operationRequestBody) ∉
        (withWrapper rawSchema candidates (declared ++ promoted)).map heading
      | some body => Declares (withWrapper rawSchema candidates (declared ++ promoted))
        (here.place.child "requestBody", .operationRequestBody) fun declaration =>
          PartTyped index dialect state body.part body.written declaration.type ∧
          declaration.doc = body.doc := by
  obtain ⟨operation, block, -, ⟨-, _, _, run⟩, of_operation, sub⟩ := h.operation_at hm
  obtain ⟨ofParameters, ofBody, ofResponses, -, hb, -, rfl⟩ := of_operation
  refine ⟨_, (Operation.plan_collected run).body, ?_⟩
  have placed := (Operation.plan_outlined run).body
  unfold BodyDeclared at hb
  cases body : operation.body with
  | none =>
    intro found
    have has := mem_outline_body.1 (h.mem_outline hm (.inr rfl) found)
    rw [body, if_pos has] at placed
    cases placed
  | some entry =>
    obtain ⟨written, named⟩ := entry
    have pointer : named.pointer = here.place.child "requestBody" := by
      rw [body] at placed
      split at placed
      · exact Option.some.inj placed
      · cases placed
    rw [body] at hb
    obtain ⟨type, typed, rfl⟩ := hb
    have member := sub (List.mem_append_left _ (List.mem_append_right _ List.mem_cons_self))
    exact h.declares hm member pointer ⟨typed, rfl⟩

theorem Assembled.written_eq
    (h : Assembled index dialect rawSchema candidates state declared promoted)
    (hm : here ∈ operationsAt index rawSchema) :
    (Operation.listed index here.place).map (·.written) =
      Operation.writtenParameters index here.place := by
  obtain ⟨_, _, -, ⟨-, _, _, run⟩, -⟩ := h.operation_at hm
  exact (Operation.plan_collected run).written

theorem Assembled.shown
    (h : Assembled index dialect rawSchema candidates state declared promoted)
    (hm : here ∈ operationsAt index rawSchema) :
    Operation.Shown index dialect state (withWrapper rawSchema candidates (declared ++ promoted))
      here where
  written := h.written_eq hm
  none empty found :=
    Operation.hasParameters_iff.1 (mem_outline_parameters.1 (h.mem_outline hm (.inl rfl) found)) empty
  parameters some := by
    obtain ⟨_, _, -, -, -, declares⟩ := h.parameters_declared hm some
    exact declares.imp fun _ => And.right
  body := h.body_declared hm

end

/-- Of any document that assembles: each of its operations declares its parameters if one is listed
that is no body, grouped by their locations, and its body. The last entry with one name and location
is the one that counts. The warnings about locations are those about the parameters that count and
have no group. -/
theorem assemble_parameters {index : Index} {dialect : Dialect} {rawSchema : Bool}
    {assembly : Assembly} (h : assemble index dialect rawSchema = .ok assembly) :
    (∀ here ∈ operationsAt index rawSchema,
      Operation.Shown index dialect (finalState index dialect rawSchema) assembly.declarations
        here) ∧
    assembly.warnings.filter Warning.isLocation =
      (operationsAt index rawSchema).flatMap fun here =>
        Operation.locationWarnings index here.place := by
  refine ⟨fun here hm => ?_, assemble_locationWarnings h⟩
  obtain ⟨found, names, declared, promoted, -, -, assembled, rfl⟩ := assemble_finishes h
  exact assembled.shown hm

/-- An operation that overrides a parameter of its path, with another that is referred to, one
without a name and one in a location without a group. -/
def overriddenParameters : Document :=
  .ofJson (.object [
    ("openapi", .string "3.0.0"),
    ("components", .object [("parameters", .object [("Token", .object [
      ("name", .string "token"), ("in", .string "header"), ("required", .bool true)])])]),
    ("paths", .object [("/pets", .object [
      ("parameters", .array [
        .object [("name", .string "limit"), ("in", .string "query")],
        .object [("$ref", .string "#/components/parameters/Token")],
        .object [("name", .string "limit"), ("in", .string "header")]]),
      ("get", .object [("parameters", .array [
        .object [("name", .string "limit"), ("in", .string "query"), ("required", .bool true)],
        .object [("name", .string "body"), ("in", .string "body")],
        .object [("name", .string "shape"), ("in", .string "matrix")],
        .object [("in", .string "query")]])])])])])

theorem assemble_parameters_overridden :
    ∃ assembly,
      assemble (indexOf overriddenParameters .openApi3 false) .openApi3 false = .ok assembly ∧
      (∀ here ∈ operationsAt (indexOf overriddenParameters .openApi3 false) false,
        Operation.Shown (indexOf overriddenParameters .openApi3 false) .openApi3
          (finalState (indexOf overriddenParameters .openApi3 false) .openApi3 false)
          assembly.declarations here ∧
        (Operation.lastEntries (Operation.listedParameters
            (indexOf overriddenParameters .openApi3 false) here.place)).map
          (fun entry => (entry.name, entry.location, entry.required)) = [
            ("token", "header", true), ("limit", "header", false), ("limit", "query", true),
            ("shape", "matrix", false), ("", "query", false)]) ∧
      assembly.warnings.filter Warning.isLocation = [⟨.unsupportedShape,
        some ⟨["paths", "/pets", "get", "parameters", "2"]⟩,
        "unknown parameter location `matrix`"⟩] := by
  have succeeds : (assemble (indexOf overriddenParameters .openApi3 false) .openApi3 false).isOk =
      true := by
    decide +kernel
  have last : ∀ here ∈ operationsAt (indexOf overriddenParameters .openApi3 false) false,
      (Operation.lastEntries (Operation.listedParameters
          (indexOf overriddenParameters .openApi3 false) here.place)).map
        (fun entry => (entry.name, entry.location, entry.required)) = [
          ("token", "header", true), ("limit", "header", false), ("limit", "query", true),
          ("shape", "matrix", false), ("", "query", false)] := by
    decide +kernel
  obtain ⟨assembly, he⟩ := ok_of_isOk succeeds
  obtain ⟨shown, warned⟩ := assemble_parameters he
  refine ⟨assembly, he, fun here hm => ⟨shown here hm, last here hm⟩, warned.trans ?_⟩
  decide +kernel

end ApiTypes.Api
