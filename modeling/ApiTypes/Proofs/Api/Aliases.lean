import ApiTypes.Proofs.Api.Outline
import ApiTypes.Proofs.Typing.Exposed

/-!
# Aliases

A declaration whose type has the name of another in the open is an alias of it, in part. When
aliases lead from a declaration back to itself, it stands for nothing. `assemble_aliases` tells
where such circles come from: one of declarations is one of their places in the document, along
references, composition, and the schemas of parts (`Leads`). What is inside of objects and
arrays takes no part in it. Such a circle in a document is no error, so it does get declared
(`assemble_circular`).
-/

namespace ApiTypes.Api

open Typing TypeExpr Relation

/-- The first declaration has the name of the second in the open. -/
def Aliases (declarations : List Declaration) (declaration other : Declaration) : Prop :=
  declaration ∈ declarations ∧ other ∈ declarations ∧ Exposes other.name declaration.type

/-- The type for the first place is, in part, that for the second: a schema hands it on, the place
is a part with a schema, or that of the body of an operation where a parameter is the body. -/
inductive Leads (index : Index) (dialect : Dialect) : Pointer → Pointer → Prop
  | schema {place other : Pointer} (hands : index.HandsOn place other) : Leads index dialect place other
  | part {here found : Located} (stands : here.Stands index)
      (holds : directSchema? here = some found ∨ contentSchema? here = some (some found)) :
      Leads index dialect here.place found.place
  | body {here written : Located} {key : String × String} {part : Json} (stands : here.Stands index)
      (operation : operationAt? here.place = some key)
      (unwritten : dialect = .swagger2 ∨ here.node.get? "requestBody" = none)
      (listed : written ∈ Operation.writtenParameters index here.place)
      (leads : deref index written = .ok part) (isBody : Operation.isBodyPart part = true) :
      Leads index dialect (here.place.child "requestBody") written.place

section
variable {index : Index} {dialect : Dialect} {state : State} {name : String} {type : TypeExpr}

/-! ## Parts -/

theorem leads_of_link {place target : Pointer} (h : index.Link place target) :
    Leads index dialect place target :=
  .schema (.reference h)

/-- The name was given to a place that the given one leads to. -/
def Reaches (index : Index) (dialect : Dialect) (state : State) (place : Pointer) (name : String) :
    Prop :=
  ∃ target, TransGen (Leads index dialect) place target ∧ state.names.get? target = some name

theorem Reaches.head {place other : Pointer} (h : ReflTransGen (Leads index dialect) place other)
    (rest : Reaches index dialect state other name) : Reaches index dialect state place name := by
  obtain ⟨target, chain, named⟩ := rest
  exact ⟨target, .trans_right h chain, named⟩

theorem nodeTyped_reaches (ordered : state.Ordered index) {node : Json} {place : Pointer}
    (stands : index.get? place = some node) (h : NodeTyped index state node place type)
    (exposed : Exposes name type) : Reaches index dialect state place name := by
  rw [← state.upTo_length] at h
  obtain ⟨target, chain, named⟩ := nodeTyped_exposes ordered _ node stands h exposed
  exact ⟨target, TransGen.mono (fun _ _ => .schema) _ _ chain, named⟩

/-- The schema that gives the type of a part is inside of the part, or the part itself. -/
theorem typeSource_leads {part : Part} {here schema : Located} (stands : here.Stands index)
    (h : typeSource dialect part here = .schema schema) :
    ReflTransGen (Leads index dialect) here.place schema.place := by
  have offered {empty : TypeExpr} (h : contentSource here empty = .schema schema) :
      ReflTransGen (Leads index dialect) here.place schema.place := by
    unfold contentSource at h
    split at h
    · rename_i found hf
      cases h
      exact .single (.part stands (.inr hf))
    · cases h
    · cases h
  cases part with
  | requestBody => exact offered h
  | response =>
    cases dialect with
    | openApi3 => exact offered h
    | swagger2 =>
      unfold typeSource at h
      dsimp only at h
      split at h
      · rename_i found hf
        cases h
        exact .single (.part stands (.inl hf))
      · cases h
  | parameter =>
    unfold typeSource at h
    dsimp only at h
    split at h
    · rename_i found hf
      cases h
      exact .single (.part stands (.inl hf))
    · split at h
      · rename_i found hf
        cases h
        exact .single (.part stands (.inr hf))
      · cases h
      · cases h
        exact .refl
      · cases h

theorem partTyped_reaches (ordered : state.Ordered index) {part : Part} {written : Located}
    (h : PartTyped index dialect state part written type) (exposed : Exposes name type) :
    Reaches index dialect state written.place name := by
  rcases h with ⟨target, given, chain, named, rfl⟩ | ⟨here, chain, stands, -, source⟩
  · cases exposed
    exact ⟨target, TransGen.mono (fun _ _ => leads_of_link) _ _ chain, named⟩
  · have to_part : ReflTransGen (Leads index dialect) written.place here.place :=
      ReflTransGen.mono (fun _ _ => leads_of_link) _ _ chain
    have source_stands := typeSource_stands dialect part stands
    cases hs : typeSource dialect part here with
    | fixed fixed =>
      rw [hs] at source source_stands
      rw [show type = fixed from source] at exposed
      rcases source_stands with rfl | rfl <;> cases exposed
    | schema schema =>
      rw [hs] at source source_stands
      exact .head (to_part.trans (typeSource_leads stands hs))
        (nodeTyped_reaches ordered source_stands source exposed)

/-! ## Declarations -/

/-- A body is written under `requestBody`, unless it is a parameter that is one. -/
theorem bodyOf_leads {here : Located} (stands : here.Stands index) {key : String × String}
    (at_place : operationAt? here.place = some key) {found : List Operation.Entry}
    (lead : ∀ entry ∈ found, entry.written ∈ Operation.writtenParameters index here.place ∧
      deref index entry.written = .ok entry.part) {body : Body} {before after : NameTable}
    (h : (Operation.bodyOf index dialect here found).run before = .ok (some body, after)) :
    ReflTransGen (Leads index dialect) (here.place.child "requestBody") body.written.place := by
  have of_parameters (unwritten : dialect = .swagger2 ∨ here.node.get? "requestBody" = none)
      (last : (found.filter Operation.Entry.isBody).getLast?.map Operation.Entry.body = some body) :
      ReflTransGen (Leads index dialect) (here.place.child "requestBody") body.written.place := by
    obtain ⟨entry, he, rfl⟩ := Option.map_eq_some_iff.1 last
    obtain ⟨hm, isBody⟩ := List.mem_filter.1 (List.mem_of_getLast? he)
    obtain ⟨listed, leads⟩ := lead entry hm
    rw [Operation.isBody_eq] at isBody
    exact .single (.body stands at_place unwritten listed leads isBody)
  unfold Operation.bodyOf at h
  cases dialect with
  | swagger2 => exact of_parameters (.inl rfl) (run_pure_eq_ok.1 h).1
  | openApi3 =>
    cases hn : here.node.get? "requestBody" with
    | none =>
      rw [hn] at h
      exact of_parameters (.inr hn) (run_pure_eq_ok.1 h).1
    | some node =>
      rw [hn] at h
      obtain ⟨part, _, -, h⟩ := run_bind_eq_ok.1 h
      obtain ⟨same, -⟩ := run_pure_eq_ok.1 h
      cases same
      exact .refl

/-- The body of an operation is written where the place of its declaration leads. -/
theorem plan_body {path method : String} {here : Located} (stands : here.Stands index)
    {operation : Operation} {before after : NameTable} {key : String × String}
    (at_place : operationAt? here.place = some key)
    (h : (Operation.plan index dialect path method here).run before = .ok (operation, after))
    {body : Body} {named : Named} (hb : operation.body = some (body, named)) :
    ReflTransGen (Leads index dialect) named.pointer body.written.place := by
  have place : named.pointer = here.place.child "requestBody" := by
    have outlined := (Operation.plan_outlined h).body
    rw [hb, Option.map_some] at outlined
    split at outlined
    · exact Option.some.inj outlined
    · cases outlined
  unfold Operation.plan at h
  obtain ⟨found, _, hf, h⟩ := run_bind_eq_ok.1 h
  obtain ⟨planned, _, hw, h⟩ := run_bind_eq_ok.1 h
  obtain ⟨parametersNamed, _, -, h⟩ := run_bind_eq_ok.1 h
  obtain ⟨bodyNamed, _, -, h⟩ := run_bind_eq_ok.1 h
  obtain ⟨responses, _, -, h⟩ := run_bind_eq_ok.1 h
  obtain ⟨rfl, -⟩ := run_pure_eq_ok.1 h
  obtain ⟨written, rfl, paired⟩ := Option.bind_eq_some_iff.1 hb
  obtain ⟨_, -, same⟩ := Option.map_eq_some_iff.1 paired
  cases same
  obtain ⟨all_found, lead⟩ := Operation.entries_give hf
  rw [place]
  exact bodyOf_leads stands at_place
    (fun entry hm => ⟨all_found ▸ List.mem_map_of_mem hm, lead entry hm⟩) hw

theorem componentTyped_reaches (ordered : state.Ordered index) {kind : DeclarationKind}
    {here : Located} (stands : here.Stands index)
    (h : ComponentTyped index dialect state kind here type) (exposed : Exposes name type) :
    Reaches index dialect state here.place name := by
  unfold ComponentTyped at h
  split at h
  · exact partTyped_reaches ordered h exposed
  · exact partTyped_reaches ordered h exposed
  · exact partTyped_reaches ordered h exposed
  · exact nodeTyped_reaches ordered stands h exposed

theorem operationDeclared_reaches (ordered : state.Ordered index) {operation : Operation}
    {here : Located} (stands : here.Stands index) (planned : operation.PlannedAt index dialect here)
    {declarations : List Declaration}
    (h : CandidateDeclared index dialect state (.operation operation) declarations)
    {declaration : Declaration} (hm : declaration ∈ declarations)
    (exposed : Exposes name declaration.type) :
    Reaches index dialect state declaration.pointer name := by
  obtain ⟨ofParameters, ofBody, ofResponses, hp, hb, hr, rfl⟩ := h
  rcases List.mem_append.1 hm with hm | hm
  · rcases List.mem_append.1 hm with hm | hm
    · unfold ParametersDeclared at hp
      split at hp
      · rw [hp] at hm
        cases hm
      · obtain ⟨type, ⟨typed, -, rfl⟩, rfl⟩ := hp
        rw [List.mem_singleton.1 hm] at exposed
        cases exposed
    · unfold BodyDeclared at hb
      split at hb
      · rw [hb] at hm
        cases hm
      · rename_i body named found
        obtain ⟨type, typed, rfl⟩ := hb
        rw [List.mem_singleton.1 hm] at exposed ⊢
        obtain ⟨at_place, _, _, plan⟩ := planned
        exact .head (plan_body stands at_place plan found) (partTyped_reaches ordered typed exposed)
  · obtain ⟨response, -, type, typed, rfl⟩ := exists_left_of_forall₂ hr hm
    exact partTyped_reaches ordered typed exposed

theorem promotedDeclared_reaches (ordered : state.Ordered index) {declaration : Declaration}
    (h : PromotedDeclared index state declaration) (exposed : Exposes name declaration.type) :
    Reaches index dialect state declaration.pointer name := by
  obtain ⟨node, stands, typed, -⟩ := h
  exact nodeTyped_reaches ordered stands typed exposed

variable {rawSchema : Bool} {found : List Candidate} {declared promoted : List Declaration}

theorem Assembled.reaches
    (h : Assembled index dialect rawSchema found state declared promoted)
    {declaration : Declaration} (hm : declaration ∈ declared ++ promoted)
    (exposed : Exposes name declaration.type) :
    Reaches index dialect state declaration.pointer name := by
  obtain ⟨names, -, run⟩ := h.run
  have ordered := run_ordered run (ordered_start index names)
  rcases List.mem_append.1 hm with hm | hm
  · obtain ⟨blocks, made, rfl⟩ := h.declared
    obtain ⟨block, hb, hm⟩ := List.mem_flatten.1 hm
    obtain ⟨candidate, hc, of_candidate⟩ := exists_left_of_forall₂ made hb
    cases candidate with
    | component here kind given =>
      obtain ⟨type, typed, rfl⟩ := of_candidate
      rw [List.mem_singleton.1 hm] at exposed ⊢
      exact componentTyped_reaches ordered (h.stand _ hc) typed exposed
    | operation operation =>
      obtain ⟨_, collected⟩ := h.collected
      obtain ⟨location, hl, planned⟩ := operation_plannedAt collected hc
      exact operationDeclared_reaches ordered (Index.get?_of_mem_locations hl) planned of_candidate hm
        exposed
  · exact promotedDeclared_reaches ordered (h.promoted declaration hm) exposed

/-- What a declaration is an alias of, its place leads to. -/
theorem Assembled.leads_of_aliases
    (h : Assembled index dialect rawSchema found state declared promoted)
    {declaration other : Declaration}
    (aliases : Aliases (withWrapper rawSchema found (declared ++ promoted)) declaration other) :
    TransGen (Leads index dialect) declaration.pointer other.pointer := by
  obtain ⟨hm, ho, exposed⟩ := aliases
  rcases mem_withWrapper.1 hm with hm | ⟨-, rfl⟩
  · obtain ⟨target, chain, named⟩ := h.reaches hm exposed
    have entry := NameTable.mem_of_get? named
    rw [← h.names_eq] at entry
    obtain ⟨same, hs, he⟩ := List.mem_map.1 entry
    obtain ⟨rfl, name⟩ := Prod.mk.inj he
    rwa [← List.inj_on_of_nodup_map h.names_nodup (mem_withWrapper.2 (.inl hs)) ho name]
  · cases exposed

end

/-- Aliases lead in circles only where the places of a document do: when declarations are aliases of
each other, back to the first, references, composition and the schemas of parts lead from its place
back to it. -/
theorem assemble_aliases {index : Index} {dialect : Dialect} {rawSchema : Bool} {assembly : Assembly}
    (h : assemble index dialect rawSchema = .ok assembly) :
    ∀ declaration, TransGen (Aliases assembly.declarations) declaration declaration →
      TransGen (Leads index dialect) declaration.pointer declaration.pointer := by
  obtain ⟨found, state, declared, promoted, assembled, -, same⟩ := assemble_consists h
  rw [same]
  intro declaration circle
  have lead : ∀ declaration other,
      Aliases (withWrapper rawSchema found (declared ++ promoted)) declaration other →
      TransGen (Leads index dialect) declaration.pointer other.pointer :=
    fun _ _ => assembled.leads_of_aliases
  exact TransGen.lift' Declaration.pointer lead _ _ circle

/-- Schemas that lead to each other through a choice, a composition, and a part that belongs to
neither. -/
def circularSchemas : Document :=
  .ofJson (.object [
    ("A", .object [("oneOf", .array [.object [("type", .string "string")],
      .object [("$ref", .string "#/definitions/B")]])]),
    ("B", .object [("allOf", .array [.object [("$ref", .string "#/definitions/C/properties/next")]])]),
    ("C", .object [("properties", .object [
      ("next", .object [("$ref", .string "#/definitions/A")])])])])

theorem assemble_aliases_circularSchemas :
    ∃ assembly, assemble (indexOf circularSchemas .swagger2 true) .swagger2 true = .ok assembly ∧
      ∃ declaration ∈ assembly.declarations, declaration.pointer = ⟨["A"]⟩ ∧
        TransGen (Aliases assembly.declarations) declaration declaration ∧
        TransGen (Leads (indexOf circularSchemas .swagger2 true) .swagger2) ⟨["A"]⟩ ⟨["A"]⟩ := by
  have computed : (assemble (indexOf circularSchemas .swagger2 true) .swagger2 true).toOption.map
      (·.declarations.map fun declaration => (nameEntry declaration, declaration.type.openRefs)) =
      some [((⟨["A"]⟩, "A"), ["B"]), ((⟨["B"]⟩, "B"), ["A"]), ((⟨["C"]⟩, "C"), [])] := by
    decide +kernel
  obtain ⟨assembly, he, computed⟩ := ok_of_computed computed
  obtain ⟨first, rest, declarations, first_is, made⟩ := List.map_eq_cons_iff.1 computed
  obtain ⟨second, rest, rfl, second_is, -⟩ := List.map_eq_cons_iff.1 made
  obtain ⟨named, opened⟩ := Prod.mk.inj first_is
  obtain ⟨place, name⟩ := Prod.mk.inj named
  obtain ⟨named', opened'⟩ := Prod.mk.inj second_is
  obtain ⟨-, name'⟩ := Prod.mk.inj named'
  have first_mem : first ∈ assembly.declarations := by simp [declarations]
  have second_mem : second ∈ assembly.declarations := by simp [declarations]
  have there : Exposes second.name first.type := mem_openRefs_iff.1 (by simp [opened, name'])
  have back : Exposes first.name second.type := mem_openRefs_iff.1 (by simp [opened', name])
  have circle : TransGen (Aliases assembly.declarations) first first :=
    .tail (.single ⟨first_mem, second_mem, there⟩) ⟨second_mem, first_mem, back⟩
  have leads := assemble_aliases he first circle
  rw [place] at leads
  exact ⟨assembly, he, first, first_mem, place, circle, leads⟩

/-- A response that only refers to itself. -/
def selfReference : Document :=
  .ofJson (.object [("components", .object [("responses", .object [
    ("A", .object [("$ref", .string "#/components/responses/A")])])])])

/-- A part that has a name gets that name before its references are seen to come back to it, so a
circle in the document is declared as it is. -/
theorem assemble_circular :
    ∃ assembly declaration,
      assemble (indexOf selfReference .openApi3 false) .openApi3 false = .ok assembly ∧
      TransGen (Aliases assembly.declarations) declaration declaration := by
  have computed : (assemble (indexOf selfReference .openApi3 false) .openApi3 false).toOption.map
      (·.declarations.map fun declaration => (declaration.name, declaration.type.openRefs)) =
      some [("A", ["A"]), ("paths", [])] := by
    decide +kernel
  obtain ⟨assembly, he, computed⟩ := ok_of_computed computed
  obtain ⟨declaration, rest, declarations, is, -⟩ := List.map_eq_cons_iff.1 computed
  obtain ⟨name, opened⟩ := Prod.mk.inj is
  have member : declaration ∈ assembly.declarations := by simp [declarations]
  have exposed : Exposes declaration.name declaration.type :=
    mem_openRefs_iff.1 (by simp [opened, name])
  exact ⟨assembly, declaration, he, .single ⟨member, member, exposed⟩⟩

end ApiTypes.Api
