import ApiTypes.Proofs.Api.Parameters
import ApiTypes.Proofs.Api.WellFormed
import ApiTypes.Proofs.Meaning.Inhabits

/-!
# Whether parameters may be left out

The wrapper lets the parameters of an operation be left out, and so does their own type when all its
groups may be. The two are told from different lists: the wrapper asks for parameters if any is
required, the type only if one with a group is.

* `parametersMember?`: what the wrapper says of the parameters of an operation;
* `inhabits_empty_iff`: the empty object is of an object type that requires nothing;
* `assemble_optionality`: when the two agree, and what each of them says.
-/

namespace ApiTypes

/-! ## Properties -/

/-- The name of a property, with its type and whether it is optional. -/
def Member.property? : Member → Option (String × TypeExpr × Bool)
  | .property name type isOptional _ _ => some (name, type, isOptional)
  | .index _ _ => none

namespace TypeExpr

/-- The members of an object type. -/
def members? : TypeExpr → Option (List Member)
  | .object members => some members
  | _ => none

/-- The type of a property of an object type, and whether it is optional. -/
def property? (type : TypeExpr) (name : String) : Option (TypeExpr × Bool) := do
  let members ← type.members?
  (members.filterMap Member.property?).lookup name

/-- Some property of the object type has to be there. -/
def requires (type : TypeExpr) : Bool :=
  type.members?.any fun members =>
    (members.filterMap Member.property?).any fun property => !property.2.2

theorem members?_eq_some {type : TypeExpr} {members : List Member} :
    type.members? = some members ↔ type = .object members := by
  cases type <;> simp [members?]

/-- A property is found by its name among properties with different names. -/
theorem property?_map {α : Type} {entries : List α} {build : α → Member} {name : α → String}
    {value : α → TypeExpr × Bool}
    (built : ∀ entry, (build entry).property? = some (name entry, value entry))
    (distinct : (entries.map name).Nodup) {entry : α} (hm : entry ∈ entries) :
    (TypeExpr.object (entries.map build)).property? (name entry) = some (value entry) := by
  have all : (entries.map build).filterMap Member.property? =
      entries.map fun entry => (name entry, value entry) := by
    rw [List.filterMap_map, ← List.filterMap_eq_map]
    exact List.filterMap_congr fun entry _ => built entry
  change ((entries.map build).filterMap Member.property?).lookup (name entry) = _
  rw [all]
  refine lookup_of_mem ?_ (List.mem_map_of_mem hm)
  rwa [List.map_map]

theorem requires_eq_true_iff {members : List Member} :
    (TypeExpr.object members).requires = true ↔
      ∃ name type isReadonly doc, .property name type false isReadonly doc ∈ members := by
  change (members.filterMap Member.property?).any _ = true ↔ _
  rw [List.any_filterMap, List.any_eq_true]
  constructor
  · rintro ⟨member, hm, needed⟩
    cases member with
    | property name type isOptional isReadonly doc =>
      cases isOptional with
      | false => exact ⟨name, type, isReadonly, doc, hm⟩
      | true => cases needed
    | index => cases needed
  · rintro ⟨name, type, isReadonly, doc, hm⟩
    exact ⟨_, hm, rfl⟩

end TypeExpr

/-- The empty object is of an object type that requires no property. -/
theorem Meaning.inhabits_empty_iff {declarations : List Declaration} {members : List Member} :
    Inhabits declarations (.object members) (.object []) ↔
      (TypeExpr.object members).requires = false := by
  rw [← Bool.not_eq_true, TypeExpr.requires_eq_true_iff]
  constructor
  · rintro h ⟨name, type, isReadonly, doc, hm⟩
    cases h with
    | object _ required _ => exact List.not_mem_nil (required name type isReadonly doc hm)
  · intro none
    refine .object (fun _ _ _ _ _ _ _ hm => ?_) (fun name type isReadonly doc hm => ?_)
      (fun _ _ _ _ hm => ?_)
    · cases hm
    · exact absurd ⟨name, type, isReadonly, doc, hm⟩ none
    · cases hm

namespace Api

open Typing TypeExpr Meaning

/-! ## The wrapper -/

/-- What the wrapper says of the parameters of an operation: their type, and whether they may be
left out. -/
def parametersMember? (declarations : List Declaration) (path method : String) :
    Option (TypeExpr × Bool) := do
  let api ← declarations.find? (·.name == wrapperName)
  let (ofPath, _) ← api.type.property? path
  let (ofMethod, _) ← ofPath.property? method
  ofMethod.property? "parameters"

theorem mem_pathsOf {operations : List Operation} {operation : Operation}
    (hm : operation ∈ operations) : operation.path ∈ pathsOf operations := by
  have gathers (operations : List Operation) (paths : List String) (path : String)
      (h : path ∈ paths ∨ path ∈ operations.map (·.path)) :
      path ∈ operations.foldl (fun paths operation =>
        if paths.contains operation.path then paths else paths ++ [operation.path]) paths := by
    induction operations generalizing paths with
    | nil => exact h.resolve_right List.not_mem_nil
    | cons first rest ih =>
      apply ih
      dsimp only
      rw [List.map_cons, List.mem_cons] at h
      split
      · rename_i known
        have known : first.path ∈ paths := by simpa using known
        rcases h with h | rfl | h
        · exact .inl h
        · exact .inl known
        · exact .inr h
      · rcases h with h | rfl | h
        · exact .inl (List.mem_append_left _ h)
        · exact .inl (List.mem_append_right _ (List.mem_singleton_self _))
        · exact .inr h
  exact gathers operations [] operation.path (.inr (List.mem_map_of_mem hm))

section
variable {operations : List Operation}

/-- The wrapper leads by path and method to the members of the operation. -/
theorem wrapper_property? (distinct : (operations.map Operation.key).Nodup) {operation : Operation}
    (hm : operation ∈ operations) :
    (wrapper operations).type.property? operation.path =
        some (.object ((operations.filter fun other => other.path == operation.path).map
          methodMember), false) ∧
      (TypeExpr.object ((operations.filter fun other => other.path == operation.path).map
          methodMember)).property? operation.method =
        some (.object (operationMembers operation), false) := by
  have ofPath (path : String) : (pathMember operations path).property? = some (id path,
      .object ((operations.filter fun other => other.path == path).map methodMember), false) := rfl
  have ofMethod (other : Operation) : (methodMember other).property? = some (other.method,
      .object (operationMembers other), false) := rfl
  have among : operation ∈ operations.filter fun other => other.path == operation.path :=
    List.mem_filter.2 ⟨hm, beq_self_eq_true _⟩
  have paths : ((pathsOf operations).map id).Nodup := by
    rw [List.map_id]
    exact pathsOf_nodup operations
  exact ⟨property?_map ofPath paths (mem_pathsOf hm),
    property?_map ofMethod (methods_nodup distinct operation.path) among⟩

end

section
variable {index : Index} {dialect : Dialect} {state : State} {candidates : List Candidate}
  {declared promoted : List Declaration}

/-- What the wrapper says of the parameters of an operation: they may be left out if none is
required, wherever it is. -/
theorem Assembled.parametersMember?_eq
    (h : Assembled index dialect false candidates state declared promoted) {operation : Operation}
    (hm : operation ∈ operationsOf candidates) {named : Named}
    (hn : operation.parametersNamed = some named) :
    parametersMember? (withWrapper false candidates (declared ++ promoted)) operation.path
        operation.method =
      some (.ref named.name, !operation.parameters.any (·.required)) := by
  obtain ⟨names, collected⟩ := h.collected
  have api : (withWrapper false candidates (declared ++ promoted)).find? (·.name == wrapperName) =
      some (wrapper (operationsOf candidates)) := by
    have distinct := h.names_nodup
    unfold withWrapper at distinct ⊢
    simp only [Bool.false_eq_true, if_false, List.map_append] at distinct ⊢
    rw [List.find?_append, List.find?_eq_none.2, Option.none_or]
    · rfl
    · intro declaration hd same
      refine (List.nodup_append.1 distinct).2.2 _ ?_ _ List.mem_cons_self (eq_of_beq same)
      rw [← List.map_append]
      exact List.mem_map_of_mem hd
  obtain ⟨ofPath, ofMethod⟩ := wrapper_property? (operations_distinct collected) hm
  have members : (TypeExpr.object (operationMembers operation)).property? "parameters" =
      some (.ref named.name, !operation.parameters.any (·.required)) := by
    unfold operationMembers
    rw [hn]
    rfl
  simp only [parametersMember?, api, ofPath, ofMethod, members, Option.bind_eq_bind,
    Option.bind_some]

/-! ## Groups -/

/-- Some group has to be there exactly if a parameter with a group is required. -/
theorem Grouped.requires_iff {entries : List Operation.Entry} {type : TypeExpr}
    (h : Grouped index dialect state entries type) :
    type.requires = true ↔ ∃ entry ∈ Operation.lastEntries entries,
      entry.isGrouped = true ∧ entry.required = true := by
  obtain ⟨groups, rfl, made⟩ := h
  rw [requires_eq_true_iff]
  constructor
  · rintro ⟨name, type, isReadonly, doc, hm⟩
    obtain ⟨location, hl, members, -, same⟩ := exists_left_of_forall₂ made hm
    have needed : (((Operation.lastEntries entries).filter (·.location == location)).all
        fun entry => !entry.required) = false := by
      injection same with _ _ isOptional
      exact isOptional.symm
    obtain ⟨entry, he, required⟩ := List.all_eq_false.1 needed
    obtain ⟨he, here⟩ := List.mem_filter.1 he
    refine ⟨entry, he, ?_, by simpa using required⟩
    rw [Operation.Entry.isGrouped, eq_of_beq here]
    exact List.contains_iff_mem.2 (List.mem_filter.1 hl).1
  · rintro ⟨entry, he, grouped, required⟩
    have present : entry.location ∈ ["path", "query", "header", "cookie", "formData"].filter
        fun location => entries.any (·.location == location) := by
      refine List.mem_filter.2 ⟨List.contains_iff_mem.1 grouped, List.any_eq_true.2 ⟨entry, ?_⟩⟩
      exact ⟨Operation.lastEntries_subset entries he, beq_self_eq_true _⟩
    obtain ⟨group, hg, members, -, rfl⟩ := exists_right_of_forall₂ made present
    have needed : (((Operation.lastEntries entries).filter (·.location == entry.location)).all
        fun entry => !entry.required) = false := by
      refine List.all_eq_false.2 ⟨entry, List.mem_filter.2 ⟨he, beq_self_eq_true _⟩, ?_⟩
      rw [required]
      decide
    rw [needed] at hg
    exact ⟨_, _, _, _, hg⟩

end

/-- The parameters that count for an operation say when the wrapper and the type of the parameters
agree on whether they may be left out. The wrapper asks for them if one is required, and the type if
one with a group is; so they agree unless every required one is without a group, and there is one. -/
theorem assemble_optionality {index : Index} {dialect : Dialect} {assembly : Assembly}
    (h : assemble index dialect false = .ok assembly) {here : Located}
    (hm : here ∈ operationsAt index false) {declaration : Declaration}
    (hd : declaration ∈ assembly.declarations)
    (placed : heading declaration = (here.place.child "parameters", .operationParameters)) :
    ∃ path method isOptional, here.place = ⟨["paths", path, method]⟩ ∧
      parametersMember? assembly.declarations path method =
        some (.ref declaration.name, isOptional) ∧
      (isOptional = false ↔ ∃ entry ∈ Operation.lastParameters index here.place,
        entry.required = true) ∧
      (declaration.type.requires = true ↔ ∃ entry ∈ Operation.lastParameters index here.place,
        entry.isGrouped = true ∧ entry.required = true) ∧
      (Inhabits assembly.declarations declaration.type (.object []) ↔
        declaration.type.requires = false) ∧
      ((isOptional = false ↔ declaration.type.requires = true) ↔
        ((∃ entry ∈ Operation.lastParameters index here.place, entry.required = true) →
          ∃ entry ∈ Operation.lastParameters index here.place,
            entry.isGrouped = true ∧ entry.required = true)) := by
  obtain ⟨found, names, declared, promoted, -, -, assembled, rfl⟩ := assemble_finishes h
  have listed : Operation.listedParameters index here.place ≠ [] := by
    have headed := placed ▸ List.mem_map_of_mem (f := heading) hd
    exact fun empty => (assembled.shown hm).none empty headed
  obtain ⟨operation, named, ho, planned, hn, made, _, -, ⟨name, grouped⟩, alone⟩ :=
    assembled.parameters_declared hm listed
  obtain rfl := alone declaration hd placed
  obtain ⟨at_place, _, _, run⟩ := planned
  have member := assembled.parametersMember?_eq ho hn
  rw [← name] at member
  have required : (!operation.parameters.any (·.required)) = false ↔
      ∃ entry ∈ Operation.lastParameters index here.place, entry.required = true := by
    rw [(Operation.plan_collected run).parameters, List.any_map, Bool.not_eq_false',
      List.any_eq_true]
    rfl
  have empty : Inhabits (withWrapper false found (declared ++ promoted)) declaration.type
      (.object []) ↔ declaration.type.requires = false := by
    have ⟨groups, same, _⟩ := grouped
    rw [same]
    exact inhabits_empty_iff
  refine ⟨_, _, _, operationAt?_eq_some at_place, member, required, grouped.requires_iff, empty, ?_⟩
  rw [required, grouped.requires_iff]
  refine ⟨Iff.mp, fun h => ⟨h, ?_⟩⟩
  rintro ⟨entry, he, -, needed⟩
  exact ⟨entry, he, needed⟩

/-- An operation with two required parameters, of which one has no group. -/
def partlyGrouped : Document :=
  .ofJson (.object [
    ("openapi", .string "3.0.0"),
    ("paths", .object [("/pets", .object [("get", .object [("parameters", .array [
      .object [("name", .string "a"), ("in", .string "matrix"), ("required", .bool true)],
      .object [("name", .string "b"), ("in", .string "query"), ("required", .bool true)]])])])])])

theorem assemble_optionality_partlyGrouped :
    ∃ assembly declaration,
      assemble (indexOf partlyGrouped .openApi3 false) .openApi3 false = .ok assembly ∧
      declaration ∈ assembly.declarations ∧
      heading declaration = (⟨["paths", "/pets", "get", "parameters"]⟩, .operationParameters) ∧
      parametersMember? assembly.declarations "/pets" "get" = some (.ref declaration.name, false) ∧
      declaration.type.requires = true ∧
      ¬Inhabits assembly.declarations declaration.type (.object []) := by
  have computed : (assemble (indexOf partlyGrouped .openApi3 false) .openApi3 false).toOption.map
      (·.declarations.map heading) = some [
        (⟨["paths", "/pets", "get", "parameters"]⟩, .operationParameters),
        (⟨["paths"]⟩, .apiWrapper)] := by
    decide +kernel
  have places : (operationsAt (indexOf partlyGrouped .openApi3 false) false).map (·.place) =
      [⟨["paths", "/pets", "get"]⟩] := by
    decide +kernel
  have needed : ∃ entry ∈ Operation.lastParameters (indexOf partlyGrouped .openApi3 false)
      ⟨["paths", "/pets", "get"]⟩, entry.isGrouped = true ∧ entry.required = true := by
    decide +kernel
  obtain ⟨assembly, he, headings⟩ := ok_of_computed computed
  obtain ⟨declaration, hd, placed⟩ := List.mem_map.1 (headings ▸ List.mem_cons_self)
  obtain ⟨⟨_, node⟩, hm, rfl⟩ := List.mem_map.1 (places ▸ List.mem_cons_self)
  obtain ⟨path, method, isOptional, same, member, ofWrapper, ofType, empty, -⟩ :=
    assemble_optionality he hm hd placed
  cases same
  have required : isOptional = false := ofWrapper.2 (needed.imp fun _ h => ⟨h.1, h.2.2⟩)
  have requires := ofType.2 needed
  refine ⟨assembly, declaration, he, hd, placed, required ▸ member, requires, fun inhabits => ?_⟩
  cases requires.symm.trans (empty.1 inhabits)

/-- An operation whose only parameter is required and has no group. -/
def ungrouped : Document :=
  .ofJson (.object [
    ("openapi", .string "3.0.0"),
    ("paths", .object [("/pets", .object [("get", .object [("parameters", .array [
      .object [("name", .string "a"), ("in", .string "matrix"), ("required", .bool true)]])])])])])

/-- The wrapper asks for the parameters although the empty object is of their type. -/
theorem assemble_requires_empty :
    ∃ assembly declaration,
      assemble (indexOf ungrouped .openApi3 false) .openApi3 false = .ok assembly ∧
      declaration ∈ assembly.declarations ∧
      heading declaration = (⟨["paths", "/pets", "get", "parameters"]⟩, .operationParameters) ∧
      (parametersMember? assembly.declarations "/pets" "get").map (·.2) = some false ∧
      declaration.type.requires = false ∧
      Inhabits assembly.declarations declaration.type (.object []) := by
  have computed : (assemble (indexOf ungrouped .openApi3 false) .openApi3 false).toOption.map
      (fun assembly => (assembly.declarations.map fun declaration =>
        (heading declaration, declaration.type.members?.isSome, declaration.type.requires),
        (parametersMember? assembly.declarations "/pets" "get").map (·.2))) = some ([
          ((⟨["paths", "/pets", "get", "parameters"]⟩, .operationParameters), true, false),
          ((⟨["paths"]⟩, .apiWrapper), true, true)], some false) := by
    decide +kernel
  obtain ⟨assembly, he, same⟩ := ok_of_computed computed
  obtain ⟨made, member⟩ := Prod.mk.inj same
  obtain ⟨declaration, hd, placed⟩ := List.mem_map.1 (made ▸ List.mem_cons_self)
  obtain ⟨placed, described⟩ := Prod.mk.inj placed
  obtain ⟨isObject, none⟩ := Prod.mk.inj described
  obtain ⟨members, ofObject⟩ := Option.isSome_iff_exists.1 isObject
  have empty : Inhabits assembly.declarations declaration.type (.object []) := by
    rw [members?_eq_some.1 ofObject] at none ⊢
    exact inhabits_empty_iff.2 none
  exact ⟨assembly, declaration, he, hd, placed, member, none, empty⟩

end Api

end ApiTypes
