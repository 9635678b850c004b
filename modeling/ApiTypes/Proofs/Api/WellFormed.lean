import ApiTypes.Compile
import ApiTypes.Proofs.Api.Closure
import ApiTypes.Proofs.Api.Collected
import ApiTypes.Proofs.TypeExpr.WellFormed

/-!
# Declared types are well-formed

* `wellFormed_preserved`: every way of building a type makes well-formed types of well-formed ones;
* `wellFormed_wrapper`: the wrapper gives each path once, each method of a path once and each status
  of an operation once;
* `assemble_wellFormed`: so everything that occurs in a declared type is formed as it should be.
-/

namespace ApiTypes.Api

open Typing TypeExpr

/-! ## Types of schemas -/

theorem wellFormed_ofLiteral {state : State} {place : Pointer} {value : Json} {type : TypeExpr}
    (h : LiteralTyped state place value type) : WellFormed type := by
  unfold LiteralTyped at h
  split at h
  case h_1 => exact h ▸ wellFormed_literal .null
  case h_6 | h_7 => exact h.1 ▸ wellFormed_unknown _
  all_goals exact h ▸ wellFormed_literal _

theorem wellFormedProperty_of {key : String} {member : Member}
    (h : PropertyWith WellFormed key member) : WellFormedProperty key member := by
  obtain ⟨type, _, _, _, rfl, formed, -⟩ := h
  constructor
  · rfl
  · intro t ht
    exact List.mem_singleton.1 ht ▸ formed

theorem wellFormed_preserved (index : Index) (state : State) :
    Preserved index state WellFormed where
  scalar kind := by
    cases kind with
    | null => exact wellFormed_literal .null
    | _ => exact wellFormed_primitive _
  unknown := wellFormed_unknown none
  never := wellFormed_primitive .never
  undefined := wellFormed_primitive .undefined
  noted note _ := wellFormed_unknown (some note)
  value _ _ _ _ _ _ h := wellFormed_ofLiteral h
  named _ name _ := wellFormed_ref name
  array _ h := wellFormed_array h
  union _ h := wellFormed_unionOf h
  intersection _ h := wellFormed_intersectionOf h
  tagged property tag type h := by
    -- This intersection is not taken apart, but it is of two types whatever they are.
    have tagging : WellFormed
        (.object [Member.plain property (.literal (.string tag)) false]) := by
      have tag : WellFormedProperty property
          (Member.plain property (.literal (.string tag)) false) :=
        wellFormedProperty_plain false (wellFormed_literal _)
      exact wellFormed_properties (by simp) (.cons tag .nil)
    apply wellFormed_intersection (by simp)
    intro part hm
    rcases List.mem_pair.1 hm with rfl | rfl
    · exact tagging
    · exact h
  object _ _ signature distinct hprops hsig :=
    wellFormed_object distinct (hprops.imp fun _ _ => wellFormedProperty_of) signature hsig

/-! ## The wrapper -/

theorem pathsOf_nodup (operations : List Operation) : (pathsOf operations).Nodup := by
  have keeps (operations : List Operation) (paths : List String) (h : paths.Nodup) :
      (operations.foldl (fun paths operation =>
        if paths.contains operation.path then paths else paths ++ [operation.path])
        paths).Nodup := by
    induction operations generalizing paths with
    | nil => exact h
    | cons operation rest ih =>
      apply ih
      dsimp only
      split
      · exact h
      · rename_i new
        have new : operation.path ∉ paths := by simpa using new
        apply List.nodup_append.2
        refine ⟨h, List.pairwise_singleton _ _, ?_⟩
        intro path hp other ho same
        exact new (List.mem_singleton.1 ho ▸ same ▸ hp)
  exact keeps operations [] .nil

theorem wellFormed_responses {responses : List Response}
    (distinct : (responses.map (·.status)).Nodup) :
    WellFormed (.object (responses.map fun response =>
      Member.plain response.status (.ref response.name) false)) := by
  apply wellFormed_properties distinct
  rw [List.forall₂_map_left_iff, List.forall₂_map_right_iff, List.forall₂_same]
  intro response _
  exact wellFormedProperty_plain false (wellFormed_ref response.name)

theorem wellFormed_operationMembers {operation : Operation}
    (distinct : (operation.responses.map (·.status)).Nodup) :
    WellFormed (.object (operationMembers operation)) := by
  have responses : WellFormedProperty "responses" (Member.plain "responses"
      (.object (operation.responses.map fun response =>
        Member.plain response.status (.ref response.name) false)) false) :=
    wellFormedProperty_plain false (wellFormed_responses distinct)
  have reference (key name : String) (isOptional : Bool) :
      WellFormedProperty key (Member.plain key (.ref name) isOptional) :=
    wellFormedProperty_plain isOptional (wellFormed_ref name)
  unfold operationMembers
  cases operation.parametersNamed with
  | none =>
    cases operation.body with
    | none =>
      exact wellFormed_properties (by decide) (.cons responses .nil)
    | some body =>
      exact wellFormed_properties (by decide) (.cons (reference _ _ _) (.cons responses .nil))
  | some parameters =>
    cases operation.body with
    | none =>
      exact wellFormed_properties (by decide) (.cons (reference _ _ _) (.cons responses .nil))
    | some body =>
      exact wellFormed_properties (by decide)
        (.cons (reference _ _ _) (.cons (reference _ _ _) (.cons responses .nil)))

section
variable {operations : List Operation}

/-- The methods of one path are distinct, as no two operations have path and method in common. -/
theorem methods_nodup (distinct : (operations.map Operation.key).Nodup) (path : String) :
    ((operations.filter fun operation => operation.path == path).map (·.method)).Nodup := by
  rw [List.Nodup, List.pairwise_map] at distinct ⊢
  have kept := distinct.filter fun operation => operation.path == path
  apply kept.imp_of_mem
  intro a b ha hb differ same
  have pa : a.path = path := by simpa using (List.mem_filter.1 ha).2
  have pb : b.path = path := by simpa using (List.mem_filter.1 hb).2
  exact differ (Prod.ext (pa.trans pb.symm) same)

theorem wellFormed_pathMember (distinct : (operations.map Operation.key).Nodup)
    (statuses : ∀ operation ∈ operations, (operation.responses.map (·.status)).Nodup)
    (path : String) : WellFormedProperty path (pathMember operations path) := by
  apply wellFormedProperty_plain
  apply wellFormed_properties (methods_nodup distinct path)
  rw [List.forall₂_map_left_iff, List.forall₂_map_right_iff, List.forall₂_same]
  intro operation hm
  constructor
  · rfl
  · intro type ht
    rw [List.mem_singleton.1 ht]
    exact wellFormed_operationMembers (statuses operation (List.mem_filter.1 hm).1)

theorem wellFormed_wrapper (distinct : (operations.map Operation.key).Nodup)
    (statuses : ∀ operation ∈ operations, (operation.responses.map (·.status)).Nodup) :
    WellFormed (wrapper operations).type := by
  apply wellFormed_properties (pathsOf_nodup operations)
  rw [List.forall₂_map_right_iff, List.forall₂_same]
  intro path _
  exact wellFormed_pathMember distinct statuses path

end

/-! ## Assembly -/

theorem Assembled.wellFormed {index : Index} {dialect : Dialect} {rawSchema : Bool}
    {candidates : List Candidate} {state : State} {declared promoted : List Declaration}
    (h : Assembled index dialect rawSchema candidates state declared promoted) :
    ∀ declaration ∈ withWrapper rawSchema candidates (declared ++ promoted),
      WellFormed declaration.type := by
  have typed := h.preserved (P := fun _ => WellFormed) (fun _ _ _ _ formed => formed)
    fun state _ => wellFormed_preserved index state
  intro declaration hm
  unfold withWrapper at hm
  split at hm
  · exact (typed declaration hm).1
  · rcases List.mem_append.1 hm with hm | hm
    · exact (typed declaration hm).1
    · obtain ⟨names, collected⟩ := h.collected
      rw [List.mem_singleton.1 hm]
      apply wellFormed_wrapper (operations_distinct collected)
      intro operation ho
      apply statuses_distinct _ collected (mem_operationsOf ho)
      intro location hl
      exact index.get?_of_mem_locations hl

/-- Whatever occurs in a declared type, at any depth, is formed as it should be: a union is of two
types or more, all different and none a union; an intersection is of two types or more; an object
gives no property twice, and at most one index signature, last of all. -/
theorem assemble_wellFormed {index : Index} {dialect : Dialect} {rawSchema : Bool}
    {assembly : Assembly} (h : assemble index dialect rawSchema = .ok assembly) :
    ∀ declaration ∈ assembly.declarations, ∀ type, Occurs type declaration.type →
      type.Formed := by
  obtain ⟨_, _, declared, promoted, state, -, -, assembled, rfl⟩ := assemble_runs h
  intro declaration hm
  exact assembled.wellFormed declaration hm

/-- Two paths, of which one has two methods, and schemas that bring a union inside a nullable one
and an intersection of intersections. -/
def nestedParts : Document :=
  .ofJson (.object [
    ("swagger", .string "2.0"),
    ("paths", .object [
      ("/pets", .object [
        ("get", .object [("responses", .object [
          ("200", .object [("schema", .object [("$ref", .string "#/definitions/Pet")])]),
          ("404", .object [("description", .string "none")])])]),
        ("post", .object [
          ("parameters", .array [.object [("name", .string "pet"), ("in", .string "body"),
            ("schema", .object [("$ref", .string "#/definitions/Pet")])]]),
          ("responses", .object [])])]),
      ("/pets/{id}", .object [("get", .object [
        ("parameters", .array [.object [("name", .string "id"), ("in", .string "path"),
          ("type", .string "string")]]),
        ("responses", .object [])])])]),
    ("definitions", .object [
      ("Pet", .object [
        ("type", .string "object"),
        ("properties", .object [
          ("kind", .object [("x-nullable", .bool true),
            ("enum", .array [.string "cat", .string "dog", .string "cat"])]),
          ("owner", .object [("allOf", .array [
            .object [("allOf", .array [.object [("type", .string "string")], .object []])],
            .object [("$ref", .string "#/definitions/Pet")]])])]),
        ("additionalProperties", .object [("type", .string "boolean")])])])])

theorem assemble_wellFormed_nestedParts :
    ∃ assembly, assemble (indexOf nestedParts .swagger2 false) .swagger2 false = .ok assembly ∧
      ∀ declaration ∈ assembly.declarations, ∀ type, Occurs type declaration.type →
        type.Formed := by
  have succeeds : (assemble (indexOf nestedParts .swagger2 false) .swagger2 false).isOk = true := by
    decide +kernel
  cases he : assemble (indexOf nestedParts .swagger2 false) .swagger2 false with
  | error error =>
    rw [he] at succeeds
    cases succeeds
  | ok assembly => exact ⟨assembly, rfl, assemble_wellFormed he⟩

end ApiTypes.Api
