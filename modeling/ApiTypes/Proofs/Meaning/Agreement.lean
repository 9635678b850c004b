import ApiTypes.Proofs.Meaning.Covered
import ApiTypes.Proofs.Meaning.Null
import ApiTypes.Proofs.Typing.Recorded
import ApiTypes.Proofs.TypeExpr.WellFormed

/-!
# Order of use and meaning

The first use of an inline target repeats its type and later uses may name it instead, so the same
schema can get different types at different places. They have the same values all the same, with
one exception. Whether null is already among the alternatives of a nullable choice is read off
their types, and a name does not show what it stands for: a choice that has null only by way of a
reference becomes `unknown` where the target is repeated, and keeps its alternatives where the
target is named (`assemble_disagrees`).

* `nodeTyped_covered`: two types made of one schema cover each other, where every choice that
  became `unknown` has an alternative that shows null by itself (`NullShown`). The induction is on
  how many types were recorded when the first of the two was made and, for these, on the schema;
* `assemble_agrees`: so the types declared for equal entries have the same values.
-/

namespace ApiTypes.Meaning

open Api Typing Schema TypeExpr

/-! ## One schema -/

section
variable {index : Index} {state : State} {declarations : List Declaration}

/-- Of a place that a reference leads to, every type that the reference may get has the values of
a type made of what stands there. -/
theorem TargetTyped.made (meant : Meant index state declarations) {target : Pointer}
    {node : Json} {type : TypeExpr} (stands : index.get? target = some node)
    (h : TargetTyped state target type) :
    ∃ place made, NodeTyped index state node place made ∧
      ∀ value, Inhabits declarations made value → Inhabits declarations type value := by
  rcases h with ⟨name, hname, rfl⟩ | recorded
  · obtain ⟨declaration, hd, rfl, found, hf, typed⟩ := meant.named _ _ hname
    rw [stands] at hf
    cases hf
    exact ⟨_, _, typed, fun value inside => .ref hd inside⟩
  · obtain ⟨found, hf, typed⟩ := meant.expanded _ recorded
    rw [stands] at hf
    cases hf
    exact ⟨_, _, typed, fun value inside => inside⟩

theorem nullTyped_covered {meaning : String → Json → Prop} {left right : State} {node : Json}
    {place place' : Pointer} {bare bare' type type' : TypeExpr} {choice choice' : Bool}
    (h : NullTyped left node place bare choice type)
    (h' : NullTyped right node place' bare' choice' type')
    (covered : Covered meaning declarations bare bare')
    (settled : ⟨.ambiguousShape, some place, alreadyNull⟩ ∈ left.warnings → choice' = true) :
    Covered meaning declarations type type' := by
  unfold NullTyped at h h'
  by_cases nullable : isNullable node = true
  · rw [if_pos nullable] at h h'
    cases choice' with
    | true => exact covered_noted type h'
    | false =>
      cases choice with
      | true => exact absurd (settled h.2) (by simp)
      | false =>
        rw [show type = _ from h, show type' = _ from h']
        exact covered_unionOf (.cons covered (.cons (covered_literal .null) .nil))
  · rw [if_neg nullable] at h h'
    rw [h, h']
    exact covered

/-- The values that all types have that are made of the schema under a name. -/
def CommonValue (index : Index) (state : State) (declarations : List Declaration) (name : String)
    (value : Json) : Prop :=
  ∀ target node place type, state.names.get? target = some name →
    index.get? target = some node → NodeTyped index state node place type →
    Inhabits declarations type value

variable (meant : Meant index state declarations) (ordered : state.Ordered index)
  (shown : ∀ place node, ⟨.ambiguousShape, some place, alreadyNull⟩ ∈ state.warnings →
    index.get? place = some node → NullShown node)
include meant ordered shown

/-- Of one schema: what is of a type made when `count` types were recorded is of every type made of
it, where names stand for what all types under them have. -/
theorem nodeTyped_covered (count : Nat) (node : Json) {place place' : Pointer}
    {type type' : TypeExpr} (stands : index.get? place = some node)
    (h : NodeTyped index (state.upTo count) node place type)
    (h' : NodeTyped index state node place' type') :
    Covered (CommonValue index state declarations) declarations type type' := by
  obtain ⟨bare, choice, made, null⟩ := nodeTyped_iff.1 h
  obtain ⟨bare', choice', made', null'⟩ := nodeTyped_iff.1 h'
  refine nullTyped_covered null null' ?_ ?_
  · refine shapeTyped_covered ?_ made made' (shape_stands stands) ?_
    · intro i p p' t t' standing typed typed'
      exact nodeTyped_covered count i.node standing typed typed'
    · rintro reference ⟨target, leads, typed⟩ ⟨target', leads', typed'⟩
      rw [leads] at leads'
      cases leads'
      obtain ⟨p, t, other, values⟩ := TargetTyped.made meant target.found typed'
      intro value inside
      apply values
      rcases typed with ⟨name, hname, rfl⟩ | recorded
      · cases inside with
        | ref common => exact common _ _ _ _ hname target.found other
      · -- the target's type was made when fewer types were recorded
        obtain ⟨fewer, less, found, hf, earlier⟩ := ordered.of_mem recorded
        rw [target.found] at hf
        cases hf
        exact nodeTyped_covered fewer target.node target.found earlier other value inside
  · intro warned
    exact choiceHasNull_of_shown (shown place node warned stands) made'
termination_by (count, sizeOf node)
decreasing_by
  · exact .right _ i.smaller
  · exact .left _ _ less

end

/-! ## Equal entries -/

section
variable {index : Index} {dialect : Dialect} {candidates : List Candidate} {state : State}
  {declared promoted : List Declaration}
  (h : Assembled index dialect true candidates state declared promoted)
include h

/-- A name is given to the place of the declaration that has it. -/
theorem place_of_name {declaration : Declaration} (hm : declaration ∈ declared ++ promoted)
    {place : Pointer} (named : state.names.get? place = some declaration.name) :
    declaration.pointer = place := by
  have entry : (declaration.pointer, declaration.name) ∈ state.names.entries := by
    rw [← h.names_eq]
    exact List.mem_map_of_mem (f := nameEntry) hm
  exact h.valid.names.place_unique (h.valid.names.get?_of_mem entry) named

/-- Types made of one schema have the same values. -/
theorem inhabits_of_same_node
    (shown : ∀ place node, ⟨.ambiguousShape, some place, alreadyNull⟩ ∈ state.warnings →
      index.get? place = some node → NullShown node)
    {node : Json} {place place' : Pointer} {type type' : TypeExpr}
    (stands : index.get? place = some node) (typed : NodeTyped index state node place type)
    (typed' : NodeTyped index state node place' type') {value : Json}
    (inside : Inhabits (declared ++ promoted) type value) :
    Inhabits (declared ++ promoted) type' value := by
  obtain ⟨names, -, run⟩ := h.run
  have ordered := run_ordered run (ordered_start index names)
  have covered {node : Json} {place place' : Pointer} {type type' : TypeExpr}
      (stands : index.get? place = some node) (typed : NodeTyped index state node place type)
      (typed' : NodeTyped index state node place' type') :
      Covered (CommonValue index state (declared ++ promoted)) (declared ++ promoted) type type' := by
    rw [← State.upTo_length state] at typed
    exact nodeTyped_covered (assembled_meant h) ordered shown _ node stands typed typed'
  apply covered stands typed typed'
  refine interpreted_of_inhabits ?_ inside
  -- what is of a declared type is of every type made of the schema that stands at its place
  intro declaration hm value inside target found p t named hf ht
  obtain ⟨made, hn, hd⟩ := declaration_typed h hm
  rw [place_of_name h hm named, hf] at hn
  cases hn
  exact covered hf (place_of_name h hm named ▸ hd) ht value inside

end

/-- Of a bare map of schemas that assembles: two entries with equal schemas have declarations, and
these have the same values, if every choice that became `unknown` for null shows null by itself. -/
theorem assemble_agrees {document : Document} {dialect : Dialect} {assembly : Assembly}
    (h : assemble (indexOf document dialect true) dialect true = .ok assembly)
    (shown : ∀ place node, ⟨.ambiguousShape, some place, alreadyNull⟩ ∈ assembly.warnings →
      (indexOf document dialect true).get? place = some node → NullShown node)
    {key key' : String} {schema : Json} (entry : document.root.get? key = some schema)
    (entry' : document.root.get? key' = some schema) :
    (∃ declaration ∈ assembly.declarations, declaration.pointer = ⟨[key]⟩) ∧
    (∃ declaration ∈ assembly.declarations, declaration.pointer = ⟨[key']⟩) ∧
    ∀ declaration ∈ assembly.declarations, declaration.pointer = ⟨[key]⟩ →
      ∀ declaration' ∈ assembly.declarations, declaration'.pointer = ⟨[key']⟩ →
        ∀ value, Inhabits assembly.declarations declaration.type value ↔
          Inhabits assembly.declarations declaration'.type value := by
  have stands : (indexOf document dialect true).get? ⟨[key]⟩ = some schema :=
    Index.get?_key (Index.get?_root _) entry
  have stands' : (indexOf document dialect true).get? ⟨[key']⟩ = some schema :=
    Index.get?_key (Index.get?_root _) entry'
  obtain ⟨_, _, declared, promoted, state, -, -, assembled, rfl⟩ := assemble_runs h
  refine ⟨exists_declaration assembled rfl stands, exists_declaration assembled rfl stands', ?_⟩
  intro declaration hm place declaration' hm' place' value
  obtain ⟨node, hn, typed⟩ := declaration_typed assembled hm
  obtain ⟨node', hn', typed'⟩ := declaration_typed assembled hm'
  rw [place, stands] at hn
  rw [place', stands'] at hn'
  cases hn
  cases hn'
  constructor
  · exact inhabits_of_same_node assembled shown (place ▸ stands) typed typed'
  · exact inhabits_of_same_node assembled shown (place' ▸ stands') typed' typed

/-- A choice between null and something else, that is nullable besides. -/
def markSchema : Json :=
  .object [("nullable", .bool true),
    ("oneOf", .array [.object [("type", .string "null")],
      .object [("$ref", .string "#/definitions/Span/properties/point")]])]

theorem nullShown_markSchema : NullShown markSchema :=
  ⟨composition markSchema, none, _, _, rfl, .inl rfl, List.mem_cons_self, .named rfl⟩

/-- Two entries that refer to the same part of a third. -/
def sharedSchemas : Document :=
  .ofJson (.object [
    ("Start", .object [("$ref", .string "#/definitions/Span/properties/point")]),
    ("End", .object [("$ref", .string "#/definitions/Span/properties/point")]),
    ("Span", .object [("properties", .object [
      ("point", .object [("properties", .object [
        ("time", .object [("type", .string "string")])])])])]),
    ("Mark", markSchema)])

theorem assemble_agrees_sharedSchemas :
    ∃ assembly, assemble (indexOf sharedSchemas .swagger2 true) .swagger2 true = .ok assembly ∧
      ∃ start ∈ assembly.declarations, start.pointer = ⟨["Start"]⟩ ∧
        ∃ finish ∈ assembly.declarations, finish.pointer = ⟨["End"]⟩ ∧
          start.type.same finish.type = false ∧
          ∀ value, Inhabits assembly.declarations start.type value ↔
            Inhabits assembly.declarations finish.type value := by
  have computed : (assemble (indexOf sharedSchemas .swagger2 true) .swagger2 true).toOption.map
      (fun assembly => (assembly.warnings,
        assembly.declarations.all fun start => assembly.declarations.all fun finish =>
          start.pointer != ⟨["Start"]⟩ || finish.pointer != ⟨["End"]⟩ ||
            !start.type.same finish.type)) =
      some ([⟨.ambiguousShape, some ⟨["Mark"]⟩, alreadyNull⟩], true) := by
    decide +kernel
  cases he : assemble (indexOf sharedSchemas .swagger2 true) .swagger2 true with
  | error error =>
    rw [he] at computed
    cases computed
  | ok assembly =>
    rw [he] at computed
    obtain ⟨warnings, differ⟩ := Prod.mk.inj (Option.some.inj computed)
    have shown : ∀ place node, ⟨.ambiguousShape, some place, alreadyNull⟩ ∈ assembly.warnings →
        (indexOf sharedSchemas .swagger2 true).get? place = some node → NullShown node := by
      intro place node warned stands
      rw [warnings] at warned
      cases List.mem_singleton.1 warned
      have mark : sharedSchemas.root.get? "Mark" = some markSchema := rfl
      have found := Index.get?_key (Index.get?_root (indexOf sharedSchemas .swagger2 true)) mark
      cases found.symm.trans stands
      exact nullShown_markSchema
    have entry : sharedSchemas.root.get? "Start" =
        some (.object [("$ref", .string "#/definitions/Span/properties/point")]) := rfl
    have entry' : sharedSchemas.root.get? "End" =
        some (.object [("$ref", .string "#/definitions/Span/properties/point")]) := rfl
    obtain ⟨⟨start, hs, start_at⟩, ⟨finish, hf, finish_at⟩, agree⟩ :=
      assemble_agrees he shown entry entry'
    refine ⟨assembly, rfl, start, hs, start_at, finish, hf, finish_at, ?_,
      agree start hs start_at finish hf finish_at⟩
    have pair := List.all_eq_true.1 (List.all_eq_true.1 differ start hs) finish hf
    simpa [start_at, finish_at] using pair

/-! ## Null by way of a reference -/

/-- Two equal choices that have null by way of a reference to a part of a third entry. -/
def spanSchemas : Document :=
  let choice : Json := .object [("nullable", .bool true),
    ("oneOf", .array [.object [("$ref", .string "#/definitions/Span/properties/time")]])]
  .ofJson (.object [
    ("Start", choice),
    ("End", choice),
    ("Span", .object [("type", .string "object"), ("properties", .object [
      ("time", .object [("type", .string "string"), ("nullable", .bool true)])])])])

/-- Of two equal entries, the one that comes first admits every value and the other does not. -/
theorem assemble_disagrees :
    ∃ assembly, assemble (indexOf spanSchemas .swagger2 true) .swagger2 true = .ok assembly ∧
      spanSchemas.root.get? "Start" = spanSchemas.root.get? "End" ∧
      ∃ start ∈ assembly.declarations, start.pointer = ⟨["Start"]⟩ ∧
        ∃ finish ∈ assembly.declarations, finish.pointer = ⟨["End"]⟩ ∧
          Inhabits assembly.declarations start.type (.bool true) ∧
          ¬Inhabits assembly.declarations finish.type (.bool true) := by
  have computed : (assemble (indexOf spanSchemas .swagger2 true) .swagger2 true).toOption.map
      (fun assembly => (assembly.declarations.map fun declaration =>
          (declaration.name, declaration.pointer),
        sameTypes
          [.unknown (some alreadyNull), .union [.ref "Time", .null],
            .object [.plain "time" (.union [.string, .null]) true], .union [.string, .null]]
          (assembly.declarations.map (·.type)))) =
      some ([("Start", ⟨["Start"]⟩), ("End", ⟨["End"]⟩), ("Span", ⟨["Span"]⟩),
        ("Time", ⟨["Span", "properties", "time"]⟩)], true) := by
    decide +kernel
  cases he : assemble (indexOf spanSchemas .swagger2 true) .swagger2 true with
  | error error =>
    rw [he] at computed
    cases computed
  | ok assembly =>
    rw [he] at computed
    obtain ⟨places, types⟩ := Prod.mk.inj (Option.some.inj computed)
    obtain ⟨start, rest, declarations, start_is, places⟩ := List.map_eq_cons_iff.1 places
    obtain ⟨finish, rest, rfl, finish_is, places⟩ := List.map_eq_cons_iff.1 places
    obtain ⟨span, rest, rfl, span_is, places⟩ := List.map_eq_cons_iff.1 places
    obtain ⟨time, rest, rfl, time_is, places⟩ := List.map_eq_cons_iff.1 places
    cases List.map_eq_nil_iff.1 places
    rw [declarations] at types
    simp only [List.map_cons, sameTypes, Bool.and_eq_true] at types
    obtain ⟨start_type, finish_type, -, time_type, -⟩ := types
    have only_time : ∀ declaration ∈ assembly.declarations, declaration.name = "Time" →
        declaration = time := by
      intro declaration hm name
      rw [declarations] at hm
      simp only [List.mem_cons, List.not_mem_nil, or_false] at hm
      rcases hm with rfl | rfl | rfl | rfl
      · exact absurd (name.symm.trans (congrArg Prod.fst start_is)) (by decide)
      · exact absurd (name.symm.trans (congrArg Prod.fst finish_is)) (by decide)
      · exact absurd (name.symm.trans (congrArg Prod.fst span_is)) (by decide)
      · rfl
    refine ⟨assembly, rfl, rfl, start, ?_, congrArg Prod.snd start_is, finish, ?_,
      congrArg Prod.snd finish_is, ?_, ?_⟩
    · simp [declarations]
    · simp [declarations]
    · rw [same_comm] at start_type
      exact inhabits_of_same start_type (.unknown _ _)
    · intro inside
      have inside := inhabits_of_same finish_type inside
      cases inside with
      | union member inside =>
        rcases List.mem_pair.1 member with rfl | rfl
        · obtain ⟨declaration, hm, name, inside⟩ := exists_of_ref inside
          rw [only_time declaration hm name] at inside
          have inside := inhabits_of_same time_type inside
          cases inside with
          | union member inside =>
            rcases List.mem_pair.1 member with rfl | rfl
            · cases inside
            · cases inside
        · cases inside

end ApiTypes.Meaning
