import ApiTypes.Compile
import ApiTypes.Proofs.Meaning.Inhabits
import ApiTypes.Proofs.TypeExpr.WellFormed
import ApiTypes.Proofs.Typing.Returns
import ApiTypes.Proofs.Typing.SameShape

/-!
# Choices told apart by a mapping

A discriminator names a property, and its mapping says which values of it mean which member of the
choice. A key of the mapping leads to a member that is a reference, when the key's target is that
reference or the name of its schema (`LeadsTo`).

* `tagOf?_eq_some_iff`: a member is told apart by the first key that leads to it, and by none when
  none leads there (`standsFor_taggedType`);
* `inhabits_taggedType`: so an object that is of the member's own type and says this key stays in
  the choice;
* `typeAt_tellsApart`: so it is in the choices of a schema, whose members are typed in the states that
  typing the schema passes through.

A key that leads to the same schema after another is lost: what says it is of no member of the
choice (`sameTarget_lost`).
-/

namespace ApiTypes.Meaning

open Typing Schema TypeExpr

/-! ## Keys and members -/

/-- The target of a key is the schema under a reference: it is the reference as it is written, or
the name of the schema. -/
def LeadsTo (reference : String) (target : Json) : Prop :=
  target = .string reference ∨
    ∃ name, (Pointer.ofReference? reference).bind Pointer.last? = some name ∧ target = .string name

/-- The first key of a mapping that leads to the schema under a reference. -/
def FirstKey (reference : String) (mapping : List (String × Json)) (key : String) : Prop :=
  ∃ before target after, mapping = before ++ (key, target) :: after ∧ LeadsTo reference target ∧
    ∀ entry ∈ before, ¬LeadsTo reference entry.2

/-- No key of the mapping leads to the member, as of a member that is no reference. -/
def Unmapped (mapping : List (String × Json)) (schema : Json) : Prop :=
  ∀ reference, reference? schema = some reference → ∀ entry ∈ mapping, ¬LeadsTo reference entry.2

/-- What stands in a choice for a member: its type as it is, when no key leads to the member, and
its type with the first key, when one does. -/
structure StandsFor (property : String) (mapping : List (String × Json)) (schema : Json)
    (type alternative : TypeExpr) : Prop where
  untagged : Unmapped mapping schema → alternative = type
  tagged : ∀ reference name key, reference? schema = some reference →
    (Pointer.ofReference? reference).bind Pointer.last? = some name →
    FirstKey reference mapping key →
    alternative = .intersection [.object [.plain property (.literal (.string key)) false], type]

section
variable {reference name : String} (named : (Pointer.ofReference? reference).bind Pointer.last? =
  some name)
include named

theorem leadsTo_iff {target : Json} :
    (target.string? == some reference || target.string? == some name) = true ↔
      LeadsTo reference target := by
  have written (text : String) : target.string? = some text ↔ target = .string text := by
    cases target <;> simp [Json.string?]
  rw [Bool.or_eq_true, beq_iff_eq, beq_iff_eq, written, written]
  constructor
  · rintro (whole | short)
    · exact .inl whole
    · exact .inr ⟨name, named, short⟩
  · rintro (whole | ⟨other, same, short⟩)
    · exact .inl whole
    · rw [named] at same
      cases same
      exact .inr short

theorem tagOf?_eq_some_iff {mapping : List (String × Json)} {key : String} :
    tagOf? reference (some mapping) = some key ↔ FirstKey reference mapping key := by
  unfold tagOf? FirstKey
  rw [named, Option.bind_some]
  simp only [Option.map_eq_some_iff, List.find?_eq_some_iff_append, leadsTo_iff named]
  constructor
  · rintro ⟨⟨_, target⟩, ⟨leads, before, after, split, earlier⟩, rfl⟩
    refine ⟨before, target, after, split, leads, fun entry hm leads => ?_⟩
    have := earlier entry hm
    rw [(leadsTo_iff named).2 leads] at this
    cases this
  · rintro ⟨before, target, after, split, leads, earlier⟩
    refine ⟨(key, target), ⟨leads, before, after, split, fun entry hm => ?_⟩, rfl⟩
    rw [Bool.eq_false_iff.2 fun leads => earlier entry hm ((leadsTo_iff named).1 leads)]
    rfl

end

/-! ## Members of a choice -/

section
variable {property : String} {mapping : List (String × Json)} {schema : Json}

theorem taggedType_of_unmapped (h : Unmapped mapping schema) (type : TypeExpr) :
    taggedType property (some mapping) schema type = type := by
  have untold : (reference? schema).bind (tagOf? · (some mapping)) = none := by
    rw [Option.bind_eq_none_iff]
    intro reference refers
    rw [Option.eq_none_iff_forall_ne_some]
    intro key told
    obtain ⟨name, named, -⟩ := Option.bind_eq_some_iff.1 told
    obtain ⟨before, target, after, rfl, leads, -⟩ := (tagOf?_eq_some_iff named).1 told
    exact h reference refers (key, target) (by simp) leads
  unfold taggedType
  rw [untold]

/-- What the first key that leads to a member makes of its type. -/
theorem standsFor_taggedType (property : String) (mapping : List (String × Json)) (schema : Json)
    (type : TypeExpr) :
    StandsFor property mapping schema type (taggedType property (some mapping) schema type) where
  untagged := fun unmapped => taggedType_of_unmapped unmapped type
  tagged := by
    intro reference name key refers named first
    unfold taggedType
    rw [refers, Option.bind_some, (tagOf?_eq_some_iff named).2 first]

theorem eq_of_literalString {declarations : List Declaration} {text : String} {value : Json}
    (h : Inhabits declarations (.literal (.string text)) value) : value = .string text := by
  cases h
  rfl

/-- An object of a property with one value is told by it. -/
theorem inhabits_tag {declarations : List Declaration} {key : String}
    {fields : List (String × Json)} (distinct : (fields.map (·.1)).Nodup)
    (holds : (property, .string key) ∈ fields) :
    Inhabits declarations (.object [Member.plain property (.literal (.string key)) false])
      (.object fields) := by
  apply Inhabits.object
  · intro name type isOptional isReadonly doc hm part hp
    cases List.mem_singleton.1 hm
    have same := (lookup_of_mem distinct hp).symm.trans (lookup_of_mem distinct holds)
    rw [Option.some.inj same]
    exact .literalString key
  · intro name type isReadonly doc hm
    cases List.mem_singleton.1 hm
    exact List.mem_map_of_mem holds
  · intro key type hm
    cases List.mem_singleton.1 hm

/-- What is of a member's own type and says the first key that leads to it stays in the choice. -/
theorem inhabits_taggedType {declarations : List Declaration} {type : TypeExpr}
    {reference key : String} {fields : List (String × Json)}
    (refers : reference? schema = some reference) (first : FirstKey reference mapping key)
    (distinct : (fields.map (·.1)).Nodup) (holds : (property, .string key) ∈ fields)
    (inside : Inhabits declarations type (.object fields)) :
    Inhabits declarations (taggedType property (some mapping) schema type) (.object fields) := by
  unfold taggedType
  rw [refers, Option.bind_some]
  cases told : tagOf? reference (some mapping) with
  | none => exact inside
  | some tag =>
    obtain ⟨name, named, -⟩ := Option.bind_eq_some_iff.1 told
    have same : tag = key :=
      Option.some.inj (told.symm.trans ((tagOf?_eq_some_iff named).2 first))
    subst same
    apply Inhabits.intersection
    intro conjunct hm
    rcases List.mem_pair.1 hm with rfl | rfl
    · exact inhabits_tag distinct holds
    · exact inside

end

/-! ## Choices -/

/-- The choice is of the members listed at the place, typed in turn on the way from the state
`before` to the state `after`. An object of a member's own type is of the choice, when it says the
first key that leads to the member. -/
def TellsApart (index : Index) (path : List Pointer) (place : Pointer) (property : String)
    (mapping : List (String × Json)) (members : List Json) (before after : State)
    (choice : TypeExpr) : Prop :=
  ∃ types alternatives,
    InTurn (fun member => typeAt index path member.2 member.1) before (elementsAt place 0 members)
      types after ∧
    choice = .unionOf alternatives ∧
    List.Forall₂ (fun member alternative =>
      StandsFor property mapping member.1 member.2 alternative) (members.zip types) alternatives ∧
    ∀ schema type, (schema, type) ∈ members.zip types →
      ∀ reference key, reference? schema = some reference → FirstKey reference mapping key →
        ∀ declarations fields, (fields.map (·.1)).Nodup → (property, .string key) ∈ fields →
          Inhabits declarations type (.object fields) →
            Inhabits declarations choice (.object fields)

section
variable {index : Index} {path : List Pointer} {node : Json} {place : Pointer} {property : String}
  {mapping : List (String × Json)} {before after : State}

theorem choiceUnder_tellsApart {keyword : String} {members : List Json} {types : List TypeExpr}
    (told : discriminator? node = some (property, some mapping))
    (found : node.get? keyword = some (.array members))
    (h : Returns (choiceUnder (innerAt index path) place keyword (node.innerItems? keyword)) before
      types after) :
    ∃ choice, types = [choice] ∧
      TellsApart index path (place.child keyword) property mapping members before after choice := by
  have items : (node.get? keyword).bind Json.array? = some members := by
    rw [found]
    rfl
  obtain ⟨inners, some_inners, rfl⟩ := innerItems?_of_array items
  rw [some_inners] at h
  obtain ⟨types, turn, rfl⟩ := choiceUnder_returns h
  have alternatives := alternativesOf_eq told inners types
  refine ⟨_, rfl, types, _, turn, rfl, ?_, ?_⟩
  · rw [alternatives, List.forall₂_map_right_iff]
    apply List.forall₂_same.2
    intro member hm
    exact standsFor_taggedType property mapping member.1 member.2
  · intro schema type hm reference key refers first declarations fields distinct holds inside
    refine inhabits_unionOf ?_ (inhabits_taggedType refers first distinct holds inside)
    rw [alternatives]
    exact List.mem_map_of_mem hm

/-- What is of all parts of a composition is of its type, also when null is valid besides. -/
theorem inhabits_of_parts {composition : Composition (Inner node)}
    {base : Option (Base (Inner node))} {type : TypeExpr}
    (composite : shape node = .composite composition base)
    (h : Returns (typeAt index path node place) before type after) :
    ∃ parts between mid,
      ComposesBy (innerAt index path) composition base place before between parts mid ∧
      ∀ declarations value, (∀ part ∈ parts.types, Inhabits declarations part value) →
        Inhabits declarations type value := by
  obtain ⟨bare, choiceHasNull, mid, made, last⟩ := typeAt_returns_iff.1 h
  rw [composite] at made
  obtain ⟨parts, ⟨between, composes⟩, same⟩ := compositeType_returns_iff.1 made
  cases same
  refine ⟨parts, between, mid, composes, ?_⟩
  intro declarations value inside
  have whole := inhabits_intersectionOf inside
  rcases withNull_returns last with ⟨-, rfl, -⟩ | ⟨-, -, rfl, -⟩ | ⟨-, -, note, -, rfl, -⟩
  · exact whole
  · exact inhabits_unionOf List.mem_cons_self whole
  · exact .unknown _ _

/-- The choices of a schema with a mapping, made in the states that the schema's typing passes
through, tell their members apart by it, and with the other parts of the schema they make up its
type. -/
theorem typeAt_tellsApart {composition : Composition (Inner node)}
    {base : Option (Base (Inner node))} {type : TypeExpr}
    (told : discriminator? node = some (property, some mapping))
    (composite : shape node = .composite composition base)
    (h : Returns (typeAt index path node place) before type after) :
    ∃ parts between mid,
      ComposesBy (innerAt index path) composition base place before between parts mid ∧
      (∀ members, node.get? "oneOf" = some (.array members) →
        ∃ choice, parts.ofOne = [choice] ∧ TellsApart index path (place.child "oneOf") property
          mapping members between.all between.one choice) ∧
      (∀ members, node.get? "anyOf" = some (.array members) →
        ∃ choice, parts.ofAny = [choice] ∧ TellsApart index path (place.child "anyOf") property
          mapping members between.one between.any choice) ∧
      ∀ declarations value, (∀ part ∈ parts.types, Inhabits declarations part value) →
        Inhabits declarations type value := by
  obtain ⟨parts, between, mid, composes, whole⟩ := inhabits_of_parts composite h
  have read := shape_read node
  rw [composite] at read
  obtain ⟨rfl, -, -⟩ := read
  refine ⟨parts, between, mid, composes, ?_, ?_, whole⟩
  · intro members found
    exact choiceUnder_tellsApart told found composes.ofOne
  · intro members found
    exact choiceUnder_tellsApart told found composes.ofAny

end

/-- The mapping leads to one of three members by its reference and to one by its name. -/
def petChoice : Json :=
  .object [
    ("nullable", .bool true),
    ("oneOf", .array [
      .object [("$ref", .string "#/definitions/Dog")],
      .object [("$ref", .string "#/definitions/Cat")],
      .object [("$ref", .string "#/definitions/Fish")]]),
    ("discriminator", .object [
      ("propertyName", .string "kind"),
      ("mapping", .object [
        ("dog", .string "#/definitions/Dog"), ("cat", .string "Cat"), ("bird", .bool true)])])]

def petIndex : Index :=
  indexOf (.ofJson (.object [
    ("Pet", petChoice),
    ("Dog", .object [("type", .string "object")]),
    ("Cat", .object [("type", .string "object")]),
    ("Fish", .object [("type", .string "object")])])) .swagger2 true

def petNames : State :=
  { names := ⟨[(⟨["Dog"]⟩, "Dog"), (⟨["Cat"]⟩, "Cat"), (⟨["Fish"]⟩, "Fish")]⟩ }

/-- The fish is not told by its kind. -/
theorem typeAt_tellsApart_petChoice :
    ∃ mapping composition base type after,
      discriminator? petChoice = some ("kind", some mapping) ∧
      shape petChoice = .composite composition base ∧
      Returns (typeAt petIndex [] petChoice ⟨["Pet"]⟩) petNames type after ∧
      type.same (.union [
        .intersection [.object [.plain "kind" (.literal (.string "dog")) false], .ref "Dog"],
        .intersection [.object [.plain "kind" (.literal (.string "cat")) false], .ref "Cat"],
        .ref "Fish", .null]) = true ∧
      ∃ parts between mid,
        ComposesBy (innerAt petIndex []) composition base ⟨["Pet"]⟩ petNames between parts mid ∧
        (∀ members, petChoice.get? "oneOf" = some (.array members) →
          ∃ choice, parts.ofOne = [choice] ∧ TellsApart petIndex []
            (Pointer.child ⟨["Pet"]⟩ "oneOf") "kind" mapping members between.all between.one
            choice) ∧
        (∀ members, petChoice.get? "anyOf" = some (.array members) →
          ∃ choice, parts.ofAny = [choice] ∧ TellsApart petIndex []
            (Pointer.child ⟨["Pet"]⟩ "anyOf") "kind" mapping members between.one between.any
            choice) ∧
        ∀ declarations value, (∀ part ∈ parts.types, Inhabits declarations part value) →
          Inhabits declarations type value := by
  obtain ⟨mapping, told⟩ : ∃ mapping, discriminator? petChoice = some ("kind", some mapping) :=
    ⟨_, rfl⟩
  obtain ⟨composition, base, composite⟩ : ∃ composition base,
      shape petChoice = .composite composition base := ⟨_, _, rfl⟩
  obtain ⟨type, after, made, same⟩ := exists_returns
    (typeAt petIndex [] petChoice ⟨["Pet"]⟩) petNames
    (·.same (.union [
      .intersection [.object [.plain "kind" (.literal (.string "dog")) false], .ref "Dog"],
      .intersection [.object [.plain "kind" (.literal (.string "cat")) false], .ref "Cat"],
      .ref "Fish", .null])) (by decide +kernel)
  exact ⟨mapping, composition, base, type, after, told, composite, made, same,
    typeAt_tellsApart told composite made⟩

/-! ## Two keys of one schema -/

/-- Two keys of the mapping lead to the one member. -/
def houndSchemas : Document :=
  .ofJson (.object [
    ("Pet", .object [
      ("oneOf", .array [.object [("$ref", .string "#/definitions/Dog")]]),
      ("discriminator", .object [
        ("propertyName", .string "kind"),
        ("mapping", .object [
          ("dog", .string "#/definitions/Dog"), ("hound", .string "#/definitions/Dog")])])]),
    ("Dog", .object [("type", .string "object")])])

/-- A hound is a dog, and the mapping leads from its kind to the dog among the pets, but it is no
pet. -/
theorem sameTarget_lost :
    ∃ assembly, Api.assemble (indexOf houndSchemas .swagger2 true) .swagger2 true = .ok assembly ∧
      assembly.warnings = [] ∧
      ∃ pet ∈ assembly.declarations, pet.pointer = ⟨["Pet"]⟩ ∧
        (∃ node mapping, houndSchemas.root.get? "Pet" = some node ∧
          discriminator? node = some ("kind", some mapping) ∧
          node.get? "oneOf" = some (.array [.object [("$ref", .string "#/definitions/Dog")]]) ∧
          ("hound", .string "#/definitions/Dog") ∈ mapping) ∧
        Inhabits assembly.declarations (.ref "Dog") (.object [("kind", .string "hound")]) ∧
        ¬Inhabits assembly.declarations pet.type (.object [("kind", .string "hound")]) := by
  have computed : (Api.assemble (indexOf houndSchemas .swagger2 true) .swagger2 true).toOption.map
      (fun assembly => (assembly.warnings, assembly.declarations.map fun declaration =>
          (declaration.name, declaration.pointer),
        sameTypes
          [.intersection [.object [.plain "kind" (.literal (.string "dog")) false], .ref "Dog"],
            .object []]
          (assembly.declarations.map (·.type)))) =
      some ([], [("Pet", ⟨["Pet"]⟩), ("Dog", ⟨["Dog"]⟩)], true) := by
    decide +kernel
  cases he : Api.assemble (indexOf houndSchemas .swagger2 true) .swagger2 true with
  | error error =>
    rw [he] at computed
    cases computed
  | ok assembly =>
    rw [he] at computed
    obtain ⟨warnings, computed⟩ := Prod.mk.inj (Option.some.inj computed)
    obtain ⟨places, types⟩ := Prod.mk.inj computed
    obtain ⟨pet, rest, declarations, pet_is, places⟩ := List.map_eq_cons_iff.1 places
    obtain ⟨dog, rest, rfl, dog_is, places⟩ := List.map_eq_cons_iff.1 places
    cases List.map_eq_nil_iff.1 places
    rw [declarations] at types
    simp only [List.map_cons, sameTypes, Bool.and_eq_true] at types
    obtain ⟨pet_type, dog_type, -⟩ := types
    refine ⟨assembly, rfl, warnings, pet, ?_, congrArg Prod.snd pet_is,
      ⟨_, _, rfl, rfl, rfl, List.mem_cons_of_mem _ List.mem_cons_self⟩, ?_, ?_⟩
    · simp [declarations]
    · have name : dog.name = "Dog" := congrArg Prod.fst dog_is
      rw [← name]
      apply Inhabits.ref
      · simp [declarations]
      · rw [same_comm] at dog_type
        apply inhabits_of_same dog_type
        exact .object (by simp) (by simp) (by simp)
    · intro inside
      -- a pet says that it is a dog
      cases inhabits_of_same pet_type inside with
      | intersection inside =>
        cases inside _ List.mem_cons_self with
        | object properties =>
          have kind := properties "kind" _ _ _ _ (List.mem_singleton_self _) _
            (List.mem_singleton_self _)
          exact absurd (Json.string.inj (eq_of_literalString kind)) (by decide)

end ApiTypes.Meaning
