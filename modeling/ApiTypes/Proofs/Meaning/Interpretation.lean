import ApiTypes.Proofs.Meaning.Inhabits

/-!
# Types under a meaning of names

`Interpreted meaning type value` says that a value is of a type where a name stands for what
`meaning` says. `Inhabits` is the least that the declarations allow:

* `interpreted_of_inhabits`: every meaning that keeps to the declarations admits what they do;
* `inhabits_iff`: what is of a type is so because of the values its names stand for.

What the ways of building a type put together can be taken apart again
(`exists_of_unionOf`, `all_of_intersectionOf`). From that, types that cover each other part by
part (`Covered`) cover each other as wholes.
-/

namespace ApiTypes.Meaning

open TypeExpr

/-- A value is of a type, where names stand for the values that `meaning` says. -/
inductive Interpreted (meaning : String → Json → Prop) : TypeExpr → Json → Prop
  | string (value : String) : Interpreted meaning (.primitive .string) (.string value)
  | number (value : Number) : Interpreted meaning (.primitive .number) (.number value)
  | boolean (value : Bool) : Interpreted meaning (.primitive .boolean) (.bool value)
  | literalString (value : String) :
      Interpreted meaning (.literal (.string value)) (.string value)
  | literalBool (value : Bool) : Interpreted meaning (.literal (.bool value)) (.bool value)
  | literalNull : Interpreted meaning (.literal .null) .null
  | literalInt {literal : Int} {value : Number}
      (same : (Binary64.ofInt literal).same value.toBinary = true) :
      Interpreted meaning (.literal (.int literal)) (.number value)
  | literalNumber {literal : Binary64} {value : Number}
      (same : literal.same value.toBinary = true) :
      Interpreted meaning (.literal (.number literal)) (.number value)
  | array {item : TypeExpr} {parts : List Json}
      (inside : ∀ part ∈ parts, Interpreted meaning item part) :
      Interpreted meaning (.array item) (.array parts)
  | object {members : List Member} {fields : List (String × Json)}
      (properties : ∀ name type isOptional isReadonly doc,
        .property name type isOptional isReadonly doc ∈ members →
          ∀ part, (name, part) ∈ fields → Interpreted meaning type part)
      (required : ∀ name type isReadonly doc, .property name type false isReadonly doc ∈ members →
        name ∈ fields.map (·.1))
      (indexed : ∀ key type, .index key type ∈ members →
        ∀ field ∈ fields, Interpreted meaning type field.2) :
      Interpreted meaning (.object members) (.object fields)
  | union {types : List TypeExpr} {type : TypeExpr} {value : Json} (member : type ∈ types)
      (inside : Interpreted meaning type value) : Interpreted meaning (.union types) value
  | intersection {types : List TypeExpr} {value : Json}
      (inside : ∀ type ∈ types, Interpreted meaning type value) :
      Interpreted meaning (.intersection types) value
  | ref {name : String} {value : Json} (inside : meaning name value) :
      Interpreted meaning (.ref name) value
  | unknown (note : Option String) (value : Json) : Interpreted meaning (.unknown note) value

/-- What is of a type of the declarations is so under every meaning of names that keeps to them. -/
theorem interpreted_of_inhabits {declarations : List Declaration}
    {meaning : String → Json → Prop}
    (kept : ∀ declaration ∈ declarations, ∀ value, Interpreted meaning declaration.type value →
      meaning declaration.name value)
    {type : TypeExpr} {value : Json} (h : Inhabits declarations type value) :
    Interpreted meaning type value := by
  induction h with
  | string value => exact .string value
  | number value => exact .number value
  | boolean value => exact .boolean value
  | literalString value => exact .literalString value
  | literalBool value => exact .literalBool value
  | literalNull => exact .literalNull
  | literalInt same => exact .literalInt same
  | literalNumber same => exact .literalNumber same
  | array _ ih => exact .array ih
  | object _ required _ properties_ih indexed_ih =>
    exact .object properties_ih required indexed_ih
  | union member _ ih => exact .union member ih
  | intersection _ ih => exact .intersection ih
  | ref member _ ih => exact .ref (kept _ member _ ih)
  | unknown note value => exact .unknown note value

/-- A value is of a type exactly when it is so where names stand for the values of their types. -/
theorem inhabits_iff {declarations : List Declaration} {type : TypeExpr} {value : Json} :
    Inhabits declarations type value ↔
      Interpreted (fun name value => Inhabits declarations (.ref name) value) type value := by
  have unfolded {type : TypeExpr} {value : Json}
      (h : Interpreted (fun name value => Inhabits declarations (.ref name) value) type value) :
      Inhabits declarations type value := by
    induction h with
    | string value => exact .string value
    | number value => exact .number value
    | boolean value => exact .boolean value
    | literalString value => exact .literalString value
    | literalBool value => exact .literalBool value
    | literalNull => exact .literalNull
    | literalInt same => exact .literalInt same
    | literalNumber same => exact .literalNumber same
    | array _ ih => exact .array ih
    | object _ required _ properties_ih indexed_ih =>
      exact .object properties_ih required indexed_ih
    | union member _ ih => exact .union member ih
    | intersection _ ih => exact .intersection ih
    | ref inside => exact inside
    | unknown note value => exact .unknown note value
  constructor
  · apply interpreted_of_inhabits
    intro declaration member value h
    exact .ref member (unfolded h)
  · exact unfolded

section
variable {meaning : String → Json → Prop}

/-! ## Taking types apart -/

theorem exists_of_ofAlternatives {types : List TypeExpr} {value : Json}
    (h : Interpreted meaning (ofAlternatives types) value) :
    ∃ type ∈ types, Interpreted meaning type value := by
  unfold ofAlternatives at h
  split at h
  · cases h
  · exact ⟨_, List.mem_singleton_self _, h⟩
  · cases h with
    | union member inside => exact ⟨_, member, inside⟩

/-- What is of a union of types is of one of them. -/
theorem exists_of_unionOf {types : List TypeExpr} {value : Json}
    (h : Interpreted meaning (unionOf types) value) :
    ∃ type ∈ types, Interpreted meaning type value := by
  obtain ⟨t, ht, inside⟩ := exists_of_ofAlternatives h
  obtain ⟨type, hm, ha⟩ := List.mem_flatMap.1 (mem_of_mem_dedupe ht)
  refine ⟨type, hm, ?_⟩
  cases type with
  | union types => exact .union ha inside
  | _ => exact List.mem_singleton.1 ha ▸ inside

theorem all_of_ofConjuncts {types : List TypeExpr} {value : Json}
    (h : Interpreted meaning (ofConjuncts types) value) :
    ∀ type ∈ types, Interpreted meaning type value := by
  intro type hm
  unfold ofConjuncts at h
  split at h
  · cases hm
  · exact List.mem_singleton.1 hm ▸ h
  · cases h with
    | intersection inside => exact inside type hm

/-- What is of an intersection of types is of all of them. -/
theorem all_of_intersectionOf {types : List TypeExpr} {value : Json}
    (h : Interpreted meaning (intersectionOf types) value) :
    ∀ type ∈ types, Interpreted meaning type value := by
  intro type hm
  have inside : ∀ t ∈ conjuncts type, Interpreted meaning t value := by
    intro t ht
    exact all_of_ofConjuncts h t (List.mem_flatMap.2 ⟨type, hm, ht⟩)
  cases type with
  | intersection types => exact .intersection inside
  | _ => exact inside _ (List.mem_singleton_self _)

end

/-! ## Types that cover each other -/

/-- Whatever is of the first type under a meaning of names is of the second as declared. -/
def Covered (meaning : String → Json → Prop) (declarations : List Declaration)
    (a b : TypeExpr) : Prop :=
  ∀ value, Interpreted meaning a value → Inhabits declarations b value

section
variable {meaning : String → Json → Prop} {declarations : List Declaration}

theorem covered_unknown (a : TypeExpr) (note : Option String) :
    Covered meaning declarations a (.unknown note) :=
  fun value _ => .unknown note value

theorem covered_primitive (kind : Primitive) :
    Covered meaning declarations (.primitive kind) (.primitive kind) := by
  intro value h
  cases h with
  | string value => exact .string value
  | number value => exact .number value
  | boolean value => exact .boolean value

theorem covered_literal (literal : Literal) :
    Covered meaning declarations (.literal literal) (.literal literal) := by
  intro value h
  cases h with
  | literalString value => exact .literalString value
  | literalBool value => exact .literalBool value
  | literalNull => exact .literalNull
  | literalInt same => exact .literalInt same
  | literalNumber same => exact .literalNumber same

theorem covered_array {a b : TypeExpr} (h : Covered meaning declarations a b) :
    Covered meaning declarations (.array a) (.array b) := by
  intro value ha
  cases ha with
  | array inside => exact .array fun part hm => h part (inside part hm)

theorem covered_unionOf {as bs : List TypeExpr}
    (h : List.Forall₂ (Covered meaning declarations) as bs) :
    Covered meaning declarations (unionOf as) (unionOf bs) := by
  intro value ha
  obtain ⟨a, hm, inside⟩ := exists_of_unionOf ha
  obtain ⟨b, hb, covered⟩ := exists_right_of_forall₂ h hm
  exact inhabits_unionOf hb (covered value inside)

theorem covered_intersectionOf {as bs : List TypeExpr}
    (h : List.Forall₂ (Covered meaning declarations) as bs) :
    Covered meaning declarations (intersectionOf as) (intersectionOf bs) := by
  intro value ha
  apply inhabits_intersectionOf
  intro b hb
  obtain ⟨a, hm, covered⟩ := exists_left_of_forall₂ h hb
  exact covered value (all_of_intersectionOf ha a hm)

theorem covered_intersection {as bs : List TypeExpr}
    (h : List.Forall₂ (Covered meaning declarations) as bs) :
    Covered meaning declarations (.intersection as) (.intersection bs) := by
  intro value ha
  cases ha with
  | intersection inside =>
    refine .intersection fun b hb => ?_
    obtain ⟨a, hm, covered⟩ := exists_left_of_forall₂ h hb
    exact covered value (inside a hm)

/-- Members that say the same of types that cover each other. -/
inductive MemberCovered (meaning : String → Json → Prop) (declarations : List Declaration) :
    Member → Member → Prop
  | property {name : String} {a b : TypeExpr} {isOptional isReadonly : Bool} {doc : Option Doc}
      (type : Covered meaning declarations a b) :
      MemberCovered meaning declarations (.property name a isOptional isReadonly doc)
        (.property name b isOptional isReadonly doc)
  | index {key a b : TypeExpr} (type : Covered meaning declarations a b) :
      MemberCovered meaning declarations (.index key a) (.index key b)

theorem covered_object {as bs : List Member}
    (h : List.Forall₂ (MemberCovered meaning declarations) as bs) :
    Covered meaning declarations (.object as) (.object bs) := by
  intro value ha
  cases ha with
  | object properties required indexed =>
    refine .object ?_ ?_ ?_
    · intro name type isOptional isReadonly doc hm part hp
      obtain ⟨member, ha, covered⟩ := exists_left_of_forall₂ h hm
      cases covered with
      | property covered => exact covered part (properties _ _ _ _ _ ha part hp)
    · intro name type isReadonly doc hm
      obtain ⟨member, ha, covered⟩ := exists_left_of_forall₂ h hm
      cases covered with
      | property => exact required _ _ _ _ ha
    · intro key type hm field hf
      obtain ⟨member, ha, covered⟩ := exists_left_of_forall₂ h hm
      cases covered with
      | index covered => exact covered field.2 (indexed _ _ ha field hf)

end

end ApiTypes.Meaning
