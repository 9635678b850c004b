import ApiTypes.Proofs.Meaning.Soundness
import ApiTypes.Proofs.TypeExpr.WellFormed
import ApiTypes.Proofs.Typing.Flat
import ApiTypes.Proofs.Typing.SameShape

/-!
# Members of object types

The members of an object type say what the keywords of its schema say: there is one for each
property, in their order, and behind them an index signature where other keys are admitted
(`objectType_members`). The signature speaks of all keys, so it is widened by the types of the
properties.

* `includes_unionOf`: a union of flat types has the alternatives of each of them;
* `widened_widenIndex`: so what is of the type of a property is of the widened type;
* `additionalType_returns`: there is a signature exactly where `additionalProperties` stands and is
  not `false`.
-/

namespace ApiTypes.Meaning

open Typing Schema TypeExpr

/-! ## Widening -/

/-- All alternatives of a part are alternatives of the whole, up to equality. -/
def Includes (whole part : TypeExpr) : Prop :=
  ∀ type ∈ part.alternatives, ∃ kept ∈ whole.alternatives, kept = type ∨ kept.same type = true

theorem includes_self (type : TypeExpr) : Includes type type :=
  fun alternative hm => ⟨alternative, hm, .inl rfl⟩

theorem includes_unionOf {types : List TypeExpr} {part : TypeExpr} (flat : AllFlat types)
    (hm : part ∈ types) : Includes (.unionOf types) part := by
  intro type ht
  obtain ⟨kept, hk, same⟩ := exists_kept (List.mem_flatMap.2 ⟨part, hm, ht⟩)
  refine ⟨kept, ?_, same⟩
  rwa [alternatives_unionOf flat (List.ne_nil_of_mem hk)]

/-- The type of an index signature, from that of the other keys and those of the properties. -/
structure Widened (additional : TypeExpr) (types : List TypeExpr) (anyOptional : Prop)
    (value : TypeExpr) : Prop where
  /-- It is as unknown as the values of the other keys, or it has the alternatives of all of these
  types. -/
  covers : (∃ note, additional = .unknown note ∧ value = additional) ∨
    Includes value additional ∧ (∀ type ∈ types, Includes value type) ∧
      (anyOptional → Includes value .undefined)
  assignable : ∀ type ∈ types, ∀ declarations json,
    Inhabits declarations type json → Inhabits declarations value json

theorem widened_widenIndex {additional : TypeExpr} {types : List TypeExpr} {anyOptional : Bool}
    (flat : Flat additional) (flats : AllFlat types)
    (some : anyOptional = true → types ≠ []) :
    Widened additional types (anyOptional = true) (widenIndex additional types anyOptional) := by
  constructor
  case assignable =>
    intro type hm declarations json inside
    exact inhabits_widenIndex anyOptional (List.mem_cons_of_mem _ hm) inside
  case covers =>
    unfold widenIndex
    split
    · rename_i note
      exact .inl ⟨note, rfl, rfl⟩
    · split
      · rename_i empty
        have none := List.isEmpty_iff.1 empty
        subst none
        exact .inr ⟨includes_self _, by simp, fun optional => absurd rfl (some optional)⟩
      · have all : AllFlat (additional :: types ++ if anyOptional then [.undefined] else []) := by
          intro type hm
          rcases List.mem_append.1 hm with hm | hm
          · exact List.forall_mem_cons.2 ⟨flat, flats⟩ type hm
          · split at hm
            · rw [List.mem_singleton.1 hm]
              exact flat_of_isSimple rfl
            · cases hm
        refine .inr ⟨includes_unionOf all List.mem_cons_self, ?_, ?_⟩
        · intro type hm
          exact includes_unionOf all (List.mem_append_left _ (List.mem_cons_of_mem _ hm))
        · intro optional
          apply includes_unionOf all
          rw [if_pos optional]
          exact List.mem_append_right _ (List.mem_singleton_self _)

/-! ## Keywords -/

/-- The schemas of properties by their keys. -/
def propertiesOf (node : Json) : List (String × Json) :=
  ((node.get? "properties").bind Json.object?).getD []

/-- The key is among those that `required` lists. -/
def Requires (node : Json) (key : String) : Prop :=
  ∃ items, node.get? "required" = some (.array items) ∧ .string key ∈ items

/-- The member gives a property the type, and says what its schema and `required` say of it. -/
def PropertyMember (node : Json) (field : String × Json) (type : TypeExpr) (member : Member) :
    Prop :=
  ∃ isOptional isReadonly, member = .property field.1 type isOptional isReadonly (doc? field.2) ∧
    (isOptional = true ↔ ¬Requires node field.1) ∧
    (isReadonly = true ↔ field.2.get? "readOnly" = some (.bool true))

section
variable {node : Json}

theorem contains_requiredKeys {key : String} :
    (requiredKeys (objectShape node).required).contains key = true ↔ Requires node key := by
  rw [List.contains_iff_mem, requiredKeys, List.mem_filterMap]
  constructor
  · rintro ⟨item, hm, text⟩
    cases item <;> cases text
    cases found : node.get? "required" with
    | none => simp [objectShape, found] at hm
    | some required =>
      cases required with
      | array items => exact ⟨items, found, by simpa [objectShape, found, Json.array?] using hm⟩
      | _ => simp [objectShape, found, Json.array?] at hm
  · rintro ⟨items, found, hm⟩
    refine ⟨.string key, ?_, rfl⟩
    simpa [objectShape, found, Json.array?] using hm

theorem properties_objectShape :
    ((objectShape node).properties.getD []).map (fun field => (field.1, field.2.node)) =
      propertiesOf node := by
  unfold propertiesOf objectShape
  cases found : (node.get? "properties").bind Json.object? with
  | none =>
    rw [innerFields?_of_none found]
    rfl
  | some fields =>
    obtain ⟨inners, there, same⟩ := innerFields?_of_object found
    rw [there]
    exact same

theorem propertyOf_member (field : String × Json) (type : TypeExpr) :
    PropertyMember node field type
      (propertyOf (requiredKeys (objectShape node).required) field.1 field.2 type) := by
  refine ⟨_, _, rfl, ?_, Json.flag_iff⟩
  rw [Bool.not_eq_true', ← Bool.not_eq_true, contains_requiredKeys]

theorem propertiesOf_distinct (distinct : node.DistinctKeys) :
    ((propertiesOf node).map (·.1)).Nodup := by
  unfold propertiesOf
  cases found : node.get? "properties" with
  | none => exact List.nodup_nil
  | some properties =>
    cases properties with
    | object fields =>
      cases node with
      | object keywords => exact (distinct.step found).1
      | _ => cases found
    | _ => exact List.nodup_nil

end

/-! ## Members -/

section
variable (index : Index) (path : List Pointer) (node : Json) (place : Pointer)

/-- What stands behind the properties with these types: an index signature for all keys, where other
keys are admitted, and else nothing. -/
inductive Signature (types : List TypeExpr) (before : State) : List Member → State → Prop
  | absent
      (none : ∀ schema, node.get? "additionalProperties" = some schema → schema = .bool false) :
      Signature types before [] before
  | present {schema : Json} {additional value : TypeExpr} {after : State}
      (found : node.get? "additionalProperties" = some schema) (admitted : schema ≠ .bool false)
      (made : Returns (typeAt index path schema (place.child "additionalProperties")) before
        additional after)
      (widened :
        Widened additional types (∃ field ∈ propertiesOf node, ¬Requires node field.1) value) :
      Signature types before [.index .string value] after

end

section
variable {index : Index} {path : List Pointer} {node : Json} {place : Pointer}
  {before after : State}

/-- A schema of any value is typed without further ado. -/
theorem typeAt_of_any {here : Pointer} (any : shape node = .any) (plain : isNullable node = false) :
    Returns (typeAt index path node here) before (.unknown none) before := by
  refine typeAt_returns_iff.2 ⟨.unknown none, false, before, ?_, ?_⟩
  · rw [any]
    rfl
  · unfold withNull
    rw [plain]
    rfl

/-- Other keys have a type exactly where `additionalProperties` stands and is not `false`. -/
theorem additionalType_returns {type : Option TypeExpr}
    (h : Returns (additionalType (innerAt index path) place (additional node)) before type after) :
    (type = none ∧ after = before ∧
      ∀ schema, node.get? "additionalProperties" = some schema → schema = .bool false) ∨
    ∃ schema additional, node.get? "additionalProperties" = some schema ∧ schema ≠ .bool false ∧
      Returns (typeAt index path schema (place.child "additionalProperties")) before additional
        after ∧ type = some additional := by
  cases found : node.get? "additionalProperties" with
  | none =>
    unfold additional at h
    rw [inner?_of_none found] at h
    obtain ⟨rfl, rfl⟩ := returns_pure_iff.1 h
    exact .inl ⟨rfl, rfl, nofun⟩
  | some schema =>
    obtain ⟨inner, there, rfl⟩ := inner?_of_get? found
    unfold additional at h
    rw [there] at h
    dsimp only at h
    split at h
    · rename_i forbidden
      obtain ⟨rfl, rfl⟩ := returns_pure_iff.1 h
      rw [forbidden]
      exact .inl ⟨rfl, rfl, fun schema same => (Option.some.inj same).symm⟩
    · rename_i everything
      obtain ⟨rfl, rfl⟩ := returns_pure_iff.1 h
      rw [everything]
      exact .inr ⟨_, _, rfl, nofun, typeAt_of_any rfl rfl, rfl⟩
    · rename_i everything
      obtain ⟨rfl, rfl⟩ := returns_pure_iff.1 h
      rw [everything]
      exact .inr ⟨_, _, rfl, nofun, typeAt_of_any rfl rfl, rfl⟩
    · rename_i notForbidden _ _
      obtain ⟨made, returned, rfl⟩ := returns_map_iff.1 h
      exact .inr ⟨_, _, rfl, notForbidden, returned, rfl⟩

theorem any_optional_iff :
    (((objectShape node).properties.getD []).any fun field =>
      !(requiredKeys (objectShape node).required).contains field.1) = true ↔
      ∃ field ∈ propertiesOf node, ¬Requires node field.1 := by
  rw [List.any_eq_true, ← properties_objectShape]
  constructor
  · rintro ⟨field, hm, optional⟩
    rw [Bool.not_eq_true', ← Bool.not_eq_true, contains_requiredKeys] at optional
    exact ⟨_, List.mem_map_of_mem hm, optional⟩
  · rintro ⟨field, hm, optional⟩
    obtain ⟨source, hs, rfl⟩ := List.mem_map.1 hm
    refine ⟨source, hs, ?_⟩
    rwa [Bool.not_eq_true', ← Bool.not_eq_true, contains_requiredKeys]

/-- What the members of the type of an object schema say, whatever the state it is typed in. -/
theorem objectType_members {type : TypeExpr}
    (h : Returns (objectType (innerAt index path) (objectShape node) place) before type after) :
    ∃ types mid properties signature,
      InTurn (fun field => typeAt index path field.2 field.1) before
        (fieldsAt (place.child "properties") (propertiesOf node)) types mid ∧
      type = .object (properties ++ signature) ∧
      properties.map Member.propertyName? = (propertiesOf node).map (fun field => some field.1) ∧
      (node.DistinctKeys → ((propertiesOf node).map (·.1)).Nodup) ∧
      List.Forall₂ (fun entry member => PropertyMember node entry.1 entry.2 member)
        ((propertiesOf node).zip types) properties ∧
      Signature index path node place types mid signature after := by
  obtain ⟨types, mid, made, h⟩ := returns_bind_iff.1 h
  obtain ⟨additional, last, others, h⟩ := returns_bind_iff.1 h
  obtain ⟨rfl, rfl⟩ := returns_pure_iff.1 h
  have turn := typesOfFields_returns made
  rw [properties_objectShape] at turn
  have as_many := turn.length_eq
  have properties : List.zipWith (fun (field : String × Inner node) type =>
        propertyOf (requiredKeys (objectShape node).required) field.1 field.2.node type)
        ((objectShape node).properties.getD []) types =
      ((propertiesOf node).zip types).map fun entry =>
        propertyOf (requiredKeys (objectShape node).required) entry.1.1 entry.1.2 entry.2 := by
    rw [← properties_objectShape, List.map_zip_eq_zipWith, List.zipWith_map_left]
    rfl
  refine ⟨types, mid, _, _, turn, rfl, ?names, propertiesOf_distinct, ?properties, ?signature⟩
  case names =>
    have keys : ((propertiesOf node).zip types).map Prod.fst = propertiesOf node :=
      List.map_fst_zip (by simp [as_many, fieldsAt])
    rw [properties, List.map_map]
    calc ((propertiesOf node).zip types).map _
      _ = (((propertiesOf node).zip types).map Prod.fst).map fun field => some field.1 := by
        rw [List.map_map]
        rfl
      _ = (propertiesOf node).map fun field => some field.1 := by rw [keys]
  case properties =>
    rw [properties, List.forall₂_map_right_iff]
    apply List.forall₂_same.2
    intro entry hm
    exact propertyOf_member entry.1 entry.2
  case signature =>
    rcases additionalType_returns others with ⟨rfl, rfl, none⟩ |
      ⟨schema, found, there, admitted, made, rfl⟩
    · exact .absent none
    · have flat := typeAt_flat index path schema _ _ _ _ made
      have flats : AllFlat types :=
        turn.forall fun field _ => typeAt_flat index path field.2 field.1
      refine .present there admitted made ?_
      rw [← any_optional_iff]
      refine widened_widenIndex flat flats fun optional none => ?_
      obtain ⟨field, hm, -⟩ := any_optional_iff.1 optional
      subst none
      have keyless : propertiesOf node = [] := by
        simpa [fieldsAt] using as_many.symm
      rw [keyless] at hm
      cases hm

end

/-- Two properties, of which one is required, and other keys with texts. -/
def itemSchema : Json :=
  .object [
    ("properties", .object [
      ("id", .object [("type", .string "integer"), ("readOnly", .bool true)]),
      ("name", .object [("type", .array [.string "string", .string "null"])])]),
    ("required", .array [.string "id", .null]),
    ("additionalProperties", .object [("type", .string "string")])]

theorem objectType_members_itemSchema :
    ∃ type after, Returns (objectType (innerAt ⟨.ofJson itemSchema, none⟩ [])
        (objectShape itemSchema) .root) { names := {} } type after ∧
      type.same (.object [
        .property "id" .number false true none,
        .property "name" (.union [.string, .null]) true false none,
        .index .string (.union [.string, .number, .null, .undefined])]) = true ∧
      ∃ types mid properties signature,
        InTurn (fun field => typeAt ⟨.ofJson itemSchema, none⟩ [] field.2 field.1) { names := {} }
          (fieldsAt (Pointer.root.child "properties") (propertiesOf itemSchema)) types mid ∧
        type = .object (properties ++ signature) ∧
        properties.map Member.propertyName? =
          (propertiesOf itemSchema).map (fun field => some field.1) ∧
        (itemSchema.DistinctKeys → ((propertiesOf itemSchema).map (·.1)).Nodup) ∧
        List.Forall₂ (fun entry member => PropertyMember itemSchema entry.1 entry.2 member)
          ((propertiesOf itemSchema).zip types) properties ∧
        Signature ⟨.ofJson itemSchema, none⟩ [] itemSchema .root types mid signature after := by
  obtain ⟨type, after, made, same⟩ := exists_returns
    (objectType (innerAt ⟨.ofJson itemSchema, none⟩ []) (objectShape itemSchema) .root)
    { names := {} }
    (·.same (.object [
      .property "id" .number false true none,
      .property "name" (.union [.string, .null]) true false none,
      .index .string (.union [.string, .number, .null, .undefined])])) (by decide +kernel)
  exact ⟨type, after, made, same, objectType_members made⟩

end ApiTypes.Meaning
