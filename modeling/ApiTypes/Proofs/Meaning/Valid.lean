import ApiTypes.Proofs.Place
import ApiTypes.Typing.Node

/-!
# Meaning of schemas

`Valid index schema value` says that a value is valid against a schema of the document. It is
least: a schema that only refers to itself admits nothing but what its nullable flags do.

* `SameValue`: equality of JSON values, numbers by what they are as doubles;
* `HasKind`, `Admits`: what a schema says about a value itself;
* `Valid`: the rest, which is about parts of the value or about other schemas.
-/

namespace ApiTypes

/-- A number as floating point. -/
def Number.toBinary : Number → Binary64
  | .int value => .ofInt value
  | .float value => value

/-- Whether a number has no fraction. -/
def Number.IsWhole : Number → Prop
  | .int _ => True
  | .float (.finite _ x) => Binary64.one ∣ x.units
  | .float _ => False

namespace Json

/-- The fields of an object. Other values have none. -/
def fields : Json → List (String × Json)
  | .object fields => fields
  | _ => []

/-- The elements of an array. Other values have none. -/
def items : Json → List Json
  | .array items => items
  | _ => []

end Json

namespace Meaning

/-- Equality of values. The order of fields does not matter, and numbers are equal when they are
as doubles. -/
inductive SameValue : Json → Json → Prop
  | null : SameValue .null .null
  | bool (value : Bool) : SameValue (.bool value) (.bool value)
  | number {a b : Number} (same : a.toBinary.same b.toBinary = true) :
      SameValue (.number a) (.number b)
  | string (value : String) : SameValue (.string value) (.string value)
  | array {as bs : List Json} (length : as.length = bs.length)
      (same : ∀ (n : Nat) (a b : Json), as[n]? = some a → bs[n]? = some b → SameValue a b) :
      SameValue (.array as) (.array bs)
  | object {as bs : List (String × Json)}
      (keys : ∀ key, key ∈ as.map (·.1) ↔ key ∈ bs.map (·.1))
      (same : ∀ key a b, (key, a) ∈ as → (key, b) ∈ bs → SameValue a b) :
      SameValue (.object as) (.object bs)

/-- A value is of a kind that `type` may name. -/
inductive HasKind : Json → String → Prop
  | object (fields : List (String × Json)) : HasKind (.object fields) "object"
  | array (items : List Json) : HasKind (.array items) "array"
  | string (value : String) : HasKind (.string value) "string"
  | number (value : Number) : HasKind (.number value) "number"
  | integer {value : Number} (whole : value.IsWhole) : HasKind (.number value) "integer"
  | boolean (value : Bool) : HasKind (.bool value) "boolean"
  | null : HasKind .null "null"

/-- A value is of a kind that a schema admits. Without `type`, keywords for objects mean an object,
and else `items` an array. -/
def KindAdmitted (schema value : Json) : Prop :=
  match schema.get? "type" with
  | some (.string kind) => HasKind value kind
  | some (.array kinds) => ∃ kind, .string kind ∈ kinds ∧ HasKind value kind
  | some _ => True
  | none =>
    if (schema.get? "properties").isSome || (schema.get? "additionalProperties").isSome then
      HasKind value "object"
    else if (schema.get? "items").isSome then HasKind value "array"
    else True

/-- What a schema says about a value without regard to other schemas. -/
structure Admits (schema value : Json) : Prop where
  enum : ∀ listed, schema.get? "enum" = some (.array listed) → ∃ item ∈ listed, SameValue item value
  const : ∀ constant, schema.get? "const" = some constant → SameValue constant value
  kind : KindAdmitted schema value
  required : ∀ keys, schema.get? "required" = some (.array keys) → ∀ key, .string key ∈ keys →
    value.isObject = true → key ∈ value.fields.map (·.1)

/-- The keys under `properties`. -/
def propertyKeys (schema : Json) : List String :=
  (((schema.get? "properties").bind Json.object?).getD []).map (·.1)

/-- A value is valid against a schema. Of a schema that is a reference, only the target and the
nullable flags count. Each of `oneOf` and `anyOf` asks for one member or more, here `one` and
`any`, and `not` asks for nothing. -/
inductive Valid (index : Index) : Json → Json → Prop
  | always (value : Json) : Valid index (.bool true) value
  | null {schema : Json} (nullable : Schema.isNullable schema = true) : Valid index schema .null
  | reference {schema value : Json} {reference : String} {target : index.Target}
      (refers : Schema.reference? schema = some reference)
      (leads : (Pointer.ofReference? reference).bind index.locate? = some target)
      (valid : Valid index target.node value) : Valid index schema value
  | keywords {fields : List (String × Json)} {value one any : Json}
      (plain : Schema.reference? (.object fields) = none) (admits : Admits (.object fields) value)
      (properties : ∀ schemas, fields.lookup "properties" = some (.object schemas) →
        ∀ key schema part, (key, schema) ∈ schemas → (key, part) ∈ value.fields →
          Valid index schema part)
      (additional : ∀ schema, fields.lookup "additionalProperties" = some schema →
        ∀ key part, (key, part) ∈ value.fields → key ∉ propertyKeys (.object fields) →
          Valid index schema part)
      (items : ∀ schema, fields.lookup "items" = some schema → ∀ part ∈ value.items,
        Valid index schema part)
      (allOf : ∀ schemas, fields.lookup "allOf" = some (.array schemas) → ∀ schema ∈ schemas,
        Valid index schema value)
      (oneOf : ∀ schemas, fields.lookup "oneOf" = some (.array schemas) → one ∈ schemas)
      (ofOne : ∀ schemas, fields.lookup "oneOf" = some (.array schemas) → Valid index one value)
      (anyOf : ∀ schemas, fields.lookup "anyOf" = some (.array schemas) → any ∈ schemas)
      (ofAny : ∀ schemas, fields.lookup "anyOf" = some (.array schemas) → Valid index any value) :
      Valid index (.object fields) value

/-! ## Schemas of a bare map -/

/-- The schemas of a bare map of schemas: its entries, and what is reached from them through the
keywords and references that `Valid` reads. -/
inductive IsSchema (index : Index) : Json → Prop
  | entry {place : Pointer} {schema : Json} (top : place.depth = 1)
      (stands : index.get? place = some schema) : IsSchema index schema
  | property {outer schema : Json} {schemas : List (String × Json)} {key : String}
      (inside : IsSchema index outer) (under : outer.get? "properties" = some (.object schemas))
      (member : (key, schema) ∈ schemas) : IsSchema index schema
  | single {outer schema : Json} {key : String} (inside : IsSchema index outer)
      (keyword : key ∈ ["additionalProperties", "items"])
      (under : outer.get? key = some schema) : IsSchema index schema
  | listed {outer schema : Json} {key : String} {schemas : List Json}
      (inside : IsSchema index outer) (keyword : key ∈ ["allOf", "oneOf", "anyOf"])
      (under : outer.get? key = some (.array schemas)) (member : schema ∈ schemas) :
      IsSchema index schema
  | target {outer : Json} {reference : String} {target : index.Target}
      (inside : IsSchema index outer) (refers : Schema.reference? outer = some reference)
      (leads : (Pointer.ofReference? reference).bind index.locate? = some target) :
      IsSchema index target.node

theorem IsSchema.stands {index : Index} {schema : Json} (h : IsSchema index schema) :
    ∃ place, index.get? place = some schema := by
  induction h with
  | entry _ stands => exact ⟨_, stands⟩
  | property _ under member ih =>
    obtain ⟨place, stands⟩ := ih
    have properties := Index.get?_key stands under
    have distinct := (Index.distinct_get? properties).1
    exact ⟨_, Index.get?_key properties (lookup_of_mem distinct member)⟩
  | single _ _ under ih =>
    obtain ⟨place, stands⟩ := ih
    exact ⟨_, Index.get?_key stands under⟩
  | listed _ _ under member ih =>
    obtain ⟨place, stands⟩ := ih
    obtain ⟨n, hn⟩ := List.mem_iff_getElem?.1 member
    exact ⟨_, Index.get?_element (Index.get?_key stands under) hn⟩
  | @target _ _ target _ _ _ _ => exact ⟨target.pointer, target.found⟩

end Meaning

end ApiTypes
