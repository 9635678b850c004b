import ApiTypes.Json.Printer

/-!
The shape of a schema: which of its keywords count, in what order of precedence, and what they
hold. A shape is over the type of the schemas inside it. `Schema.shape` gives each of these as an
`Inner` node, which is smaller than the schema it stands in, so that work on shapes ends.
-/

namespace ApiTypes

/-- A node that stands inside another. -/
structure Inner (outer : Json) where
  node : Json
  smaller : sizeOf node < sizeOf outer

namespace Json

theorem sizeOf_lookup {fields : List (String × Json)} {key : String} {value : Json}
    (found : fields.lookup key = some value) : sizeOf value < sizeOf fields := by
  induction fields with
  | nil => simp at found
  | cons head rest ih =>
    obtain ⟨k, v⟩ := head
    rw [List.lookup_cons] at found
    split at found
    · cases found
      simp only [List.cons.sizeOf_spec, Prod.mk.sizeOf_spec]
      omega
    · have := ih found
      simp only [List.cons.sizeOf_spec]
      omega

theorem sizeOf_get {node value : Json} {key : String} (found : node.get? key = some value) :
    sizeOf value < sizeOf node := by
  cases node with
  | object fields =>
    have := sizeOf_lookup found
    simp only [object.sizeOf_spec]
    omega
  | _ => simp [get?] at found

theorem sizeOf_mem_items {items : List Json} {item : Json} (member : item ∈ items) :
    sizeOf item < sizeOf (array items) := by
  have := List.sizeOf_lt_of_mem member
  simp only [array.sizeOf_spec]
  omega

theorem sizeOf_mem_fields {fields : List (String × Json)} {field : String × Json}
    (member : field ∈ fields) : sizeOf field.2 < sizeOf (object fields) := by
  have := List.sizeOf_lt_of_mem member
  obtain ⟨key, value⟩ := field
  simp only [object.sizeOf_spec, Prod.mk.sizeOf_spec] at this ⊢
  omega

/-- The value under a key. -/
def inner? (node : Json) (key : String) : Option (Inner node) :=
  match found : node.get? key with
  | some value => some ⟨value, sizeOf_get found⟩
  | none => none

/-- The elements of the list under a key. -/
def innerItems? (node : Json) (key : String) : Option (List (Inner node)) :=
  match found : node.get? key with
  | some (.array items) =>
    some (items.attach.map fun ⟨item, member⟩ =>
      ⟨item, Nat.lt_trans (sizeOf_mem_items member) (sizeOf_get found)⟩)
  | _ => none

/-- The fields of the object under a key. -/
def innerFields? (node : Json) (key : String) : Option (List (String × Inner node)) :=
  match found : node.get? key with
  | some (.object fields) =>
    some (fields.attach.map fun ⟨field, member⟩ =>
      (field.1, ⟨field.2, Nat.lt_trans (sizeOf_mem_fields member) (sizeOf_get found)⟩))
  | _ => none

end Json

namespace Schema

/-- The kinds of value that have no parts. -/
inductive ScalarKind
  | string
  | number
  | integer
  | boolean
  | null
  deriving DecidableEq, Repr

/-- What is said about the keys beside the properties. -/
inductive Additional (α : Type)
  | absent
  /-- There are no other keys. -/
  | forbidden
  /-- Other keys may hold anything. -/
  | any
  | schema (node : α)

/-- What is said about the elements of an array. -/
inductive Items (α : Type)
  | absent
  /-- One schema for all. -/
  | single (node : α)
  /-- A schema for each position. -/
  | tuple (nodes : List α)

structure ObjectShape (α : Type) where
  /-- The properties, in document order. -/
  properties : Option (List (String × α))
  /-- What `required` lists. -/
  required : List Json
  additional : Additional α

/-- One kind of value. -/
inductive Core (α : Type)
  | scalar (kind : ScalarKind)
  | array (items : Items α)
  | object (shape : ObjectShape α)

/-- The kinds of value a schema admits. -/
inductive Base (α : Type)
  | one (core : Core α)
  /-- A list of two kinds or more. -/
  | several (cores : List (Core α))

/-- The schemas a schema is put together from. -/
structure Composition (α : Type) where
  allOf : Option (List α)
  oneOf : Option (List α)
  anyOf : Option (List α)
  not : Option Json

def Composition.isEmpty {α : Type} (composition : Composition α) : Bool :=
  composition.allOf.isNone && composition.oneOf.isNone && composition.anyOf.isNone &&
    composition.not.isNone

/-- What a schema says, by the keywords that take precedence. -/
inductive Shape (α : Type)
  /-- Every value is valid. -/
  | any
  /-- No value is valid. -/
  | nothing
  /-- What another schema says. -/
  | reference (reference : String)
  | enumeration (values : List Json)
  /-- A list of values beside composition keywords. -/
  | enumerationWithComposition
  | constant (value : Json)
  | composite (composition : Composition α) (base : Option (Base α))
  | structural (base : Base α)
  /-- Something no type is known for. -/
  | unsupported (reason : String)

/-- Keywords that restrict values in ways no type expresses. -/
def unsupportedKeywords : List String :=
  ["if", "then", "else", "patternProperties", "dependentSchemas", "dependencies", "propertyNames",
    "contains", "$dynamicRef", "$recursiveRef", "unevaluatedProperties"]

/-- The reference a schema consists of. -/
def reference? (node : Json) : Option String :=
  node.text? "$ref"

/-- Whether null is valid beside what the schema says. -/
def isNullable (node : Json) : Bool :=
  node.flag "nullable" || node.flag "x-nullable"

def isReadOnly (node : Json) : Bool :=
  node.flag "readOnly"

/-- The property that tells the alternatives apart, and which of its values means which. It may be
written as the bare name of the property. -/
def discriminator? (node : Json) : Option (String × Option (List (String × Json))) :=
  (node.get? "discriminator").bind fun discriminator =>
    match discriminator with
    | .string name => some (name, none)
    | _ =>
      (discriminator.text? "propertyName").map fun name =>
        (name, (discriminator.get? "mapping").bind Json.object?)

def composition (node : Json) : Composition (Inner node) where
  allOf := node.innerItems? "allOf"
  oneOf := node.innerItems? "oneOf"
  anyOf := node.innerItems? "anyOf"
  not := node.get? "not"

def additional (node : Json) : Additional (Inner node) :=
  match node.inner? "additionalProperties" with
  | none => .absent
  | some inner =>
    match inner.node with
    | .bool false => .forbidden
    | .bool true => .any
    | .object [] => .any
    | _ => .schema inner

def objectShape (node : Json) : ObjectShape (Inner node) where
  properties := node.innerFields? "properties"
  required := ((node.get? "required").bind Json.array?).getD []
  additional := additional node

def items (node : Json) : Items (Inner node) :=
  match node.innerItems? "items" with
  | some nodes => .tuple nodes
  | none =>
    match node.inner? "items" with
    | some inner => .single inner
    | none => .absent

/-- What a schema says about the values of a kind it names. -/
def coreOf? (node : Json) (kind : String) : Except String (Core (Inner node)) :=
  match kind with
  | "object" => .ok (.object (objectShape node))
  | "array" => .ok (.array (items node))
  | "string" => .ok (.scalar .string)
  | "number" => .ok (.scalar .number)
  | "integer" => .ok (.scalar .integer)
  | "boolean" => .ok (.scalar .boolean)
  | "null" => .ok (.scalar .null)
  | other => .error other

/-- The kinds that `type` lists. -/
def coresOf? (node : Json) : List Json → Except String (List (Core (Inner node)))
  | [] => .ok []
  | .string kind :: rest =>
    match coreOf? node kind with
    | .error unknown => .error unknown
    | .ok core =>
      match coresOf? node rest with
      | .error unknown => .error unknown
      | .ok cores => .ok (core :: cores)
  | other :: _ => .error other.toText

/-- The kinds of value a schema admits: as `type` says, else by the keywords there are for
objects, else by those for arrays. The error is the text of a kind that is not known. -/
def base? (node : Json) : Except String (Option (Base (Inner node))) :=
  match node.get? "type" with
  | some (.string kind) => (coreOf? node kind).map fun core => some (.one core)
  | some (.array kinds) =>
    (coresOf? node kinds).map fun cores =>
      match cores with
      | [] => none
      | [core] => some (.one core)
      | cores => some (.several cores)
  | some other => .error other.toText
  | none =>
    if (node.get? "properties").isSome || (node.get? "additionalProperties").isSome then
      .ok (some (.one (.object (objectShape node))))
    else if (node.get? "items").isSome then .ok (some (.one (.array (items node))))
    else .ok none

/-- The shape of a schema without composition and kinds. -/
def bareShape (node : Json) : Shape (Inner node) :=
  let unsupported := unsupportedKeywords.filter fun keyword => (node.get? keyword).isSome
  if unsupported.isEmpty then .any
  else .unsupported ("unsupported keyword(s): " ++ ", ".intercalate unsupported)

/-- The shape of a schema written as an object, but for references. -/
def objectSchemaShape (node : Json) : Shape (Inner node) :=
  match (node.get? "enum").bind Json.array? with
  | some values =>
    if (composition node).isEmpty then .enumeration values else .enumerationWithComposition
  | none =>
    match node.get? "const" with
    | some value => .constant value
    | none =>
      match base? node with
      | .error kind => .unsupported ("unknown type `" ++ kind ++ "`")
      | .ok base =>
        if (composition node).isEmpty then
          match base with
          | some base => .structural base
          | none => bareShape node
        else .composite (composition node) base

/-- The shape of a schema. A reference takes precedence, then a list of values, a constant,
composition, the kinds of value, and last the keywords that no type expresses. -/
def shape (node : Json) : Shape (Inner node) :=
  match node with
  | .bool true => .any
  | .bool false => .nothing
  | .object fields =>
    match reference? (.object fields) with
    | some reference => .reference reference
    | none => objectSchemaShape (.object fields)
  | other => .unsupported ("schema must be an object, found `" ++ other.toText ++ "`")

end Schema

end ApiTypes
