import ApiTypes.Schema.Documentation
import ApiTypes.Schema.Shape
import ApiTypes.Typing.State

/-!
The type of a schema, shape by shape. The steps below take from outside how a schema inside the
one at hand is typed; `typeOfNode` closes that circle over the size of the schema and takes from
outside only how a reference is followed.
-/

namespace ApiTypes.Typing

/-- How a schema inside `node` is typed, by its place. -/
abbrev TypeInner (node : Json) := Inner node → Pointer → TypingM TypeExpr

/-- The type of a single value. Whole numbers beyond 64 bits with sign count as floating point. -/
def literalType (place : Pointer) : Json → TypingM TypeExpr
  | .null => return .null
  | .bool value => return .literal (.bool value)
  | .number (.int value) =>
    return .literal (if -Int.pow 2 63 ≤ value ∧ value < Int.pow 2 63 then .int value
      else .number (Binary64.ofInt value))
  | .number (.float value) => return .literal (.number value)
  | .string value => return .literal (.string value)
  | .array _ | .object _ =>
    unsupported place "non-scalar literal values have no TypeScript literal form"

/-- The types of listed values. -/
def literalTypes (place : Pointer) : List Json → TypingM (List TypeExpr)
  | [] => return []
  | value :: rest => do
    let type ← literalType place value
    let types ← literalTypes place rest
    return type :: types

def scalarType : Schema.ScalarKind → TypeExpr
  | .string => .string
  | .number | .integer => .number
  | .boolean => .primitive .boolean
  | .null => .null

section
variable {node : Json} (typeInner : TypeInner node)

/-- The types of listed schemas, placed by their numbers from `number` on. -/
def typesOfList (place : Pointer) (number : Nat) : List (Inner node) → TypingM (List TypeExpr)
  | [] => return []
  | inner :: rest => do
    let type ← typeInner inner (place.element number)
    let types ← typesOfList place (number + 1) rest
    return type :: types

/-- The types of the schemas in fields, placed by their keys. -/
def typesOfFields (place : Pointer) : List (String × Inner node) → TypingM (List TypeExpr)
  | [] => return []
  | (key, inner) :: rest => do
    let type ← typeInner inner (place.child key)
    let types ← typesOfFields place rest
    return type :: types

/-! ### Objects -/

/-- The keys that `required` lists. Entries that are no strings count for nothing. -/
def requiredKeys (required : List Json) : List String :=
  required.filterMap Json.string?

/-- The member for a property with its type. -/
def propertyOf (required : List String) (name : String) (schema : Json) (type : TypeExpr) : Member :=
  .property name type (!required.contains name) (Schema.isReadOnly schema) (Schema.doc? schema)

/-- An index signature covers every key, so its type is widened by those of the properties, and by
`undefined` where one may be missing. -/
def widenIndex (value : TypeExpr) (propertyTypes : List TypeExpr) (anyOptional : Bool) : TypeExpr :=
  match value with
  | .unknown note => .unknown note
  | value =>
    if propertyTypes.isEmpty then value
    else .unionOf (value :: propertyTypes ++ if anyOptional then [.undefined] else [])

/-- The type of the values under other keys, if there may be any. -/
def additionalType (place : Pointer) : Schema.Additional (Inner node) → TypingM (Option TypeExpr)
  | .absent => return none
  | .forbidden => return none
  | .any => return some (.unknown none)
  | .schema inner => some <$> typeInner inner (place.child "additionalProperties")

def objectType (shape : Schema.ObjectShape (Inner node)) (place : Pointer) : TypingM TypeExpr := do
  let fields := shape.properties.getD []
  let required := requiredKeys shape.required
  let types ← typesOfFields typeInner (place.child "properties") fields
  let additional ← additionalType typeInner place shape.additional
  let properties := List.zipWith
    (fun (field : String × Inner node) type => propertyOf required field.1 field.2.node type)
    fields types
  let anyOptional := fields.any fun field => !required.contains field.1
  let signature := additional.toList.map fun value =>
    Member.index .string (widenIndex value types anyOptional)
  return .object (properties ++ signature)

/-! ### Kinds of value -/

def arrayType (place : Pointer) : Schema.Items (Inner node) → TypingM TypeExpr
  | .absent => return .array (.unknown none)
  | .single inner => .array <$> typeInner inner (place.child "items")
  | .tuple inners => do
    let types ← typesOfList typeInner (place.child "items") 0 inners
    return .array (.unionOf types)

def coreType (place : Pointer) : Schema.Core (Inner node) → TypingM TypeExpr
  | .scalar kind => return scalarType kind
  | .array items => arrayType typeInner place items
  | .object shape => objectType typeInner shape place

def coreTypes (place : Pointer) : List (Schema.Core (Inner node)) → TypingM (List TypeExpr)
  | [] => return []
  | core :: rest => do
    let type ← coreType typeInner place core
    let types ← coreTypes place rest
    return type :: types

def baseType (place : Pointer) : Schema.Base (Inner node) → TypingM TypeExpr
  | .one core => coreType typeInner place core
  | .several cores => return .unionOf (← coreTypes typeInner place cores)

/-! ### Composition -/

/-- Which value of the discriminating property means the schema under a reference: the first that
the mapping leads there by the reference or by the schema's name, and without a mapping the name
itself. -/
def tagOf? (reference : String) (mapping : Option (List (String × Json))) : Option String :=
  ((Pointer.ofReference? reference).bind Pointer.last?).bind fun name =>
    match mapping with
    | none => some name
    | some entries =>
      (entries.find? fun entry =>
        entry.2.string? == some reference || entry.2.string? == some name).map (·.1)

/-- The type of an alternative together with the value that tells it apart. -/
def taggedType (property : String) (mapping : Option (List (String × Json))) (schema : Json)
    (type : TypeExpr) : TypeExpr :=
  match (Schema.reference? schema).bind (tagOf? · mapping) with
  | some tag =>
    .intersection [.object [Member.plain property (.literal (.string tag)) false], type]
  | none => type

/-- The type of alternatives, told apart where the schema says how. -/
def choiceType (place : Pointer) (inners : List (Inner node)) : TypingM TypeExpr := do
  let types ← typesOfList typeInner place 0 inners
  match Schema.discriminator? node with
  | none => return .unionOf types
  | some (property, mapping) =>
    return .unionOf (List.zipWith
      (fun (inner : Inner node) type => taggedType property mapping inner.node type) inners types)

/-- The type of the alternatives under a keyword, if there are any. -/
def choiceUnder (place : Pointer) (keyword : String) :
    Option (List (Inner node)) → TypingM (List TypeExpr)
  | none => return []
  | some inners => return [← choiceType typeInner (place.child keyword) inners]

/-- The type of the kinds of value that are named, if there are any. -/
def baseUnder (place : Pointer) : Option (Schema.Base (Inner node)) → TypingM (List TypeExpr)
  | none => return []
  | some base => return [← baseType typeInner place base]

/-- The type of the values that all listed schemas admit, if there is a list. -/
def allUnder (place : Pointer) : Option (List (Inner node)) → TypingM (List TypeExpr)
  | none => return []
  | some inners =>
    return [.intersectionOf (← typesOfList typeInner (place.child "allOf") 0 inners)]

/-- What becomes of an excluded schema, if there is one. -/
def notUnder (place : Pointer) : Option Json → TypingM (List TypeExpr)
  | none => return []
  | some _ => return [← unsupported place "`not` has no TypeScript equivalent"]

/-- The types that a composed value has all of, and whether null is among its alternatives. -/
def compositeType (composition : Schema.Composition (Inner node))
    (base : Option (Schema.Base (Inner node))) (place : Pointer) : TypingM (TypeExpr × Bool) := do
  let ofBase ← baseUnder typeInner place base
  let ofAll ← allUnder typeInner place composition.allOf
  let ofOne ← choiceUnder typeInner place "oneOf" composition.oneOf
  let ofAny ← choiceUnder typeInner place "anyOf" composition.anyOf
  let ofNot ← notUnder place composition.not
  return (.intersectionOf (ofBase ++ ofAll ++ ofOne ++ ofAny ++ ofNot),
    (ofOne ++ ofAny).any TypeExpr.includesNull)

end

/-! ### Schemas -/

/-- The type of a shape, and whether it is a choice that has null among its alternatives. -/
def shapeType {node : Json} (typeInner : TypeInner node)
    (follow : String → Pointer → TypingM TypeExpr) (place : Pointer) :
    Schema.Shape (Inner node) → TypingM (TypeExpr × Bool)
  | .any => return (.unknown none, false)
  | .nothing => return (.never, false)
  | .reference reference => return (← follow reference place, false)
  | .enumeration values => return (.unionOf (← literalTypes place values), false)
  | .enumerationWithComposition =>
    return (← ambiguous place
      "`enum` combined with a composition keyword has no agreed meaning", false)
  | .constant value => return (← literalType place value, false)
  | .composite composition base => compositeType typeInner composition base place
  | .structural base => return (← baseType typeInner place base, false)
  | .unsupported reason => return (← unsupported place reason, false)

/-- Adds null to the type of a schema that admits it, once. -/
def withNull (node : Json) (place : Pointer) (type : TypeExpr) (choiceHasNull : Bool) :
    TypingM TypeExpr :=
  if !Schema.isNullable node then return type
  else if choiceHasNull then
    ambiguous place "`nullable` combined with a `oneOf`/`anyOf` that already allows null"
  else return .unionOf [type, .null]

/-- The type of the schema at a place. `follow` gives the type for a reference written there. -/
def typeOfNode (follow : String → Pointer → TypingM TypeExpr) (node : Json) (place : Pointer) :
    TypingM TypeExpr := do
  let (type, choiceHasNull) ←
    shapeType (fun inner => typeOfNode follow inner.node) follow place (Schema.shape node)
  withNull node place type choiceHasNull
termination_by sizeOf node
decreasing_by exact inner.smaller

end ApiTypes.Typing
