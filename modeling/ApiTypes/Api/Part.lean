import ApiTypes.Api.Operation
import ApiTypes.Typing.Reference

/-!
The types of responses, request bodies and parameters. Each is the type of one schema inside the
part; which one depends on the kind of part, the dialect and the media types offered.
-/

namespace ApiTypes.Api

open Typing

/-- A media type without its parameters. -/
def mediaEssence (mediaType : String) : List Char :=
  (Text.trim (mediaType.toList.takeWhile (· != ';'))).map Char.toLower

/-- The media type that gives the type: JSON, else a format based on JSON, else the first. -/
def selectMedia? (content : List (String × Json)) : Option (String × Json) :=
  (content.find? fun entry => mediaEssence entry.1 == "application/json".toList).or <|
    (content.find? fun entry => "+json".toList.isSuffixOf (mediaEssence entry.1)).or content.head?

/-- The schema under `content` that gives the type. `none` means that no content is offered, and
an inner `none` that it has no schema. -/
def contentSchema? (here : Located) : Option (Option Located) :=
  (((here.node.get? "content").bind Json.object?).bind selectMedia?).map
    fun (mediaType, media) =>
      (media.get? "schema").map fun schema =>
        ⟨((here.place.child "content").child mediaType).child "schema", schema⟩

/-- Where the type of a part comes from. -/
inductive TypeSource
  | schema (schema : Located)
  /-- There is no schema, and this is the type. -/
  | fixed (type : TypeExpr)

/-- The source of the type of a part that offers content, or nothing. -/
def contentSource (here : Located) (empty : TypeExpr) : TypeSource :=
  match contentSchema? here with
  | some (some schema) => .schema schema
  | some none => .fixed (.unknown none)
  | none => .fixed empty

/-- The schema right under `schema`. -/
def directSchema? (here : Located) : Option Located :=
  (here.node.get? "schema").map fun schema => ⟨here.place.child "schema", schema⟩

/-- The source of the type of a part. A parameter of version 2 may be a schema itself. -/
def typeSource (dialect : Dialect) (part : Part) (here : Located) : TypeSource :=
  match part with
  | .response =>
    match dialect with
    | .openApi3 => contentSource here .never
    | .swagger2 =>
      match directSchema? here with
      | some schema => .schema schema
      | none => .fixed .never
  | .requestBody => contentSource here (.unknown none)
  | .parameter =>
    match directSchema? here with
    | some schema => .schema schema
    | none =>
      match contentSchema? here, dialect with
      | some (some schema), _ => .schema schema
      | some none, _ => .fixed (.unknown none)
      | none, .swagger2 => .schema here
      | none, .openApi3 => .fixed (.unknown none)

/-- The type of a part written somewhere. A part that refers to a named one is that name. -/
def partType (index : Index) (dialect : Dialect) (part : Part) (written : Located) :
    TypingM TypeExpr := do
  let names := (← get).names
  match followChain index names.get? [] written with
  | .error error => throw error
  | .ok (.inl name) => return .ref name
  | .ok (.inr here) =>
    match typeSource dialect part here with
    | .schema schema => typeOfRoot index schema.node schema.place
    | .fixed type => return type

/-! ### Parameters of an operation -/

/-- The locations that parameters are grouped by, in the order of the groups. -/
def parameterLocations : List String :=
  ["path", "query", "header", "cookie", "formData"]

/-- A parameter with its type. -/
structure TypedParameter where
  parameter : Parameter
  type : TypeExpr

/-- The member for a parameter. -/
def TypedParameter.member (typed : TypedParameter) : Member :=
  .property typed.parameter.name typed.type (!typed.parameter.required) false typed.parameter.doc

/-- Types parameters in order. One with an unknown location is warned about and left out. -/
def typedParameters (index : Index) (dialect : Dialect) :
    List Parameter → TypingM (List TypedParameter)
  | [] => return []
  | parameter :: rest => do
    if parameterLocations.contains parameter.location then
      let type ← partType index dialect .parameter parameter.written
      let later ← typedParameters index dialect rest
      return ⟨parameter, type⟩ :: later
    else
      warn .unsupportedShape parameter.written.place
        ("unknown parameter location `" ++ parameter.location ++ "`")
      typedParameters index dialect rest

/-- The group of the parameters with one location. It may be left out when all of them may. -/
def parameterGroup? (parameters : List TypedParameter) (location : String) : Option Member :=
  let group := parameters.filter fun typed => typed.parameter.location == location
  if group.isEmpty then none
  else
    some (.plain location (.object (group.map TypedParameter.member))
      (!group.any fun typed => typed.parameter.required))

/-- The type of all parameters of an operation, by location. -/
def parametersType (index : Index) (dialect : Dialect) (parameters : List Parameter) :
    TypingM TypeExpr := do
  let typed ← typedParameters index dialect parameters
  return .object (parameterLocations.filterMap (parameterGroup? typed))

end ApiTypes.Api
