import ApiTypes.Proofs.Typing.Bounded
import ApiTypes.Proofs.Typing.Result

/-!
# Typing on a shared path

Typing hands the places under expansion from call to call. Here all calls share one path instead:
whoever expands a target pushes its place and takes it off again when the target's type is made, or
could not be made. What looks at no place under expansion is done as before (`ofTyping`).

`nodeOn` is typing in this manner, within a bound on how deep the calls may be.
-/

namespace ApiTypes.Typing

open Schema

/-- The state of typing, and the path that all calls share. -/
structure Shared where
  state : State
  path : List Pointer

/-- A step of typing that may change the path. When it fails the state and the path are kept. -/
abbrev SharedM := ExceptT CompileError (StateM Shared)

namespace OnSharedPath

section
variable {α : Type}

/-- A step that has nothing to do with the path. -/
def ofTyping (action : TypingM α) : SharedM α :=
  ExceptT.mk fun shared =>
    let (result, state) := action.run.run shared.state
    (result, { shared with state })

def push (place : Pointer) : SharedM Unit :=
  modify fun shared => { shared with path := shared.path ++ [place] }

def pop : SharedM Unit :=
  modify fun shared => { shared with path := shared.path.dropLast }

/-- How an action ends, as a result that is looked at later. -/
def outcome (action : SharedM α) : SharedM (Except CompileError α) :=
  ExceptT.lift action.run

/-- An action with a place on the path. The place is taken off again, also when the action fails. -/
def whileOn (place : Pointer) (action : SharedM α) : SharedM α := do
  push place
  let result ← outcome action
  pop
  liftExcept result

end

/-- The type for a reference, when `expand` gives the type of a target. -/
def referenceOn (index : Index) (expand : Json → Pointer → SharedM TypeExpr) (reference : String)
    (place : Pointer) : SharedM TypeExpr := do
  match index.resolve reference place with
  | .error error => throw error
  | .ok target =>
    let shared ← get
    match shared.state.names.get? target.pointer with
    | some name => return .ref name
    | none =>
      if target.isCycle shared.path then return .ref (← ofTyping (promote target.pointer))
      else
        match shared.state.expanded.lookup target.pointer with
        | some type =>
          if type.isSimple then return type else return .ref (← ofTyping (promote target.pointer))
        | none =>
          let type ← whileOn target.pointer (expand target.node target.pointer)
          ofTyping (recordExpansion target.pointer type)
          return type

section
variable {node : Json} (typeInner : Inner node → Pointer → SharedM TypeExpr)

def typesOfList (place : Pointer) (number : Nat) : List (Inner node) → SharedM (List TypeExpr)
  | [] => return []
  | inner :: rest => do
    let type ← typeInner inner (place.element number)
    let types ← typesOfList place (number + 1) rest
    return type :: types

def typesOfFields (place : Pointer) : List (String × Inner node) → SharedM (List TypeExpr)
  | [] => return []
  | (key, inner) :: rest => do
    let type ← typeInner inner (place.child key)
    let types ← typesOfFields place rest
    return type :: types

def additionalType (place : Pointer) : Additional (Inner node) → SharedM (Option TypeExpr)
  | .absent => return none
  | .forbidden => return none
  | .any => return some (.unknown none)
  | .schema inner => some <$> typeInner inner (place.child "additionalProperties")

def objectType (shape : ObjectShape (Inner node)) (place : Pointer) : SharedM TypeExpr := do
  let types ← typesOfFields typeInner (place.child "properties") (shape.properties.getD [])
  let additional ← additionalType typeInner place shape.additional
  return .object (membersOf shape types additional)

def arrayType (place : Pointer) : Items (Inner node) → SharedM TypeExpr
  | .absent => return .array (.unknown none)
  | .single inner => .array <$> typeInner inner (place.child "items")
  | .tuple inners => do
    let types ← typesOfList typeInner (place.child "items") 0 inners
    return .array (.unionOf types)

def coreType (place : Pointer) : Core (Inner node) → SharedM TypeExpr
  | .scalar kind => return scalarType kind
  | .array items => arrayType typeInner place items
  | .object shape => objectType typeInner shape place

def coreTypes (place : Pointer) : List (Core (Inner node)) → SharedM (List TypeExpr)
  | [] => return []
  | core :: rest => do
    let type ← coreType typeInner place core
    let types ← coreTypes place rest
    return type :: types

def baseType (place : Pointer) : Base (Inner node) → SharedM TypeExpr
  | .one core => coreType typeInner place core
  | .several cores => return .unionOf (← coreTypes typeInner place cores)

def choiceUnder (place : Pointer) (keyword : String) :
    Option (List (Inner node)) → SharedM (List TypeExpr)
  | none => return []
  | some inners => do
    let types ← typesOfList typeInner (place.child keyword) 0 inners
    return [.unionOf (alternativesOf node inners types)]

def baseUnder (place : Pointer) : Option (Base (Inner node)) → SharedM (List TypeExpr)
  | none => return []
  | some base => return [← baseType typeInner place base]

def allUnder (place : Pointer) : Option (List (Inner node)) → SharedM (List TypeExpr)
  | none => return []
  | some inners =>
    return [.intersectionOf (← typesOfList typeInner (place.child "allOf") 0 inners)]

def compositeType (composition : Composition (Inner node)) (base : Option (Base (Inner node)))
    (place : Pointer) : SharedM (TypeExpr × Bool) := do
  let ofBase ← baseUnder typeInner place base
  let ofAll ← allUnder typeInner place composition.allOf
  let ofOne ← choiceUnder typeInner place "oneOf" composition.oneOf
  let ofAny ← choiceUnder typeInner place "anyOf" composition.anyOf
  let ofNot ← ofTyping (notUnder place composition.not)
  return (.intersectionOf (ofBase ++ ofAll ++ ofOne ++ ofAny ++ ofNot),
    (ofOne ++ ofAny).any TypeExpr.includesNull)

def shapeType (follow : String → Pointer → SharedM TypeExpr) (place : Pointer) :
    Shape (Inner node) → SharedM (TypeExpr × Bool)
  | .reference reference => return (← follow reference place, false)
  | .composite composition base => compositeType typeInner composition base place
  | .structural base => return (← baseType typeInner place base, false)
  | .any => return (.unknown none, false)
  | .nothing => return (.never, false)
  | .enumeration values => return (.unionOf (← ofTyping (literalTypes place values)), false)
  | .enumerationWithComposition =>
    return (← ofTyping (ambiguous place
      "`enum` combined with a composition keyword has no agreed meaning"), false)
  | .constant value => return (← ofTyping (literalType place value), false)
  | .unsupported reason => return (← ofTyping (unsupported place reason), false)

end

/-- The type of the schema at a place, by no more than `bound` calls inside one another. -/
def nodeOn (index : Index) (alarm : CompileError) : (bound : Nat) → Json → Pointer → SharedM TypeExpr
  | 0, _, _ => throw alarm
  | bound + 1, node, place => do
    let (type, choiceHasNull) ←
      shapeType (fun inner : Inner node => nodeOn index alarm bound inner.node)
        (referenceOn index (nodeOn index alarm bound)) place (shape node)
    ofTyping (withNull node place type choiceHasNull)

end OnSharedPath

end ApiTypes.Typing
