import ApiTypes.Proofs.Typing.Degraded
import ApiTypes.Proofs.Typing.Run

/-!
# Typing among other effects

Typing makes its steps in a monad of its own. Here it makes them in any monad that has these steps
(`lift`), so that more may be done on the way wherever a reference is followed: what is done there
is handed in, as it is to `Typing.typeOfNode`.

`Carries` is what a relation between actions of the two monads has to be closed under, up to which
warnings the steps that only warn raise (`Quiet`). Then it holds of all of typing when it holds of
following references (`Carries.typeOfNode`).
-/

namespace ApiTypes.Typing

open Schema

/-! ## Steps that only warn -/

/-- The action raises warnings, of which all are `raised`, and changes nothing else. -/
def Quiet (raised : Warning → Prop) {α : Type} (action : TypingM α) : Prop :=
  ∀ state, ∃ more, (∀ warning ∈ more, raised warning) ∧
    (action.run.run state).2 = { state with warnings := state.warnings ++ more }

/-- The warnings about what typing gives up on are among those raised. -/
def NotesRaised (raised : Warning → Prop) : Prop :=
  ∀ {node kind note} (place : Pointer), Degrades node True kind note → raised ⟨kind, some place, note⟩

section
variable {raised : Warning → Prop} {α β : Type}

theorem Quiet.of_unchanged {action : TypingM α} (h : ∀ state, (action.run.run state).2 = state) :
    Quiet raised action := by
  intro state
  refine ⟨[], by simp, ?_⟩
  rw [h, List.append_nil]

theorem Quiet.pure (a : α) : Quiet raised (Pure.pure a) :=
  .of_unchanged fun _ => rfl

theorem Quiet.get : Quiet raised (MonadState.get : TypingM State) :=
  .of_unchanged fun _ => rfl

theorem Quiet.throw (error : CompileError) : Quiet raised (MonadExcept.throw error : TypingM α) :=
  .of_unchanged fun _ => rfl

theorem Quiet.bind {action : TypingM α} {next : α → TypingM β} (first : Quiet raised action)
    (rest : ∀ a, Quiet raised (next a)) : Quiet raised (action >>= next) := by
  intro state
  obtain ⟨more, told, changed⟩ := first state
  rcases hr : action.run.run state with ⟨error | a, after⟩
  · rw [hr] at changed
    rw [run_bind_of_error hr]
    exact ⟨more, told, changed⟩
  · rw [hr] at changed
    have changed : after = { state with warnings := state.warnings ++ more } := changed
    rw [run_bind_of_ok hr]
    obtain ⟨further, told', later⟩ := rest a after
    refine ⟨more ++ further, ?_, ?_⟩
    · intro warning hm
      exact (List.mem_append.1 hm).elim (told warning) (told' warning)
    · rw [later, changed, ← List.append_assoc]

theorem warn_quiet {kind : WarningKind} {place : Pointer} {message : String}
    (h : raised ⟨kind, some place, message⟩) : Quiet raised (warn kind place message) :=
  fun _ => ⟨_, by simpa using h, rfl⟩

theorem unsupported_quiet {place : Pointer} {reason : String}
    (h : raised ⟨.unsupportedShape, some place, reason⟩) :
    Quiet raised (unsupported place reason) :=
  (warn_quiet h).bind fun _ => .pure _

theorem ambiguous_quiet {place : Pointer} {reason : String}
    (h : raised ⟨.ambiguousShape, some place, reason⟩) : Quiet raised (ambiguous place reason) :=
  (warn_quiet h).bind fun _ => .pure _

section
variable (notes : NotesRaised raised) {node : Json} (place : Pointer)
include notes

theorem literalType_quiet {value : Json} (listed : ListedIn node value) :
    Quiet raised (literalType place value) := by
  unfold literalType
  split
  case h_6 items => exact unsupported_quiet (notes place (.value listed (.array items)))
  case h_7 fields => exact unsupported_quiet (notes place (.value listed (.object fields)))
  all_goals exact .pure _

theorem literalTypes_quiet {values : List Json} (listed : ∀ value ∈ values, ListedIn node value) :
    Quiet raised (literalTypes place values) := by
  induction values with
  | nil => exact .pure _
  | cons value rest ih =>
    have later := ih fun other hm => listed other (List.mem_cons_of_mem _ hm)
    exact (literalType_quiet notes place (listed value List.mem_cons_self)).bind fun _ =>
      later.bind fun _ => .pure _

theorem notUnder_quiet {composition : Composition (Inner node)} {base : Option (Base (Inner node))}
    (composite : shape node = .composite composition base) :
    Quiet raised (notUnder place composition.not) := by
  cases excludes : composition.not with
  | none => exact .pure _
  | some schema =>
    exact (unsupported_quiet (notes place (.excluded composite excludes))).bind fun _ => .pure _

theorem withNull_quiet (node : Json) (type : TypeExpr) (choiceHasNull : Bool) :
    Quiet raised (withNull node place type choiceHasNull) := by
  unfold withNull
  split
  · exact .pure _
  · rename_i nullable
    split
    · exact ambiguous_quiet (notes place (.null (by simpa using nullable) trivial))
    · exact .pure _

end

end

/-! ## Typing in another monad -/

namespace Lifted

section
variable {m : Type → Type} [Monad m] (lift : {α : Type} → TypingM α → m α) {node : Json}
  (typeInner : Inner node → Pointer → m TypeExpr)

def typesOfList (place : Pointer) (number : Nat) : List (Inner node) → m (List TypeExpr)
  | [] => return []
  | inner :: rest => do
    let type ← typeInner inner (place.element number)
    let types ← typesOfList place (number + 1) rest
    return type :: types

def typesOfFields (place : Pointer) : List (String × Inner node) → m (List TypeExpr)
  | [] => return []
  | (key, inner) :: rest => do
    let type ← typeInner inner (place.child key)
    let types ← typesOfFields place rest
    return type :: types

def additionalType (place : Pointer) : Additional (Inner node) → m (Option TypeExpr)
  | .absent => return none
  | .forbidden => return none
  | .any => return some (.unknown none)
  | .schema inner => do return some (← typeInner inner (place.child "additionalProperties"))

def objectType (shape : ObjectShape (Inner node)) (place : Pointer) : m TypeExpr := do
  let types ← typesOfFields typeInner (place.child "properties") (shape.properties.getD [])
  let additional ← additionalType typeInner place shape.additional
  return .object (membersOf shape types additional)

def arrayType (place : Pointer) : Items (Inner node) → m TypeExpr
  | .absent => return .array (.unknown none)
  | .single inner => do return .array (← typeInner inner (place.child "items"))
  | .tuple inners => do
    let types ← typesOfList typeInner (place.child "items") 0 inners
    return .array (.unionOf types)

def coreType (place : Pointer) : Core (Inner node) → m TypeExpr
  | .scalar kind => return scalarType kind
  | .array items => arrayType typeInner place items
  | .object shape => objectType typeInner shape place

def coreTypes (place : Pointer) : List (Core (Inner node)) → m (List TypeExpr)
  | [] => return []
  | core :: rest => do
    let type ← coreType typeInner place core
    let types ← coreTypes place rest
    return type :: types

def baseType (place : Pointer) : Base (Inner node) → m TypeExpr
  | .one core => coreType typeInner place core
  | .several cores => do return .unionOf (← coreTypes typeInner place cores)

def choiceUnder (place : Pointer) (keyword : String) :
    Option (List (Inner node)) → m (List TypeExpr)
  | none => return []
  | some inners => do
    let types ← typesOfList typeInner (place.child keyword) 0 inners
    return [.unionOf (alternativesOf node inners types)]

def baseUnder (place : Pointer) : Option (Base (Inner node)) → m (List TypeExpr)
  | none => return []
  | some base => do return [← baseType typeInner place base]

def allUnder (place : Pointer) : Option (List (Inner node)) → m (List TypeExpr)
  | none => return []
  | some inners => do
    return [.intersectionOf (← typesOfList typeInner (place.child "allOf") 0 inners)]

def compositeType (composition : Composition (Inner node)) (base : Option (Base (Inner node)))
    (place : Pointer) : m (TypeExpr × Bool) := do
  let ofBase ← baseUnder typeInner place base
  let ofAll ← allUnder typeInner place composition.allOf
  let ofOne ← choiceUnder typeInner place "oneOf" composition.oneOf
  let ofAny ← choiceUnder typeInner place "anyOf" composition.anyOf
  let ofNot ← lift (notUnder place composition.not)
  return (.intersectionOf (ofBase ++ ofAll ++ ofOne ++ ofAny ++ ofNot),
    (ofOne ++ ofAny).any TypeExpr.includesNull)

def shapeType (follow : String → Pointer → m TypeExpr) (place : Pointer) :
    Shape (Inner node) → m (TypeExpr × Bool)
  | .any => return (.unknown none, false)
  | .nothing => return (.never, false)
  | .reference reference => do return (← follow reference place, false)
  | .enumeration values => do return (.unionOf (← lift (literalTypes place values)), false)
  | .enumerationWithComposition => do
    return (← lift (ambiguous place
      "`enum` combined with a composition keyword has no agreed meaning"), false)
  | .constant value => do return (← lift (literalType place value), false)
  | .composite composition base => compositeType lift typeInner composition base place
  | .structural base => do return (← baseType typeInner place base, false)
  | .unsupported reason => do return (← lift (unsupported place reason), false)

end

section
variable {m : Type → Type} [Monad m] (lift : {α : Type} → TypingM α → m α)

/-- The type of the schema at a place. -/
def typeOfNode (follow : String → Pointer → m TypeExpr) (node : Json) (place : Pointer) :
    m TypeExpr := do
  let (type, choiceHasNull) ←
    shapeType lift (fun inner => typeOfNode follow inner.node) follow place (shape node)
  lift (withNull node place type choiceHasNull)
termination_by sizeOf node
decreasing_by exact inner.smaller

end

/-! ## Relations that typing carries on -/

/-- A relation between an action and the same action of typing, that sequencing keeps and that holds
of what only warns, if it is of what is `raised`. All that typing gives up on has to be. -/
structure Carries (raised : Warning → Prop) {m : Type → Type} [Monad m]
    (lift : {α : Type} → TypingM α → m α) (R : {α : Type} → m α → TypingM α → Prop) : Prop where
  notes : NotesRaised raised
  pure : ∀ {α : Type} (a : α), R (Pure.pure a) (Pure.pure a)
  bind : ∀ {α β : Type} {other : m α} {action : TypingM α} {next' : α → m β} {next : α → TypingM β},
    R other action → (∀ a, R (next' a) (next a)) → R (other >>= next') (action >>= next)
  quiet : ∀ {α : Type} {action : TypingM α}, Quiet raised action → R (lift action) action

namespace Carries

section
variable {raised : Warning → Prop} {m : Type → Type} [Monad m]
  {lift : {α : Type} → TypingM α → m α} {R : {α : Type} → m α → TypingM α → Prop}
  (carries : Carries raised lift R)
include carries

theorem map {α β : Type} {other : m α} {action : TypingM α} (h : R other action) (f : α → β) :
    R (do return f (← other)) (f <$> action) := by
  rw [map_eq_pure_bind]
  exact carries.bind h fun a => carries.pure (f a)

section
variable {node : Json} {typeInner' : Inner node → Pointer → m TypeExpr} {typeInner : TypeInner node}
  (inner : ∀ (i : Inner node) place, R (typeInner' i place) (typeInner i place)) (place : Pointer)
include inner

theorem typesOfList (number : Nat) (inners : List (Inner node)) :
    R (Lifted.typesOfList typeInner' place number inners)
      (Typing.typesOfList typeInner place number inners) := by
  induction inners generalizing number with
  | nil => exact carries.pure _
  | cons first rest ih =>
    apply carries.bind (inner first _)
    intro type
    apply carries.bind (ih (number + 1))
    intro types
    exact carries.pure _

theorem typesOfFields (fields : List (String × Inner node)) :
    R (Lifted.typesOfFields typeInner' place fields) (Typing.typesOfFields typeInner place fields) := by
  induction fields with
  | nil => exact carries.pure _
  | cons first rest ih =>
    obtain ⟨key, first⟩ := first
    apply carries.bind (inner first _)
    intro type
    apply carries.bind ih
    intro types
    exact carries.pure _

theorem additionalType (additional : Additional (Inner node)) :
    R (Lifted.additionalType typeInner' place additional)
      (Typing.additionalType typeInner place additional) := by
  cases additional with
  | absent | forbidden | any => exact carries.pure _
  | schema i => exact carries.map (inner i _) some

theorem objectType (shape : ObjectShape (Inner node)) :
    R (Lifted.objectType typeInner' shape place) (Typing.objectType typeInner shape place) := by
  apply carries.bind (carries.typesOfFields inner _ _)
  intro types
  apply carries.bind (carries.additionalType inner place shape.additional)
  intro additional
  exact carries.pure _

theorem coreType (core : Core (Inner node)) :
    R (Lifted.coreType typeInner' place core) (Typing.coreType typeInner place core) := by
  cases core with
  | scalar kind => exact carries.pure _
  | array items =>
    cases items with
    | absent => exact carries.pure _
    | single i => exact carries.map (inner i _) TypeExpr.array
    | tuple inners => exact carries.bind (carries.typesOfList inner _ 0 inners) fun _ => carries.pure _
  | object shape => exact carries.objectType inner place shape

theorem coreTypes (cores : List (Core (Inner node))) :
    R (Lifted.coreTypes typeInner' place cores) (Typing.coreTypes typeInner place cores) := by
  induction cores with
  | nil => exact carries.pure _
  | cons core rest ih =>
    apply carries.bind (carries.coreType inner place core)
    intro type
    apply carries.bind ih
    intro types
    exact carries.pure _

theorem baseType (base : Base (Inner node)) :
    R (Lifted.baseType typeInner' place base) (Typing.baseType typeInner place base) := by
  cases base with
  | one core => exact carries.coreType inner place core
  | several cores => exact carries.bind (carries.coreTypes inner place cores) fun _ => carries.pure _

theorem choiceUnder (keyword : String) (inners : Option (List (Inner node))) :
    R (Lifted.choiceUnder typeInner' place keyword inners)
      (Typing.choiceUnder typeInner place keyword inners) := by
  cases inners with
  | none => exact carries.pure _
  | some inners =>
    rw [choiceUnder_some]
    exact carries.bind (carries.typesOfList inner _ 0 inners) fun _ => carries.pure _

theorem baseUnder (base : Option (Base (Inner node))) :
    R (Lifted.baseUnder typeInner' place base) (Typing.baseUnder typeInner place base) := by
  cases base with
  | none => exact carries.pure _
  | some base => exact carries.bind (carries.baseType inner place base) fun _ => carries.pure _

theorem allUnder (inners : Option (List (Inner node))) :
    R (Lifted.allUnder typeInner' place inners) (Typing.allUnder typeInner place inners) := by
  cases inners with
  | none => exact carries.pure _
  | some inners => exact carries.bind (carries.typesOfList inner _ 0 inners) fun _ => carries.pure _

theorem compositeType {composition : Composition (Inner node)} {base : Option (Base (Inner node))}
    (composite : shape node = .composite composition base) :
    R (Lifted.compositeType lift typeInner' composition base place)
      (Typing.compositeType typeInner composition base place) := by
  apply carries.bind (carries.baseUnder inner place base)
  intro ofBase
  apply carries.bind (carries.allUnder inner place composition.allOf)
  intro ofAll
  apply carries.bind (carries.choiceUnder inner place "oneOf" composition.oneOf)
  intro ofOne
  apply carries.bind (carries.choiceUnder inner place "anyOf" composition.anyOf)
  intro ofAny
  apply carries.bind (carries.quiet (notUnder_quiet carries.notes place composite))
  intro ofNot
  exact carries.pure _

theorem shapeType {follow' : String → Pointer → m TypeExpr}
    {follow : String → Pointer → TypingM TypeExpr}
    (followed : ∀ reference place, R (follow' reference place) (follow reference place)) :
    R (Lifted.shapeType lift typeInner' follow' place (shape node))
      (Typing.shapeType typeInner follow place (shape node)) := by
  have alone {other : m TypeExpr} {action : TypingM TypeExpr} (h : R other action) :
      R (do return (← other, false)) (do return (← action, false)) :=
    carries.bind h fun _ => carries.pure _
  have notes : NotesRaised raised := carries.notes
  cases hs : shape node with
  | any | nothing => exact carries.pure _
  | reference reference => exact alone (followed reference place)
  | enumeration values =>
    have listed (value : Json) (hm : value ∈ values) : ListedIn node value := .inl ⟨values, hs, hm⟩
    exact carries.bind (carries.quiet (literalTypes_quiet notes place listed)) fun _ =>
      carries.pure _
  | enumerationWithComposition =>
    exact alone (carries.quiet (ambiguous_quiet (notes place (.enumeration hs))))
  | constant value => exact alone (carries.quiet (literalType_quiet notes place (.inr hs)))
  | composite composition base => exact carries.compositeType inner place hs
  | structural base => exact alone (carries.baseType inner place base)
  | unsupported reason =>
    exact alone (carries.quiet (unsupported_quiet (notes place (.unsupported hs))))

end

/-- Typing a schema, when following references is related. -/
theorem typeOfNode {follow' : String → Pointer → m TypeExpr}
    {follow : String → Pointer → TypingM TypeExpr}
    (followed : ∀ reference place, R (follow' reference place) (follow reference place))
    (node : Json) (place : Pointer) :
    R (Lifted.typeOfNode lift follow' node place) (Typing.typeOfNode follow node place) := by
  rw [Lifted.typeOfNode, Typing.typeOfNode]
  have inner (i : Inner node) (place : Pointer) :
      R (Lifted.typeOfNode lift follow' i.node place) (Typing.typeOfNode follow i.node place) :=
    typeOfNode followed i.node place
  apply carries.bind (carries.shapeType inner place followed)
  intro result
  exact carries.quiet (withNull_quiet carries.notes place node result.1 result.2)
termination_by sizeOf node
decreasing_by exact i.smaller

end
end Carries

end Lifted

end ApiTypes.Typing
