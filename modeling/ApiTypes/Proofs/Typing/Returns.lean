import ApiTypes.Proofs.Typing.Run

/-!
# What typing returns, step by step

An action that has a result passes through states, and what it does next depends on the state it
has come to. `Returns` names the states before and after an action, and `returns_bind_iff` takes a
sequence apart at the state between.

* `InTurn`: actions done one after another, each in the state that the one before has left;
* `typesOfList_returns_iff`, `typesOfFields_returns`: the types of listed schemas and of fields are
  made in turn;
* `ComposesBy`, `compositeType_returns_iff`: what a composed type is put together from, and in which
  states;
* `typeAt_returns_iff`: the type of a schema is that of its shape, with null or without.
-/

namespace ApiTypes.Typing

open Schema

section
variable {α β : Type}

/-- Done in the state `before`, the action returns `a` and leaves the state `after`. -/
def Returns (action : TypingM α) (before : State) (a : α) (after : State) : Prop :=
  action.run.run before = (.ok a, after)

theorem returns_pure_iff {a b : α} {before after : State} :
    Returns (pure a) before b after ↔ b = a ∧ after = before := by
  constructor
  · intro h
    cases h
    exact ⟨rfl, rfl⟩
  · rintro ⟨rfl, rfl⟩
    rfl

theorem returns_bind_iff {action : TypingM α} {next : α → TypingM β} {before after : State}
    {b : β} :
    Returns (action >>= next) before b after ↔
      ∃ a mid, Returns action before a mid ∧ Returns (next a) mid b after := by
  unfold Returns
  constructor
  · intro h
    rcases hr : action.run.run before with ⟨error | a, mid⟩
    · rw [run_bind_of_error hr] at h
      cases h
    · rw [run_bind_of_ok hr] at h
      exact ⟨a, mid, rfl, h⟩
  · rintro ⟨a, mid, first, rest⟩
    rw [run_bind_of_ok first, rest]

theorem returns_map_iff {action : TypingM α} {f : α → β} {before after : State} {b : β} :
    Returns (f <$> action) before b after ↔ ∃ a, Returns action before a after ∧ b = f a := by
  rw [map_eq_pure_bind, returns_bind_iff]
  constructor
  · rintro ⟨a, mid, first, rest⟩
    obtain ⟨rfl, rfl⟩ := returns_pure_iff.1 rest
    exact ⟨a, first, rfl⟩
  · rintro ⟨a, first, rfl⟩
    exact ⟨a, after, first, rfl⟩

/-- An action that is seen to have a result with a property returns such a result. -/
theorem exists_returns (action : TypingM α) (before : State) (check : α → Bool)
    (h : (action.run.run before).1.toOption.any check = true) :
    ∃ a after, Returns action before a after ∧ check a = true := by
  unfold Returns
  cases run : action.run.run before with
  | mk result after =>
    rw [run] at h
    cases result with
    | error error => cases h
    | ok a => exact ⟨a, after, rfl, h⟩

/-! ## One after another -/

/-- The actions for the entries of a list, each done in the state that the one before has left. -/
inductive InTurn (action : α → TypingM β) : State → List α → List β → State → Prop
  | nil {state : State} : InTurn action state [] [] state
  | cons {before mid after : State} {a : α} {b : β} {as : List α} {bs : List β}
      (first : Returns (action a) before b mid) (rest : InTurn action mid as bs after) :
      InTurn action before (a :: as) (b :: bs) after

theorem InTurn.length_eq {action : α → TypingM β} {before after : State} {as : List α} {bs : List β}
    (h : InTurn action before as bs after) : bs.length = as.length := by
  induction h with
  | nil => rfl
  | cons _ _ ih => simp [ih]

theorem InTurn.append {action : α → TypingM β} {before mid after : State} {as as' : List α}
    {bs bs' : List β} (first : InTurn action before as bs mid)
    (rest : InTurn action mid as' bs' after) :
    InTurn action before (as ++ as') (bs ++ bs') after := by
  induction first with
  | nil => exact rest
  | cons step _ ih => exact .cons step (ih rest)

end

/-! ## Parts of a schema -/

/-- Listed schemas with their places, numbered from the given number on. -/
def elementsAt (place : Pointer) (number : Nat) (items : List Json) : List (Pointer × Json) :=
  (items.zipIdx number).map fun entry => (place.element entry.2, entry.1)

/-- Schemas under keys with their places. -/
def fieldsAt (place : Pointer) (fields : List (String × Json)) : List (Pointer × Json) :=
  fields.map fun field => (place.child field.1, field.2)

theorem elementsAt_append (place : Pointer) (number : Nat) (as bs : List Json) :
    elementsAt place number (as ++ bs) =
      elementsAt place number as ++ elementsAt place (number + as.length) bs := by
  simp [elementsAt, List.zipIdx_append]

theorem mem_of_mem_elementsAt {place : Pointer} {number : Nat} {items : List Json}
    {entry : Pointer × Json} (h : entry ∈ elementsAt place number items) : entry.2 ∈ items := by
  obtain ⟨⟨item, n⟩, hm, rfl⟩ := List.mem_map.1 h
  exact List.fst_mem_of_mem_zipIdx hm

section
variable {node : Json} {typed : Json → Pointer → TypingM TypeExpr} {place : Pointer}
  {before after : State}

theorem typesOfList_returns_iff {number : Nat} {inners : List (Inner node)} {types : List TypeExpr} :
    Returns (typesOfList (fun inner => typed inner.node) place number inners) before types after ↔
    InTurn (fun entry => typed entry.2 entry.1) before
      (elementsAt place number (inners.map (·.node))) types after := by
  induction inners generalizing number before types with
  | nil =>
    constructor
    · intro h
      obtain ⟨rfl, rfl⟩ := returns_pure_iff.1 h
      exact .nil
    · intro turn
      cases turn
      exact returns_pure_iff.2 ⟨rfl, rfl⟩
  | cons inner rest ih =>
    constructor
    · intro h
      obtain ⟨type, mid, first, h⟩ := returns_bind_iff.1 h
      obtain ⟨later, last, others, h⟩ := returns_bind_iff.1 h
      obtain ⟨rfl, rfl⟩ := returns_pure_iff.1 h
      exact .cons first (ih.1 others)
    · intro turn
      cases turn with
      | cons first others =>
        exact returns_bind_iff.2 ⟨_, _, first, returns_bind_iff.2 ⟨_, _, ih.2 others, rfl⟩⟩

theorem typesOfFields_returns {fields : List (String × Inner node)} {types : List TypeExpr}
    (h : Returns (typesOfFields (fun inner => typed inner.node) place fields) before types after) :
    InTurn (fun entry => typed entry.2 entry.1) before
      (fieldsAt place (fields.map fun field => (field.1, field.2.node))) types after := by
  induction fields generalizing before types with
  | nil =>
    obtain ⟨rfl, rfl⟩ := returns_pure_iff.1 h
    exact .nil
  | cons field rest ih =>
    obtain ⟨type, mid, first, h⟩ := returns_bind_iff.1 h
    obtain ⟨later, last, others, h⟩ := returns_bind_iff.1 h
    obtain ⟨rfl, rfl⟩ := returns_pure_iff.1 h
    exact .cons first (ih others)

/-- Where a schema says how, each alternative is told apart by itself. -/
theorem alternativesOf_eq {property : String} {mapping : Option (List (String × Json))}
    (told : discriminator? node = some (property, mapping)) (inners : List (Inner node))
    (types : List TypeExpr) :
    alternativesOf node inners types =
      ((inners.map (·.node)).zip types).map fun member =>
        taggedType property mapping member.1 member.2 := by
  rw [alternativesOf, told, List.map_zip_eq_zipWith, List.zipWith_map_left]
  rfl

/-- The alternatives of a choice are typed in turn, and then told apart where the schema says
how. -/
theorem choiceUnder_returns {keyword : String} {inners : List (Inner node)} {parts : List TypeExpr}
    (h : Returns (choiceUnder (fun inner => typed inner.node) place keyword (some inners)) before
      parts after) :
    ∃ types, InTurn (fun entry => typed entry.2 entry.1) before
        (elementsAt (place.child keyword) 0 (inners.map (·.node))) types after ∧
      parts = [.unionOf (alternativesOf node inners types)] := by
  rw [choiceUnder_some] at h
  obtain ⟨types, mid, first, last⟩ := returns_bind_iff.1 h
  obtain ⟨rfl, rfl⟩ := returns_pure_iff.1 last
  exact ⟨types, typesOfList_returns_iff.1 first, rfl⟩

end

/-! ## Composition -/

/-- The types that a composed type is put together from, by what they come from: the kinds of value,
`allOf`, `oneOf`, `anyOf` and `not`. None of the lists has more than one type. -/
structure Parts where
  ofBase : List TypeExpr
  ofAll : List TypeExpr
  ofOne : List TypeExpr
  ofAny : List TypeExpr
  ofNot : List TypeExpr

namespace Parts

/-- The choices among the parts. -/
def choices (parts : Parts) : List TypeExpr :=
  parts.ofOne ++ parts.ofAny

def types (parts : Parts) : List TypeExpr :=
  parts.ofBase ++ parts.ofAll ++ parts.ofOne ++ parts.ofAny ++ parts.ofNot

end Parts

/-- The states between the parts of a composed type, each after the part it is named for. -/
structure Between where
  base : State
  all : State
  one : State
  any : State

section
variable {node : Json} (typeInner : TypeInner node) (composition : Composition (Inner node))
  (base : Option (Base (Inner node))) (place : Pointer)

/-- The parts are made in turn, in their order, each in the state that the one before has left. -/
structure ComposesBy (before : State) (between : Between) (parts : Parts) (after : State) : Prop where
  ofBase : Returns (baseUnder typeInner place base) before parts.ofBase between.base
  ofAll : Returns (allUnder typeInner place composition.allOf) between.base parts.ofAll between.all
  ofOne : Returns (choiceUnder typeInner place "oneOf" composition.oneOf) between.all parts.ofOne
    between.one
  ofAny : Returns (choiceUnder typeInner place "anyOf" composition.anyOf) between.one parts.ofAny
    between.any
  ofNot : Returns (notUnder place composition.not) between.any parts.ofNot after

/-- On the way from one state to the other the parts are made, through some states between. -/
def Composes (before : State) (parts : Parts) (after : State) : Prop :=
  ∃ between, ComposesBy typeInner composition base place before between parts after

variable {typeInner composition base place}

theorem compositeType_returns_iff {before after : State} {result : TypeExpr × Bool} :
    Returns (compositeType typeInner composition base place) before result after ↔
      ∃ parts, Composes typeInner composition base place before parts after ∧
        result = (.intersectionOf parts.types, parts.choices.any TypeExpr.includesNull) := by
  unfold compositeType Composes
  simp only [returns_bind_iff, returns_pure_iff]
  constructor
  · rintro ⟨ofBase, s₁, h₁, ofAll, s₂, h₂, ofOne, s₃, h₃, ofAny, s₄, h₄, ofNot, s₅, h₅, rfl, rfl⟩
    exact ⟨⟨ofBase, ofAll, ofOne, ofAny, ofNot⟩, ⟨⟨s₁, s₂, s₃, s₄⟩, h₁, h₂, h₃, h₄, h₅⟩, rfl⟩
  · rintro ⟨parts, ⟨⟨s₁, s₂, s₃, s₄⟩, h₁, h₂, h₃, h₄, h₅⟩, rfl⟩
    exact ⟨_, s₁, h₁, _, s₂, h₂, _, s₃, h₃, _, s₄, h₄, _, after, h₅, rfl, rfl⟩

end

/-! ## References -/

section
variable {index : Index} {path : List Pointer} {reference : String} {place : Pointer}
  {target : index.Target} {state after : State} {type : TypeExpr}
  (leads : index.resolve reference place = .ok target)
include leads

theorem typeOfReference_returns_named {name : String}
    (named : state.names.get? target.pointer = some name) :
    Returns (typeOfReference index path reference place) state (.ref name) state := by
  unfold Returns
  rw [typeOfReference, leads]
  simp only [run_get, named]
  rfl

theorem typeOfReference_returns_promoted (unnamed : state.names.get? target.pointer = none)
    (inside : target.pointer ∈ path) :
    Returns (typeOfReference index path reference place) state
      (.ref (state.promotedName target.pointer))
      { state with
        names := state.names.extended target.pointer (target.pointer.last?.getD "Schema")
        promoted := state.promoted ++ [(target.pointer, state.promotedName target.pointer)] } := by
  have cycle : target.isCycle path = true := by simpa [Index.Target.isCycle] using inside
  unfold Returns
  rw [typeOfReference, leads]
  simp only [run_get, unnamed, cycle, ↓reduceDIte]
  rw [run_bind_of_ok (run_promote target.pointer state), NameTable.assign_of_none _ unnamed]
  rfl

variable (outside : target.pointer ∉ path) (unnamed : state.names.get? target.pointer = none)
include outside unnamed

theorem typeOfReference_returns_repeated
    (recorded : state.expanded.lookup target.pointer = some type) (short : type.isSimple = true) :
    Returns (typeOfReference index path reference place) state type state := by
  have away : target.isCycle path = false := by simpa [Index.Target.isCycle] using outside
  unfold Returns
  rw [typeOfReference, leads]
  simp only [run_get, unnamed, away, recorded, short, Bool.false_eq_true, ↓reduceDIte, ↓reduceIte]
  rfl

theorem typeOfReference_returns_expanded (new : state.expanded.lookup target.pointer = none)
    (made : Returns (typeAt index (path ++ [target.pointer]) target.node target.pointer) state type
      after) :
    Returns (typeOfReference index path reference place) state type
      { after with expanded := after.expanded ++ [(target.pointer, type)] } := by
  have away : target.isCycle path = false := by simpa [Index.Target.isCycle] using outside
  unfold Returns
  rw [typeOfReference, leads]
  simp only [run_get, unnamed, away, new, Bool.false_eq_true, ↓reduceDIte]
  exact returns_bind_iff.2 ⟨type, after, made, rfl⟩
end

/-! ## Schemas -/

/-- How a schema inside another is typed, while the places on `path` are being expanded. -/
abbrev innerAt (index : Index) (path : List Pointer) {node : Json} : TypeInner node :=
  fun inner => typeAt index path inner.node

/-- Null is added, or nothing is done, or a choice with null already is given up on. -/
theorem withNull_returns {node : Json} {place : Pointer} {bare type : TypeExpr}
    {choiceHasNull : Bool} {before after : State}
    (h : Returns (withNull node place bare choiceHasNull) before type after) :
    isNullable node = false ∧ type = bare ∧ after = before ∨
    isNullable node = true ∧ choiceHasNull = false ∧ type = .unionOf [bare, .null] ∧
      after = before ∨
    isNullable node = true ∧ choiceHasNull = true ∧
      ∃ note, note = "`nullable` combined with a `oneOf`/`anyOf` that already allows null" ∧
        type = .unknown (some note) ∧
        after = { before with
          warnings := before.warnings ++ [⟨.ambiguousShape, some place, note⟩] } := by
  unfold withNull at h
  cases nullable : isNullable node with
  | false =>
    rw [nullable] at h
    exact .inl ⟨rfl, returns_pure_iff.1 h⟩
  | true =>
    rw [nullable] at h
    cases choiceHasNull with
    | false => exact .inr (.inl ⟨rfl, rfl, returns_pure_iff.1 h⟩)
    | true =>
      obtain ⟨done, warned, told, noted⟩ := returns_bind_iff.1 h
      obtain ⟨rfl, rfl⟩ := returns_pure_iff.1 noted
      cases told
      exact .inr (.inr ⟨rfl, rfl, _, rfl, rfl, rfl⟩)

theorem typeAt_returns_iff {index : Index} {path : List Pointer} {node : Json} {place : Pointer}
    {type : TypeExpr} {before after : State} :
    Returns (typeAt index path node place) before type after ↔
      ∃ bare choiceHasNull mid,
        Returns (shapeType (innerAt index path) (typeOfReference index path) place (shape node))
          before (bare, choiceHasNull) mid ∧
        Returns (withNull node place bare choiceHasNull) mid type after := by
  rw [typeAt, typeOfNode, returns_bind_iff]
  constructor
  · rintro ⟨⟨bare, choiceHasNull⟩, mid, made, last⟩
    exact ⟨bare, choiceHasNull, mid, made, last⟩
  · rintro ⟨bare, choiceHasNull, mid, made, last⟩
    exact ⟨(bare, choiceHasNull), mid, made, last⟩

/-- A schema that does not admit null besides has the type of its shape. -/
theorem typeAt_returns_of_shape {index : Index} {path : List Pointer} {node : Json} {place : Pointer}
    {type : TypeExpr} {choiceHasNull : Bool} {before after : State} (plain : isNullable node = false)
    (made : Returns (shapeType (innerAt index path) (typeOfReference index path) place (shape node))
      before (type, choiceHasNull) after) :
    Returns (typeAt index path node place) before type after := by
  refine typeAt_returns_iff.2 ⟨type, choiceHasNull, after, made, ?_⟩
  unfold withNull
  rw [plain]
  rfl

end ApiTypes.Typing
