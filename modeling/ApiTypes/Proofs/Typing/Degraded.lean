import ApiTypes.Proofs.Typing.Result

/-!
# What typing gives up on

Where no type says what a schema does, its type is `unknown` with a note. `Degrades` tells which
schemas this happens to and what their notes are. There are five ways: a shape no type is known
for, a listed value that is an array or an object, an excluded schema, listed values beside
composition keywords, and null added to a choice that has it.
-/

namespace ApiTypes.Typing

open Schema

/-- A value that a schema lists, alone or among others. -/
def ListedIn (node value : Json) : Prop :=
  (∃ values, shape node = .enumeration values ∧ value ∈ values) ∨ shape node = .constant value

/-- A value with parts. No literal type is of one. -/
inductive IsCompound : Json → Prop
  | array (items : List Json) : IsCompound (.array items)
  | object (fields : List (String × Json)) : IsCompound (.object fields)

/-- A schema whose type is given up on, wholly or in a part of its own, with the kind of the warning
and the note. `choiceHasNull` stands for what it is for the schema to be a choice that has null. -/
inductive Degrades (node : Json) (choiceHasNull : Prop) : WarningKind → String → Prop
  | unsupported {reason : String} (noType : shape node = .unsupported reason) :
      Degrades node choiceHasNull .unsupportedShape reason
  | value {value : Json} (listed : ListedIn node value) (compound : IsCompound value) :
      Degrades node choiceHasNull .unsupportedShape
        "non-scalar literal values have no TypeScript literal form"
  | excluded {composition : Composition (Inner node)} {base : Option (Base (Inner node))}
      {schema : Json} (composite : shape node = .composite composition base)
      (excludes : composition.not = some schema) :
      Degrades node choiceHasNull .unsupportedShape "`not` has no TypeScript equivalent"
  | enumeration (composed : shape node = .enumerationWithComposition) :
      Degrades node choiceHasNull .ambiguousShape
        "`enum` combined with a composition keyword has no agreed meaning"
  | null (nullable : isNullable node = true) (has : choiceHasNull) :
      Degrades node choiceHasNull .ambiguousShape
        "`nullable` combined with a `oneOf`/`anyOf` that already allows null"

theorem Degrades.imp {node : Json} {choice choice' : Prop} {kind : WarningKind} {note : String}
    (himp : choice → choice') (h : Degrades node choice kind note) :
    Degrades node choice' kind note := by
  cases h with
  | unsupported noType => exact .unsupported noType
  | value listed compound => exact .value listed compound
  | excluded composite excludes => exact .excluded composite excludes
  | enumeration composed => exact .enumeration composed
  | null nullable has => exact .null nullable (himp has)

/-- Warnings about what is given up on are of these two kinds. -/
theorem Degrades.kind_eq {node : Json} {choice : Prop} {kind : WarningKind} {note : String}
    (h : Degrades node choice kind note) : kind = .unsupportedShape ∨ kind = .ambiguousShape := by
  cases h with
  | unsupported | value | excluded => exact .inl rfl
  | enumeration | null => exact .inr rfl

/-- A choice some of whose alternatives allow null, by their types in a state. -/
def ChoiceHasNull (index : Index) (state : State) (node : Json) (place : Pointer) : Prop :=
  ∃ bare, ShapeTyped (fun (inner : Inner node) => NodeTyped index state inner.node) place index
    state (shape node) bare true

theorem ChoiceHasNull.mono {index : Index} {state later : State} (grows : state.Grows later)
    {node : Json} {place : Pointer} (h : ChoiceHasNull index state node place) :
    ChoiceHasNull index later node place := by
  obtain ⟨bare, made⟩ := h
  exact ⟨bare, made.mono (fun inner => NodeTyped.mono grows inner.node) grows⟩

/-- A type with a note, that a node of the document was given up on for, and a warning of. -/
def NoteFounded (index : Index) (state : State) (note : String) : Prop :=
  ∃ kind place node, ⟨kind, some place, note⟩ ∈ state.warnings ∧ index.get? place = some node ∧
    Degrades node (ChoiceHasNull index state node place) kind note

theorem NoteFounded.mono {index : Index} {state later : State} (grows : state.Grows later)
    {note : String} (h : NoteFounded index state note) : NoteFounded index later note := by
  obtain ⟨kind, place, node, warned, stands, degrades⟩ := h
  exact ⟨kind, place, node, grows.warnings.subset warned, stands,
    degrades.imp (ChoiceHasNull.mono grows)⟩

end ApiTypes.Typing
