import ApiTypes.Typing.Reference
import ApiTypes.Proofs.Name
import Mathlib.Data.List.Forall2

/-!
# What typing makes of a schema

`NodeTyped index state node place type` says that `type` is what typing makes of the schema
`node` at `place`, judged by a state: references are the names given or the types recorded in
that state, and every note stands among its warnings. It follows the shape of the schema and
nothing else, so what holds of all results of typing is proved from it by induction on the
schema, without running anything.

* `NodeTyped.mono`: what was a result stays one as the state grows;
* `nodeTyped_iff`: the one case there is, over the shape of the schema.
-/

namespace ApiTypes.Typing

open Schema

/-- Names, warnings and recorded types only ever come in addition. -/
structure State.Grows (state later : State) : Prop where
  names : state.names.entries <+: later.names.entries
  promoted : state.promoted <+: later.promoted
  warnings : state.warnings <+: later.warnings
  expanded : state.expanded <+: later.expanded

theorem State.Grows.refl (state : State) : state.Grows state :=
  ⟨List.prefix_rfl, List.prefix_rfl, List.prefix_rfl, List.prefix_rfl⟩

theorem State.Grows.trans {a b c : State} (hab : a.Grows b) (hbc : b.Grows c) : a.Grows c :=
  ⟨hab.names.trans hbc.names, hab.promoted.trans hbc.promoted, hab.warnings.trans hbc.warnings,
    hab.expanded.trans hbc.expanded⟩

section
variable (state : State)

theorem State.grows_warn (warning : Warning) :
    state.Grows { state with warnings := state.warnings ++ [warning] } :=
  { State.Grows.refl state with warnings := List.prefix_append _ _ }

theorem State.grows_promote (place : Pointer) (base name : String) :
    state.Grows { state with
      names := state.names.extended place base
      promoted := state.promoted ++ [(place, name)] } :=
  { State.Grows.refl state with
    names := List.prefix_append _ _
    promoted := List.prefix_append _ _ }

theorem State.grows_record (place : Pointer) (type : TypeExpr) :
    state.Grows { state with expanded := state.expanded ++ [(place, type)] } :=
  { State.Grows.refl state with expanded := List.prefix_append _ _ }

end

section
variable (state : State)

/-- Any value, with a note that was warned about. -/
def Noted (kind : WarningKind) (place : Pointer) (note : String) (type : TypeExpr) : Prop :=
  type = .unknown (some note) ∧ ⟨kind, some place, note⟩ ∈ state.warnings

/-- The type of a listed value. -/
def LiteralTyped (place : Pointer) (value : Json) (type : TypeExpr) : Prop :=
  match value with
  | .null => type = .null
  | .bool value => type = .literal (.bool value)
  | .number (.int value) =>
    type = .literal (if -Int.pow 2 63 ≤ value ∧ value < Int.pow 2 63 then .int value
      else .number (Binary64.ofInt value))
  | .number (.float value) => type = .literal (.number value)
  | .string value => type = .literal (.string value)
  | .array _ | .object _ =>
    Noted state .unsupportedShape place
      "non-scalar literal values have no TypeScript literal form" type

/-- The type for a reference that leads to a place: its name, or the type recorded for it. -/
def TargetTyped (target : Pointer) (type : TypeExpr) : Prop :=
  (∃ name, state.names.get? target = some name ∧ type = .ref name) ∨
    (target, type) ∈ state.expanded

/-- The type for a reference. -/
def ReferenceTyped (index : Index) (reference : String) (type : TypeExpr) : Prop :=
  ∃ target, (Pointer.ofReference? reference).bind index.locate? = some target ∧
    TargetTyped state target.pointer type

end

/-- A relation of schemas inside a node, by their places, to types. -/
abbrev InnerTyped (node : Json) := Inner node → Pointer → TypeExpr → Prop

section
variable {node : Json} (typed : InnerTyped node) (place : Pointer)

/-- The types of listed schemas, placed by their numbers from the given one on. -/
inductive ListTyped : Nat → List (Inner node) → List TypeExpr → Prop
  | nil {number : Nat} : ListTyped number [] []
  | cons {number : Nat} {inner : Inner node} {type : TypeExpr} {inners : List (Inner node)}
      {types : List TypeExpr} (first : typed inner (place.element number) type)
      (rest : ListTyped (number + 1) inners types) :
      ListTyped number (inner :: inners) (type :: types)

/-- The types of the schemas in fields, placed by their keys. -/
inductive FieldsTyped : List (String × Inner node) → List TypeExpr → Prop
  | nil : FieldsTyped [] []
  | cons {key : String} {inner : Inner node} {type : TypeExpr}
      {fields : List (String × Inner node)} {types : List TypeExpr}
      (first : typed inner (place.child key) type) (rest : FieldsTyped fields types) :
      FieldsTyped ((key, inner) :: fields) (type :: types)

def AdditionalTyped (additional : Additional (Inner node)) (type : Option TypeExpr) : Prop :=
  match additional with
  | .absent | .forbidden => type = none
  | .any => type = some (.unknown none)
  | .schema inner => ∃ t, type = some t ∧ typed inner (place.child "additionalProperties") t

/-- The members of an object type, from the types of its properties and of its other keys. -/
def membersOf (shape : ObjectShape (Inner node)) (types : List TypeExpr)
    (additional : Option TypeExpr) : List Member :=
  let fields := shape.properties.getD []
  let required := requiredKeys shape.required
  List.zipWith
      (fun (field : String × Inner node) type => propertyOf required field.1 field.2.node type)
      fields types ++
    additional.toList.map fun value =>
      Member.index .string
        (widenIndex value types (fields.any fun field => !required.contains field.1))

def ObjectTyped (shape : ObjectShape (Inner node)) (type : TypeExpr) : Prop :=
  ∃ types additional, FieldsTyped typed (place.child "properties") (shape.properties.getD []) types ∧
    AdditionalTyped typed place shape.additional additional ∧
    type = .object (membersOf shape types additional)

def ItemsTyped (items : Items (Inner node)) (type : TypeExpr) : Prop :=
  match items with
  | .absent => type = .array (.unknown none)
  | .single inner => ∃ t, type = .array t ∧ typed inner (place.child "items") t
  | .tuple inners =>
    ∃ types, ListTyped typed (place.child "items") 0 inners types ∧ type = .array (.unionOf types)

def CoreTyped (core : Core (Inner node)) (type : TypeExpr) : Prop :=
  match core with
  | .scalar kind => type = scalarType kind
  | .array items => ItemsTyped typed place items type
  | .object shape => ObjectTyped typed place shape type

def BaseTyped (base : Base (Inner node)) (type : TypeExpr) : Prop :=
  match base with
  | .one core => CoreTyped typed place core type
  | .several cores =>
    ∃ types, List.Forall₂ (CoreTyped typed place) cores types ∧ type = .unionOf types

/-- The types of alternatives, told apart where the schema says how. -/
def alternativesOf (node : Json) (inners : List (Inner node)) (types : List TypeExpr) :
    List TypeExpr :=
  match discriminator? node with
  | none => types
  | some (property, mapping) =>
    List.zipWith (fun (inner : Inner node) type => taggedType property mapping inner.node type)
      inners types

/-- A choice takes its alternatives in turn, and then tells them apart. -/
theorem choiceUnder_some (typeInner : TypeInner node) (keyword : String)
    (inners : List (Inner node)) :
    choiceUnder typeInner place keyword (some inners) = do
      let types ← typesOfList typeInner (place.child keyword) 0 inners
      return [.unionOf (alternativesOf node inners types)] := by
  unfold choiceUnder choiceType alternativesOf
  cases discriminator? node with
  | none => simp
  | some named => simp

def ChoiceUnderTyped (keyword : String) (inners : Option (List (Inner node)))
    (types : List TypeExpr) : Prop :=
  match inners with
  | none => types = []
  | some inners =>
    ∃ ts, ListTyped typed (place.child keyword) 0 inners ts ∧
      types = [.unionOf (alternativesOf node inners ts)]

def AllUnderTyped (inners : Option (List (Inner node))) (types : List TypeExpr) : Prop :=
  match inners with
  | none => types = []
  | some inners =>
    ∃ ts, ListTyped typed (place.child "allOf") 0 inners ts ∧ types = [.intersectionOf ts]

def BaseUnderTyped (base : Option (Base (Inner node))) (types : List TypeExpr) : Prop :=
  match base with
  | none => types = []
  | some base => ∃ type, BaseTyped typed place base type ∧ types = [type]

def NotUnderTyped (state : State) (place : Pointer) (schema : Option Json) (types : List TypeExpr) : Prop :=
  match schema with
  | none => types = []
  | some _ =>
    ∃ type, Noted state .unsupportedShape place "`not` has no TypeScript equivalent" type ∧
      types = [type]

def CompositeTyped (state : State) (composition : Composition (Inner node))
    (base : Option (Base (Inner node))) (type : TypeExpr) (choiceHasNull : Bool) : Prop :=
  ∃ ofBase ofAll ofOne ofAny ofNot, BaseUnderTyped typed place base ofBase ∧
    AllUnderTyped typed place composition.allOf ofAll ∧
    ChoiceUnderTyped typed place "oneOf" composition.oneOf ofOne ∧
    ChoiceUnderTyped typed place "anyOf" composition.anyOf ofAny ∧
    NotUnderTyped state place composition.not ofNot ∧
    type = .intersectionOf (ofBase ++ ofAll ++ ofOne ++ ofAny ++ ofNot) ∧
    choiceHasNull = (ofOne ++ ofAny).any TypeExpr.includesNull

/-- The type of a shape, and whether it is a choice that has null among its alternatives. -/
def ShapeTyped (index : Index) (state : State) (shape : Shape (Inner node)) (type : TypeExpr)
    (choiceHasNull : Bool) : Prop :=
  match shape with
  | .composite composition base =>
    CompositeTyped typed place state composition base type choiceHasNull
  | .any => type = .unknown none ∧ choiceHasNull = false
  | .nothing => type = .never ∧ choiceHasNull = false
  | .reference reference => ReferenceTyped state index reference type ∧ choiceHasNull = false
  | .enumeration values =>
    (∃ types, List.Forall₂ (LiteralTyped state place) values types ∧ type = .unionOf types) ∧
      choiceHasNull = false
  | .enumerationWithComposition =>
    Noted state .ambiguousShape place
      "`enum` combined with a composition keyword has no agreed meaning" type ∧
      choiceHasNull = false
  | .constant value => LiteralTyped state place value type ∧ choiceHasNull = false
  | .structural base => BaseTyped typed place base type ∧ choiceHasNull = false
  | .unsupported reason =>
    Noted state .unsupportedShape place reason type ∧ choiceHasNull = false

end

/-- What becomes of the type of a schema that may admit null besides. -/
def NullTyped (state : State) (node : Json) (place : Pointer) (bare : TypeExpr)
    (choiceHasNull : Bool) (type : TypeExpr) : Prop :=
  if isNullable node then
    if choiceHasNull then
      Noted state .ambiguousShape place
        "`nullable` combined with a `oneOf`/`anyOf` that already allows null" type
    else type = .unionOf [bare, .null]
  else type = bare

/-- `type` is what typing makes of the schema `node` at `place`, judged by `state`. -/
def NodeTyped (index : Index) (state : State) (node : Json) (place : Pointer)
    (type : TypeExpr) : Prop :=
  ∃ bare choiceHasNull,
    ShapeTyped (fun (inner : Inner node) => NodeTyped index state inner.node) place index state
      (shape node) bare choiceHasNull ∧
    NullTyped state node place bare choiceHasNull type
termination_by sizeOf node
decreasing_by exact inner.smaller

theorem nodeTyped_iff {index : Index} {state : State} {node : Json} {place : Pointer}
    {type : TypeExpr} : NodeTyped index state node place type ↔
      ∃ bare choiceHasNull,
        ShapeTyped (fun (inner : Inner node) => NodeTyped index state inner.node) place index state
          (shape node) bare choiceHasNull ∧
        NullTyped state node place bare choiceHasNull type := by
  rw [NodeTyped]

section
variable {node : Json} {typed : InnerTyped node} {place : Pointer}

theorem ListTyped.forall₂ {number : Nat}
    {inners : List (Inner node)} {types : List TypeExpr}
    (h : ListTyped typed place number inners types) :
    List.Forall₂ (fun inner type => ∃ p, typed inner p type) inners types := by
  induction h with
  | nil => exact .nil
  | cons first _ ih => exact .cons ⟨_, first⟩ ih

theorem FieldsTyped.forall₂ {fields : List (String × Inner node)} {types : List TypeExpr}
    (h : FieldsTyped typed place fields types) :
    List.Forall₂ (fun field type => ∃ p, typed field.2 p type) fields types := by
  induction h with
  | nil => exact .nil
  | cons first _ ih => exact .cons ⟨_, first⟩ ih

end

/-! ## Results stay results -/

section
variable {state later : State} (grows : state.Grows later) {place : Pointer}
include grows

theorem Noted.mono {kind : WarningKind} {note : String} {type : TypeExpr}
    (h : Noted state kind place note type) : Noted later kind place note type :=
  ⟨h.1, grows.warnings.subset h.2⟩

theorem LiteralTyped.mono {value : Json} {type : TypeExpr}
    (h : LiteralTyped state place value type) : LiteralTyped later place value type := by
  unfold LiteralTyped at h ⊢
  split at h
  · exact h
  · exact h
  · exact h
  · exact h
  · exact h
  · exact Noted.mono grows h
  · exact Noted.mono grows h

theorem TargetTyped.mono {type : TypeExpr} (h : TargetTyped state place type) :
    TargetTyped later place type := by
  rcases h with ⟨name, hn, ht⟩ | h
  · exact .inl ⟨name, NameTable.get?_mono grows.names hn, ht⟩
  · exact .inr (grows.expanded.subset h)

theorem ReferenceTyped.mono {index : Index} {reference : String} {type : TypeExpr}
    (h : ReferenceTyped state index reference type) :
    ReferenceTyped later index reference type := by
  obtain ⟨target, ht, h⟩ := h
  exact ⟨target, ht, h.mono grows⟩

end

section
variable {node : Json} {typed typed' : InnerTyped node}
  (h : ∀ inner place type, typed inner place type → typed' inner place type) {place : Pointer}
include h

theorem ListTyped.imp {number : Nat} {inners : List (Inner node)} {types : List TypeExpr}
    (hl : ListTyped typed place number inners types) :
    ListTyped typed' place number inners types := by
  induction hl with
  | nil => exact .nil
  | cons first _ ih => exact .cons (h _ _ _ first) ih

theorem FieldsTyped.imp {fields : List (String × Inner node)} {types : List TypeExpr}
    (hf : FieldsTyped typed place fields types) : FieldsTyped typed' place fields types := by
  induction hf with
  | nil => exact .nil
  | cons first _ ih => exact .cons (h _ _ _ first) ih

theorem AdditionalTyped.imp {additional : Additional (Inner node)} {type : Option TypeExpr}
    (ha : AdditionalTyped typed place additional type) :
    AdditionalTyped typed' place additional type := by
  cases additional with
  | schema inner =>
    obtain ⟨t, ht, hi⟩ := ha
    exact ⟨t, ht, h _ _ _ hi⟩
  | _ => exact ha

theorem ItemsTyped.imp {items : Items (Inner node)} {type : TypeExpr}
    (hi : ItemsTyped typed place items type) : ItemsTyped typed' place items type := by
  cases items with
  | absent => exact hi
  | single inner =>
    obtain ⟨t, ht, hi⟩ := hi
    exact ⟨t, ht, h _ _ _ hi⟩
  | tuple inners =>
    obtain ⟨types, hl, ht⟩ := hi
    exact ⟨types, hl.imp h, ht⟩

theorem CoreTyped.imp {core : Core (Inner node)} {type : TypeExpr}
    (hc : CoreTyped typed place core type) : CoreTyped typed' place core type := by
  cases core with
  | scalar kind => exact hc
  | array items => exact ItemsTyped.imp h hc
  | object shape =>
    obtain ⟨types, additional, hf, ha, ht⟩ := hc
    exact ⟨types, additional, hf.imp h, ha.imp h, ht⟩

theorem BaseTyped.imp {base : Base (Inner node)} {type : TypeExpr}
    (hb : BaseTyped typed place base type) : BaseTyped typed' place base type := by
  cases base with
  | one core => exact CoreTyped.imp h hb
  | several cores =>
    obtain ⟨types, hc, ht⟩ := hb
    exact ⟨types, hc.imp fun _ _ hc => hc.imp h, ht⟩

theorem ChoiceUnderTyped.imp {keyword : String} {inners : Option (List (Inner node))}
    {types : List TypeExpr} (hc : ChoiceUnderTyped typed place keyword inners types) :
    ChoiceUnderTyped typed' place keyword inners types := by
  cases inners with
  | none => exact hc
  | some inners =>
    obtain ⟨ts, hl, ht⟩ := hc
    exact ⟨ts, hl.imp h, ht⟩

theorem AllUnderTyped.imp {inners : Option (List (Inner node))} {types : List TypeExpr}
    (ha : AllUnderTyped typed place inners types) : AllUnderTyped typed' place inners types := by
  cases inners with
  | none => exact ha
  | some inners =>
    obtain ⟨ts, hl, ht⟩ := ha
    exact ⟨ts, hl.imp h, ht⟩

theorem BaseUnderTyped.imp {base : Option (Base (Inner node))} {types : List TypeExpr}
    (hb : BaseUnderTyped typed place base types) :
    BaseUnderTyped typed' place base types := by
  cases base with
  | none => exact hb
  | some base =>
    obtain ⟨type, hb, ht⟩ := hb
    exact ⟨type, hb.imp h, ht⟩

theorem ShapeTyped.mono {index : Index} {state later : State} (grows : state.Grows later)
    {shape : Shape (Inner node)} {type : TypeExpr} {choiceHasNull : Bool}
    (hs : ShapeTyped typed place index state shape type choiceHasNull) :
    ShapeTyped typed' place index later shape type choiceHasNull := by
  cases shape with
  | any | nothing => exact hs
  | reference reference => exact ⟨hs.1.mono grows, hs.2⟩
  | enumeration values =>
    obtain ⟨⟨types, hl, ht⟩, hn⟩ := hs
    exact ⟨⟨types, hl.imp fun _ _ hl => hl.mono grows, ht⟩, hn⟩
  | enumerationWithComposition => exact ⟨hs.1.mono grows, hs.2⟩
  | constant value => exact ⟨hs.1.mono grows, hs.2⟩
  | composite composition base =>
    obtain ⟨ofBase, ofAll, ofOne, ofAny, ofNot, hb, ha, ho, hy, hn, ht⟩ := hs
    refine ⟨ofBase, ofAll, ofOne, ofAny, ofNot, hb.imp h, ha.imp h, ho.imp h, hy.imp h, ?_, ht⟩
    unfold NotUnderTyped at hn ⊢
    split at hn
    · exact hn
    · obtain ⟨type, hn, ht⟩ := hn
      exact ⟨type, hn.mono grows, ht⟩
  | structural base => exact ⟨hs.1.imp h, hs.2⟩
  | unsupported reason => exact ⟨hs.1.mono grows, hs.2⟩

end

theorem NullTyped.mono {state later : State} (grows : state.Grows later) {node : Json}
    {place : Pointer} {bare type : TypeExpr} {choiceHasNull : Bool}
    (h : NullTyped state node place bare choiceHasNull type) :
    NullTyped later node place bare choiceHasNull type := by
  unfold NullTyped at h ⊢
  split
  · rename_i hn
    rw [if_pos hn] at h
    split
    · rename_i hc
      rw [if_pos hc] at h
      exact h.mono grows
    · rename_i hc
      rwa [if_neg hc] at h
  · rename_i hn
    rwa [if_neg hn] at h

theorem NodeTyped.mono {index : Index} {state later : State} (grows : state.Grows later)
    (node : Json) (place : Pointer) (type : TypeExpr) (h : NodeTyped index state node place type) :
    NodeTyped index later node place type := by
  obtain ⟨bare, choiceHasNull, hs, hn⟩ := nodeTyped_iff.1 h
  refine nodeTyped_iff.2 ⟨bare, choiceHasNull, hs.mono (fun inner => ?_) grows, hn.mono grows⟩
  exact NodeTyped.mono grows inner.node
termination_by sizeOf node
decreasing_by exact inner.smaller

end ApiTypes.Typing
