import ApiTypes.Proofs.Api.Plan
import ApiTypes.Proofs.Typing.Run

/-!
# The types of parts

A part is typed by the schema inside the part that its references lead to, unless they pass a
place that has a name: then its type is that name. `PartTyped` and `ParametersTyped` say what the
types of parts and of the parameters of an operation are, `partType_yields` and
`parametersType_yields` that typing makes these.
-/

namespace ApiTypes.Api

open Typing Relation

section
variable {index : Index} {here : Located}

/-! ## Where the type comes from -/

theorem selectMedia?_mem {content : List (String × Json)} {entry : String × Json}
    (h : selectMedia? content = some entry) : entry ∈ content := by
  unfold selectMedia? at h
  rcases Option.or_eq_some_iff.1 h with h | ⟨-, h⟩
  · exact List.mem_of_find?_eq_some h
  · rcases Option.or_eq_some_iff.1 h with h | ⟨-, h⟩
    · exact List.mem_of_find?_eq_some h
    · exact List.mem_of_mem_head? h

theorem contentSchema?_stands {schema : Located} (stands : here.Stands index)
    (h : contentSchema? here = some (some schema)) : schema.Stands index := by
  unfold contentSchema? at h
  obtain ⟨⟨mediaType, media⟩, hm, hs⟩ := Option.map_eq_some_iff.1 h
  obtain ⟨fields, hf, hm⟩ := Option.bind_eq_some_iff.1 hm
  obtain ⟨node, hn, rfl⟩ := Option.map_eq_some_iff.1 hs
  obtain ⟨fields_stand, -⟩ := Index.fieldsUnder_stand "content" stands rfl
  rw [hf] at fields_stand
  exact Index.get?_key (fields_stand _ (selectMedia?_mem hm)) hn

theorem directSchema?_stands {schema : Located} (stands : here.Stands index)
    (h : directSchema? here = some schema) : schema.Stands index := by
  obtain ⟨node, hn, rfl⟩ := Option.map_eq_some_iff.1 h
  exact Index.get?_key stands hn

/-- A source is a schema of the document, or one of two types. -/
def TypeSource.Stands (index : Index) : TypeSource → Prop
  | .schema found => found.Stands index
  | .fixed type => type = .never ∨ type = .unknown none

theorem contentSource_stands {empty : TypeExpr} (stands : here.Stands index)
    (h : empty = .never ∨ empty = .unknown none) : (contentSource here empty).Stands index := by
  unfold contentSource
  split
  · rename_i schema hs
    exact contentSchema?_stands stands hs
  · exact .inr rfl
  · exact h

theorem typeSource_stands (dialect : Dialect) (part : Part) (stands : here.Stands index) :
    (typeSource dialect part here).Stands index := by
  cases part with
  | response =>
    cases dialect with
    | openApi3 => exact contentSource_stands stands (.inl rfl)
    | swagger2 =>
      unfold typeSource
      dsimp only
      split
      · rename_i schema hs
        exact directSchema?_stands stands hs
      · exact .inl rfl
  | requestBody => exact contentSource_stands stands (.inr rfl)
  | parameter =>
    unfold typeSource
    dsimp only
    split
    · rename_i schema hs
      exact directSchema?_stands stands hs
    · split
      · rename_i schema hs
        exact contentSchema?_stands stands hs
      · exact .inr rfl
      · exact stands
      · exact .inr rfl

end

/-! ## Parts -/

section
variable (index : Index) (dialect : Dialect) (state : State)

/-- The type that a source gives. -/
def SourceTyped (source : TypeSource) (type : TypeExpr) : Prop :=
  match source with
  | .schema schema => NodeTyped index state schema.node schema.place type
  | .fixed fixed => type = fixed

/-- The type of a part: the name of a place on the way, or what the part at the end gives. -/
def PartTyped (part : Part) (written : Located) (type : TypeExpr) : Prop :=
  (∃ target name, TransGen index.Link written.place target ∧
    state.names.get? target = some name ∧ type = .ref name) ∨
  ∃ here : Located, ReflTransGen index.Link written.place here.place ∧ here.Stands index ∧
    Schema.reference? here.node = none ∧ SourceTyped index state (typeSource dialect part here) type

/-- Whether a parameter is in a location that has a group. -/
def Parameter.isKnown (parameter : Parameter) : Bool :=
  parameterLocations.contains parameter.location

/-- A parameter with the type of what is written for it. -/
def ParameterTyped (parameter : Parameter) (typed : TypedParameter) : Prop :=
  typed.parameter = parameter ∧
    PartTyped index dialect state .parameter parameter.written typed.type

/-- The type of the parameters of an operation: those with a known location, grouped by it. -/
def ParametersTyped (parameters : List Parameter) (type : TypeExpr) : Prop :=
  ∃ typed, List.Forall₂ (ParameterTyped index dialect state)
      (parameters.filter Parameter.isKnown) typed ∧
    type = .object (parameterLocations.filterMap (parameterGroup? typed))

end

section
variable {index : Index} {dialect : Dialect}

theorem partType_yields {part : Part} {written : Located} (stands : written.Stands index) :
    Yields index [] (partType index dialect part written) fun state type =>
      PartTyped index dialect state part written type := by
  intro state
  unfold partType
  have ends := followChain_ends state.names.get? [] written stands (by simp)
  refine .get ?_
  dsimp only
  split
  · rename_i error he
    rw [he] at ends
    exact ⟨.refl, ends⟩
  · rename_i name he
    rw [he] at ends
    obtain ⟨target, chain, hn⟩ := ends
    exact .pure fun later hl =>
      .inl ⟨target, name, chain, NameTable.get?_mono hl.grows.names hn, rfl⟩
  · rename_i here he
    rw [he] at ends
    obtain ⟨chain, here_stands, hr⟩ := ends
    suffices Yields index [] (match typeSource dialect part here with
        | .schema schema => typeOfRoot index schema.node schema.place
        | .fixed type => pure type) fun state type =>
          SourceTyped index state (typeSource dialect part here) type from
      (this state).imp fun _ _ hs => .inr ⟨here, chain, here_stands, hr, hs⟩
    have source_stands := typeSource_stands dialect part here_stands
    cases hs : typeSource dialect part here with
    | schema schema =>
      rw [hs] at source_stands
      exact typeOfRoot_yields index schema.node schema.place source_stands
    | fixed type => exact .pure fun _ => rfl

theorem typedParameters_yields {parameters : List Parameter}
    (stand : ∀ parameter ∈ parameters, parameter.Stands index) :
    Yields index [] (typedParameters index dialect parameters) fun state typed =>
      List.Forall₂ (ParameterTyped index dialect state)
        (parameters.filter Parameter.isKnown) typed := by
  induction parameters with
  | nil => exact .pure fun _ => .nil
  | cons parameter rest ih =>
    have first := stand parameter List.mem_cons_self
    have later := ih fun p hm => stand p (List.mem_cons_of_mem _ hm)
    unfold typedParameters
    by_cases known : parameter.isKnown = true
    · rw [if_pos (show parameterLocations.contains parameter.location = true from known),
        List.filter_cons_of_pos known]
      exact (partType_yields first.written).bind fun type => later.bind fun _ =>
        .pure fun _ hl ht => .cons ⟨rfl, ht⟩ hl
    · rw [if_neg (show ¬parameterLocations.contains parameter.location = true from known),
        List.filter_cons_of_neg known]
      have stands : (index.get? parameter.written.place).isSome := by
        rw [show index.get? parameter.written.place = _ from first.written]
        rfl
      exact (warn_yields _ _ stands).bind fun _ => later.imp fun _ _ hl _ => hl

theorem parametersType_yields {parameters : List Parameter}
    (stand : ∀ parameter ∈ parameters, parameter.Stands index) :
    Yields index [] (parametersType index dialect parameters) fun state type =>
      ParametersTyped index dialect state parameters type :=
  (typedParameters_yields stand).bind fun typed => .pure fun _ ht => ⟨typed, ht, rfl⟩

end

end ApiTypes.Api
