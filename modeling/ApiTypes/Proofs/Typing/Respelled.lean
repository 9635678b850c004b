import ApiTypes.Proofs.Typing.SameShape
import ApiTypes.Proofs.Typing.Run
import ApiTypes.Typing.Reference

/-!
# Typing respelled schemas

What typing makes of a schema does not depend on how references are written, but where their text
is looked at: in values that documentation quotes, in reasons why no type is known, and in the tags
of alternatives. Where those are the same (`Schema.ReadAlike`), typing goes the same way in a
respelled document, over the same states (`Repeats`), with one lemma for each part:
`typeOfNode_repeats`, `typeOfReference_repeats`, `typeOfRoot_repeats`.
-/

namespace ApiTypes

namespace Schema

/-- Why no type is known for a schema, if none is. -/
def unsupportedReason? (node : Json) : Option String :=
  match shape node with
  | .unsupported reason => some reason
  | _ => none

/-- The value that tells an alternative of a choice apart. -/
def alternativeTag? (mapping : Option (List (String × Json))) (alternative : Json) :
    Option String :=
  (reference? alternative).bind (Typing.tagOf? · mapping)

/-- The values that tell the alternatives under a keyword apart. -/
def alternativeTags (node : Json) (keyword : String) : List (Option String) :=
  match discriminator? node with
  | none => []
  | some (_, mapping) =>
    (((node.get? keyword).bind Json.array?).getD []).map (alternativeTag? mapping)

/-- What is read off the text of two schemas and of the values they quote. -/
structure ReadAlike (node node' : Json) : Prop where
  /-- Tags quote the values of their keywords. -/
  doc : doc? node' = doc? node
  /-- The reason may quote the kind that is not known, or the whole node. -/
  reason : unsupportedReason? node' = unsupportedReason? node
  /-- A mapping is searched for the text of references. -/
  oneOf : alternativeTags node' "oneOf" = alternativeTags node "oneOf"
  anyOf : alternativeTags node' "anyOf" = alternativeTags node "anyOf"

instance (node node' : Json) : Decidable (ReadAlike node node') :=
  decidable_of_iff (doc? node' = doc? node ∧ unsupportedReason? node' = unsupportedReason? node ∧
      alternativeTags node' "oneOf" = alternativeTags node "oneOf" ∧
      alternativeTags node' "anyOf" = alternativeTags node "anyOf")
    ⟨fun h => ⟨h.1, h.2.1, h.2.2.1, h.2.2.2⟩, fun h => ⟨h.doc, h.reason, h.oneOf, h.anyOf⟩⟩

end Schema

namespace Typing

open Schema

/-! ## Sequencing -/

section
variable {α β : Type} {read : Pointer → Prop}

/-- When the first action has a result, the second has the same and ends in the same state. The
places promoted go on to be ones that are read. -/
def Repeats (read : Pointer → Prop) (first second : TypingM α) : Prop :=
  ∀ state a after, (∀ entry ∈ state.promoted, read entry.1) →
    first.run.run state = (.ok a, after) →
    second.run.run state = (.ok a, after) ∧ ∀ entry ∈ after.promoted, read entry.1

theorem Repeats.pure (a : α) : Repeats read (Pure.pure a) (Pure.pure a) := by
  intro state b after kept h
  obtain ⟨-, rfl⟩ := Prod.mk.inj h
  exact ⟨h, kept⟩

theorem Repeats.bind {first second : TypingM α} {next next' : α → TypingM β}
    (h : Repeats read first second) (hn : ∀ a, Repeats read (next a) (next' a)) :
    Repeats read (first >>= next) (second >>= next') := by
  intro state b final kept run
  rcases hf : first.run.run state with ⟨error | a, after⟩
  · rw [run_bind_of_error hf] at run
    cases run
  · obtain ⟨again, kept'⟩ := h state a after kept hf
    rw [run_bind_of_ok hf] at run
    rw [run_bind_of_ok again]
    exact hn a after b final kept' run

theorem Repeats.map {first second : TypingM α} (f : α → β) (h : Repeats read first second) :
    Repeats read (f <$> first) (f <$> second) := by
  rw [map_eq_pure_bind, map_eq_pure_bind]
  exact h.bind fun a => .pure (f a)

theorem Repeats.get {next next' : State → TypingM α}
    (h : ∀ state, Repeats read (next state) (next' state)) :
    Repeats read (MonadState.get >>= next) (MonadState.get >>= next') :=
  fun state => h state state

/-! ## Changes of the state -/

theorem warn_repeats (kind : WarningKind) (place : Pointer) (message : String) :
    Repeats read (warn kind place message) (warn kind place message) := by
  intro state a after kept h
  obtain ⟨-, rfl⟩ := Prod.mk.inj h
  exact ⟨h, kept⟩

theorem unsupported_repeats (place : Pointer) (reason : String) :
    Repeats read (unsupported place reason) (unsupported place reason) :=
  (warn_repeats _ place reason).bind fun _ => .pure _

theorem ambiguous_repeats (place : Pointer) (reason : String) :
    Repeats read (ambiguous place reason) (ambiguous place reason) :=
  (warn_repeats _ place reason).bind fun _ => .pure _

theorem recordExpansion_repeats (place : Pointer) (type : TypeExpr) :
    Repeats read (recordExpansion place type) (recordExpansion place type) := by
  intro state a after kept h
  obtain ⟨-, rfl⟩ := Prod.mk.inj h
  exact ⟨h, kept⟩

theorem promote_repeats {place : Pointer} (reads : read place) :
    Repeats read (promote place) (promote place) := by
  intro state a after kept h
  refine ⟨h, ?_⟩
  rw [run_promote] at h
  obtain ⟨-, rfl⟩ := Prod.mk.inj h
  intro entry hm
  rcases List.mem_append.1 hm with hm | hm
  · exact kept entry hm
  · rw [List.mem_singleton.1 hm]
    exact reads

theorem refToPromoted_repeats {place : Pointer} (reads : read place) :
    Repeats read (do return TypeExpr.ref (← promote place))
      (do return TypeExpr.ref (← promote place)) :=
  (promote_repeats reads).bind fun _ => .pure _

end

/-! ## Values, lists and fields -/

section
variable {read : Pointer → Prop}

theorem literalType_repeats (place : Pointer) (value : Json) :
    Repeats read (literalType place value) (literalType place value) := by
  unfold literalType
  split
  · exact .pure _
  · exact .pure _
  · exact .pure _
  · exact .pure _
  · exact .pure _
  · exact unsupported_repeats _ _
  · exact unsupported_repeats _ _

theorem literalTypes_repeats {place : Pointer} {values values' : List Json}
    (same : values'.map (literalType place) = values.map (literalType place)) :
    Repeats read (literalTypes place values) (literalTypes place values') := by
  induction values generalizing values' with
  | nil =>
    cases values' with
    | nil => exact .pure _
    | cons value' rest' => cases same
  | cons value rest ih =>
    cases values' with
    | nil => cases same
    | cons value' rest' =>
      obtain ⟨first, later⟩ := List.cons.inj same
      unfold literalTypes
      rw [first]
      exact (literalType_repeats place value).bind fun _ => (ih later).bind fun _ => .pure _

end

section
variable {read : Pointer → Prop} {node node' : Json} {typeInner : TypeInner node}
  {typeInner' : TypeInner node'} {met : InnerMet node node'}
  (inner : ∀ here inner inner', met here inner inner' →
    Repeats read (typeInner inner here) (typeInner' inner' here))
  {place : Pointer}
include inner

theorem typesOfList_repeats {number : Nat} {inners : List (Inner node)}
    {inners' : List (Inner node')} (h : ListMet met place number inners inners') :
    Repeats read (typesOfList typeInner place number inners)
      (typesOfList typeInner' place number inners') := by
  induction h with
  | nil => exact .pure _
  | cons first _ ih => exact (inner _ _ _ first).bind fun _ => ih.bind fun _ => .pure _

theorem typesOfFields_repeats {fields : List (String × Inner node)}
    {fields' : List (String × Inner node')} (h : FieldsMet met place fields fields') :
    Repeats read (typesOfFields typeInner place fields)
      (typesOfFields typeInner' place fields') := by
  induction h with
  | nil => exact .pure _
  | @cons field field' _ _ first _ ih =>
    obtain ⟨key, i⟩ := field
    obtain ⟨key', i'⟩ := field'
    obtain ⟨rfl, first⟩ := first
    exact (inner _ _ _ first).bind fun _ => ih.bind fun _ => .pure _

/-! ## Kinds of value -/

theorem additionalType_repeats {additional : Additional (Inner node)}
    {additional' : Additional (Inner node')} (h : AdditionalMet met place additional additional') :
    Repeats read (additionalType typeInner place additional)
      (additionalType typeInner' place additional') := by
  cases h with
  | absent | forbidden | any => exact .pure _
  | schema inside => exact (inner _ _ _ inside).map some

/-- What members say besides the types of the properties is the same. -/
def SameMembers (met : InnerMet node node') : Prop :=
  ∀ here inner inner', met here inner inner' → ∀ required name,
    propertyOf required name inner'.node = propertyOf required name inner.node

theorem objectType_repeats (said : SameMembers met) {shape : ObjectShape (Inner node)}
    {shape' : ObjectShape (Inner node')} (h : ObjectMet met place shape shape') :
    Repeats read (objectType typeInner shape place) (objectType typeInner' shape' place) := by
  unfold objectType
  refine (typesOfFields_repeats inner h.properties).bind fun types =>
    (additionalType_repeats inner h.additional).bind fun additional => ?_
  have optional (required : List String) :
      (shape'.properties.getD []).any (fun field => !required.contains field.1) =
        (shape.properties.getD []).any fun field => !required.contains field.1 := by
    refine any_eq_of_forall₂ h.properties ?_
    rintro field field' ⟨same, -⟩
    rw [same]
  have members (required : List String) :
      List.zipWith (fun (field : String × Inner node') type =>
          propertyOf required field.1 field.2.node type) (shape'.properties.getD []) types =
        List.zipWith (fun (field : String × Inner node) type =>
          propertyOf required field.1 field.2.node type) (shape.properties.getD []) types := by
    refine zipWith_eq_of_forall₂ h.properties ?_ types
    rintro field field' ⟨same, met⟩
    rw [same, said _ _ _ met]
  rw [h.required, members, optional]
  exact .pure _

theorem arrayType_repeats {items : Items (Inner node)} {items' : Items (Inner node')}
    (h : ItemsMet met place items items') :
    Repeats read (arrayType typeInner place items) (arrayType typeInner' place items') := by
  cases h with
  | absent => exact .pure _
  | single inside => exact (inner _ _ _ inside).map _
  | tuple listed => exact (typesOfList_repeats inner listed).bind fun _ => .pure _

theorem coreType_repeats (said : SameMembers met) {core : Core (Inner node)}
    {core' : Core (Inner node')} (h : CoreMet met place core core') :
    Repeats read (coreType typeInner place core) (coreType typeInner' place core') := by
  cases h with
  | scalar kind => exact .pure _
  | array inside => exact arrayType_repeats inner inside
  | object inside => exact objectType_repeats inner said inside

theorem coreTypes_repeats (said : SameMembers met) {cores : List (Core (Inner node))}
    {cores' : List (Core (Inner node'))} (h : List.Forall₂ (CoreMet met place) cores cores') :
    Repeats read (coreTypes typeInner place cores) (coreTypes typeInner' place cores') := by
  induction h with
  | nil => exact .pure _
  | cons first _ ih =>
    exact (coreType_repeats inner said first).bind fun _ => ih.bind fun _ => .pure _

theorem baseType_repeats (said : SameMembers met) {base : Base (Inner node)}
    {base' : Base (Inner node')} (h : BaseMet met place base base') :
    Repeats read (baseType typeInner place base) (baseType typeInner' place base') := by
  cases h with
  | one inside => exact coreType_repeats inner said inside
  | several each => exact (coreTypes_repeats inner said each).bind fun _ => .pure _

/-! ## Composition -/

omit inner in
theorem zipWith_taggedType (property : String) (mapping : Option (List (String × Json)))
    (inners : List (Inner node)) (types : List TypeExpr) :
    List.zipWith (fun (inner : Inner node) type => taggedType property mapping inner.node type)
        inners types =
      List.zipWith (fun (tag : Option String) type =>
          match tag with
          | some tag =>
            .intersection [.object [Member.plain property (.literal (.string tag)) false], type]
          | none => type)
        ((inners.map (·.node)).map (alternativeTag? mapping)) types := by
  rw [List.map_map, List.zipWith_map_left]
  rfl

theorem choiceUnder_repeats {keyword : String} {inners : Option (List (Inner node))}
    {inners' : Option (List (Inner node'))} (from_node : inners = node.innerItems? keyword)
    (from_node' : inners' = node'.innerItems? keyword)
    (property : (discriminator? node').map (·.1) = (discriminator? node).map (·.1))
    (tags : alternativeTags node' keyword = alternativeTags node keyword)
    (h : Option.Rel (ListMet met (place.child keyword) 0) inners inners') :
    Repeats read (choiceUnder typeInner place keyword inners)
      (choiceUnder typeInner' place keyword inners') := by
  rcases rel_cases h with ⟨rfl, rfl⟩ | ⟨listed, listed', rfl, rfl, met⟩
  · exact .pure _
  · refine Repeats.bind ?_ fun _ => .pure _
    refine (typesOfList_repeats inner met).bind fun types => ?_
    have items := Json.get?_of_innerItems from_node.symm
    have items' := Json.get?_of_innerItems from_node'.symm
    unfold alternativeTags at tags
    cases hd : discriminator? node with
    | none =>
      rw [hd, Option.map_none, Option.map_eq_none_iff] at property
      rw [property]
      exact .pure _
    | some named =>
      rw [hd, Option.map_some, Option.map_eq_some_iff] at property
      obtain ⟨named', hd', same⟩ := property
      rw [hd, hd', items, items'] at tags
      simp only [Option.bind_some, Json.array?, Option.getD_some] at tags
      rw [hd']
      dsimp only
      rw [zipWith_taggedType, zipWith_taggedType, tags, same]
      exact .pure _

theorem baseUnder_repeats (said : SameMembers met) {base : Option (Base (Inner node))}
    {base' : Option (Base (Inner node'))} (h : Option.Rel (BaseMet met place) base base') :
    Repeats read (baseUnder typeInner place base) (baseUnder typeInner' place base') := by
  cases h with
  | none => exact .pure _
  | some met => exact (baseType_repeats inner said met).bind fun _ => .pure _

theorem allUnder_repeats {inners : Option (List (Inner node))}
    {inners' : Option (List (Inner node'))}
    (h : Option.Rel (ListMet met (place.child "allOf") 0) inners inners') :
    Repeats read (allUnder typeInner place inners) (allUnder typeInner' place inners') := by
  cases h with
  | none => exact .pure _
  | some met => exact (typesOfList_repeats inner met).bind fun _ => .pure _

omit inner in
theorem notUnder_repeats {schema schema' : Option Json} (h : schema'.isSome = schema.isSome) :
    Repeats read (notUnder place schema) (notUnder place schema') := by
  cases schema with
  | none =>
    cases schema' with
    | none => exact .pure _
    | some _ => cases h
  | some _ =>
    cases schema' with
    | none => cases h
    | some _ => exact (unsupported_repeats _ _).bind fun _ => .pure _

theorem compositeType_repeats (said : SameMembers met)
    (property : (discriminator? node').map (·.1) = (discriminator? node).map (·.1))
    (same : ReadAlike node node')
    (h : CompositionMet met place (composition node) (composition node'))
    {base : Option (Base (Inner node))} {base' : Option (Base (Inner node'))}
    (hb : Option.Rel (BaseMet met place) base base') :
    Repeats read (compositeType typeInner (composition node) base place)
      (compositeType typeInner' (composition node') base' place) :=
  (baseUnder_repeats inner said hb).bind fun _ =>
    (allUnder_repeats inner h.allOf).bind fun _ =>
      (choiceUnder_repeats inner rfl rfl property same.oneOf h.oneOf).bind fun _ =>
        (choiceUnder_repeats inner rfl rfl property same.anyOf h.anyOf).bind fun _ =>
          (notUnder_repeats h.not).bind fun _ => .pure _

end

/-! ## Schemas -/

section
variable {index index' : Index} (respelled : index.Respelled index') {read : Pointer → Prop}

/-- The places that are read go on to be so inside schemas and along references. -/
structure ReadOn (index : Index) (read : Pointer → Prop) : Prop where
  inner : ∀ place node here, read place → index.get? place = some node → reference? node = none →
    InnerPlace place node here → read here
  link : ∀ place target, read place → index.Link place target → read target

/-- The schemas at the places that are read are read alike in both documents. -/
def SchemasReadAlike (index index' : Index) (read : Pointer → Prop) : Prop :=
  ∀ place node node', read place → index.Both index' place node node' → ReadAlike node node'

theorem shape_of_reference {node : Json} {reference : String}
    (h : reference? node = some reference) : shape node = .reference reference := by
  cases node with
  | object fields =>
    unfold shape
    simp only [h]
  | _ => cases h

include respelled

theorem discriminator_eq {place : Pointer} {node node' : Json}
    (both : index.Both index' place node node') :
    (discriminator? node').map (·.1) = (discriminator? node).map (·.1) := by
  unfold discriminator?
  rcases rel_cases (both.get?_rel respelled "discriminator") with
    ⟨h, h'⟩ | ⟨value, value', h, h', inner⟩
  · rw [h, h']
  · rw [h, h', Option.bind_some, Option.bind_some]
    have text := inner.string?_eq respelled (by simp [Index.last?_child])
    have property : value'.text? "propertyName" = value.text? "propertyName" :=
      inner.text?_eq respelled (by simp)
    cases value with
    | string name =>
      cases value' with
      | string name' =>
        cases text
        rfl
      | _ => cases text
    | _ =>
      cases value' with
      | string name' => cases text
      | _ => simp only [property, Option.map_map, Function.comp_def]

theorem shapeType_repeats {place : Pointer} {node node' : Json} {typeInner : TypeInner node}
    {typeInner' : TypeInner node'} (both : index.Both index' place node node')
    (plain : reference? node = none) (same : ReadAlike node node')
    (inner : ∀ here inner inner', Met index index' place node node' here inner inner' →
      Repeats read (typeInner inner here) (typeInner' inner' here))
    (said : SameMembers (Met index index' place node node'))
    (follow follow' : String → Pointer → TypingM TypeExpr) :
    Repeats read (shapeType typeInner follow place (shape node))
      (shapeType typeInner' follow' place (shape node')) := by
  have met := shape_met respelled both
  have reason := same.reason
  unfold unsupportedReason? at reason
  generalize shape node = first at met reason
  generalize shape node' = second at met reason
  cases met with
  | any | nothing => exact .pure _
  | reference written => cases plain.symm.trans written
  | enumeration same => exact (literalTypes_repeats same).bind fun _ => .pure _
  | enumerationWithComposition => exact (ambiguous_repeats _ _).bind fun _ => .pure _
  | constant same =>
    refine Repeats.bind ?_ fun _ => .pure _
    rw [same]
    exact literalType_repeats _ _
  | composite composed inside =>
    exact compositeType_repeats inner said (discriminator_eq respelled both) same composed inside
  | structural inside => exact (baseType_repeats inner said inside).bind fun _ => .pure _
  | unsupported reason reason' =>
    cases reason
    exact (unsupported_repeats _ _).bind fun _ => .pure _

theorem withNull_repeats {place : Pointer} {node node' : Json}
    (both : index.Both index' place node node') (type : TypeExpr) (choiceHasNull : Bool) :
    Repeats read (withNull node place type choiceHasNull)
      (withNull node' place type choiceHasNull) := by
  unfold withNull isNullable
  rw [both.flag_eq respelled "nullable", both.flag_eq respelled "x-nullable"]
  split
  · exact .pure _
  · split
    · exact ambiguous_repeats _ _
    · exact .pure _

theorem typeOfNode_repeats (on : ReadOn index read) (alike : SchemasReadAlike index index' read)
    {follow follow' : String → Pointer → TypingM TypeExpr}
    (follows : ∀ place node node' reference reference', read place →
      index.Both index' place node node' → reference? node = some reference →
      reference? node' = some reference' →
      Repeats read (follow reference place) (follow' reference' place))
    (place : Pointer) (node node' : Json) (reads : read place)
    (both : index.Both index' place node node') :
    Repeats read (typeOfNode follow node place) (typeOfNode follow' node' place) := by
  rw [typeOfNode, typeOfNode]
  refine Repeats.bind ?_ fun result => withNull_repeats respelled both result.1 result.2
  -- keywords beside a reference count for nothing, so what they hold is not read
  rcases rel_cases (both.reference?_rel respelled) with
    ⟨plain, -⟩ | ⟨reference, reference', h, h', -⟩
  · have inner (here : Pointer) (inner : Inner node) (inner' : Inner node')
        (met : Met index index' place node node' here inner inner') :
        Repeats read (typeOfNode follow inner.node here) (typeOfNode follow' inner'.node here) :=
      typeOfNode_repeats on alike follows here inner.node inner'.node
        (on.inner place node here reads both.left plain met.1) met.2
    refine shapeType_repeats respelled both plain (alike place node node' reads both) inner ?_ _ _
    intro here inner inner' met required name
    have reads_here := on.inner place node here reads both.left plain met.1
    funext type
    unfold propertyOf isReadOnly
    rw [met.2.flag_eq respelled, (alike here _ _ reads_here met.2).doc]
  · rw [shape_of_reference h, shape_of_reference h']
    exact (follows place node node' reference reference' reads both h h').bind fun _ => .pure _
termination_by sizeOf node
decreasing_by exact inner.smaller

/-! ## References -/

theorem typeOfReference_repeats (on : ReadOn index read)
    (alike : SchemasReadAlike index index' read) (path : List Pointer) (place : Pointer)
    (node node' : Json) (reference reference' : String) (reads : read place)
    (both : index.Both index' place node node')
    (h : reference? node = some reference) (h' : reference? node' = some reference') :
    Repeats read (typeOfReference index path reference place)
      (typeOfReference index' path reference' place) := by
  rw [typeOfReference, typeOfReference]
  rcases ht : index.resolve reference place with error | target
  · intro state a after _ run
    cases run
  · obtain ⟨⟨pointer, node', found⟩, ht', same, both_there⟩ := both.resolve respelled h h' ht
    obtain rfl : pointer = target.pointer := same
    have link : index.Link place target.pointer :=
      ⟨node, reference, target, both.left, h, Index.locate?_of_resolve ht, rfl⟩
    have reads_there := on.link place target.pointer reads link
    rw [ht']
    -- all that is looked up from here on is looked up by the place, which is one in both
    refine .get fun state => ?_
    cases hn : state.names.get? target.pointer with
    | some name => exact .pure _
    | none =>
      dsimp only
      have again : Index.Target.isCycle ⟨target.pointer, node', found⟩ path = target.isCycle path :=
        rfl
      by_cases cycle : target.isCycle path = true
      · rw [dif_pos cycle, dif_pos (again.trans cycle)]
        exact refToPromoted_repeats reads_there
      · rw [dif_neg cycle, dif_neg (again ▸ cycle)]
        cases hx : state.expanded.lookup target.pointer with
        | some type =>
          dsimp only
          split
          · exact .pure _
          · exact refToPromoted_repeats reads_there
        | none =>
          have outside : target.pointer ∉ path := by simpa [Index.Target.isCycle] using cycle
          have smaller := Index.unvisited_lt target.found outside
          have follows := typeOfReference_repeats on alike (path ++ [target.pointer])
          have typed := typeOfNode_repeats respelled on alike follows target.pointer target.node
            node' reads_there both_there
          exact typed.bind fun type =>
            (recordExpansion_repeats target.pointer type).bind fun _ => .pure _
termination_by index.unvisited path

theorem typeOfRoot_repeats (on : ReadOn index read) (alike : SchemasReadAlike index index' read)
    (place : Pointer) (node node' : Json) (reads : read place)
    (both : index.Both index' place node node') :
    Repeats read (typeOfRoot index node place) (typeOfRoot index' node' place) :=
  typeOfNode_repeats respelled on alike (typeOfReference_repeats respelled on alike [place]) place
    node node' reads both

end

end Typing

end ApiTypes
